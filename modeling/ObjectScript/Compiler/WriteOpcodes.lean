import ObjectScript.Compiler.NodeRuns
/-!
# Instructions of nodes

`writeOpcodes` writes the instructions of a node behind those of its list.  A jump is written before its distance is known,
and is fixed when the code it jumps over is there.  In the lists of statements and of arguments the last two instructions
of an element become one when both are moves, and to one register and the next: as far as `prog_optimize_offs` allows, which
every list sets to where it begins.
-/
namespace ObjectScript
namespace Compiler
namespace NewVM

/-! ## Opcodes -/

def UnaryType.opcode : UnaryType → OpcodeType
  | .bitNot => .bitNot
  | .plus => .plus
  | .minus => .minus

def BinaryType.opcode : BinaryType → OpcodeType
  | .bitAnd => .bitAnd
  | .bitOr => .bitOr
  | .bitXor => .bitXor
  | .compare => .compare
  | .add => .add
  | .sub => .sub
  | .mul => .mul
  | .div => .div
  | .mod => .mod
  | .lshift => .lshift
  | .rshift => .rshift
  | .pow => .pow

def CallType.opcode : CallType → OpcodeType
  | .call => .call
  | .superCall => .superCall
  | .callMethod => .callMethod

def LogicType.opcode : LogicType → OpcodeType
  | .ptrEq | .ptrNe => .logicPtrEq
  | .eq | .ne => .logicEq
  | .le | .greater => .logicGreater
  | .ge | .less => .logicGe

def LogicType.inverse : LogicType → Bool
  | .ptrNe | .ne | .le | .less => true
  | .ptrEq | .eq | .greater | .ge => false

/-! ## The code that is written -/

/-- `prog_opcodes` and `prog_optimize_offs` -/
structure Prog where
  opcodes : List Operands
  optimizeOffs : Nat

def operandIndex (b : Int) : Int := (Instruction.constOperand b).2

def fuse : Operands → Operands → Option Operands
  | .abc .move a b _, .abc .move a' b' _ =>
    if a = operandIndex b' ∧ a' = operandIndex b then none
    else if a + 1 = a' then some (.abc .move2 a b b')
    else none
  | _, _ => none

def fuseLast (code : List Operands) : Option (List Operands) :=
  match code.reverse with
  | cur :: prev :: rest => (fuse prev cur).map fun x => rest.reverse ++ [x]
  | _ => none

namespace Prog

def writeOpcode (p : Prog) (x : Operands) : Prog := { p with opcodes := p.opcodes ++ [x] }

def getOpcodePos (p : Prog) : Nat := p.opcodes.length

def writeJump (p : Prog) : Prog := p.writeOpcode (.jump (-Instruction.maxArgSBx))

def fixJumpOpcode (p : Prog) (offs : Int) (pos : Nat) : Prog := { p with opcodes := p.opcodes.set pos (.jump offs) }

def optimizeFromHere (p : Prog) : Prog := { p with optimizeOffs := p.getOpcodePos }

def optimize (p : Prog) : Prog :=
  if 2 ≤ p.getOpcodePos - p.optimizeOffs then
    match fuseLast p.opcodes with
    | some opcodes => ⟨opcodes, opcodes.length⟩
    | none => p
  else p

end Prog

/-- What a node writes behind the code of its list. -/
def instructions (type : NodeType) (a b c : Int) : List Operands :=
  match type with
  | .nop | .codeList | .params | .popValue | .logicAnd | .logicOr | .question => []
  | .move => [.abc .move a b c]
  | .getXConst => [.abx .getXConst a (-1 - b)]
  | .getUpvalue => [.abc .getUpvalue a b c]
  | .setUpvalue | .setUpvalueNoPop => [.abc .setUpvalue a b c]
  | .getProperty => [.abc .getProperty a b c]
  | .setProperty | .setPropertyNoPop => [.abc .setProperty a b c]
  | .unary op => [.abc op.opcode a b c]
  | .binary op => [.abc op.opcode a b c]
  | .logicNot => [.abc .logicBool a 1 0]
  | .logicBool => [.abc .logicBool a 0 0]
  | .logic op => [.abc op.opcode a op.inverse.toNat 0]
  | .call kind => [.abc kind.opcode a b c]

def NodeType.optimized : NodeType → Bool
  | .codeList | .params | .logic _ => true
  | _ => false

/-- The test of a condition that is not written to a register. -/
def testOpcode (type : NodeType) (a : Int) : Operands :=
  match type with
  | .logic op => .abc op.opcode a op.inverse.toNat 1
  | .logicNot => .abc .logicBool a 1 1
  | _ => .abc .logicBool a 0 1

mutual

def writeOpcodes : Node → Prog → Prog
  | ⟨.logicAnd, a, _, _, [l, r]⟩, p =>
    let p := (writeOpcodes l p).writeOpcode (.abc .logicBool a 0 1)
    let jumpPos := p.getOpcodePos
    let p := writeOpcodes r p.writeJump
    p.fixJumpOpcode (p.getOpcodePos - jumpPos - 1) jumpPos
  | ⟨.logicOr, a, _, _, [l, r]⟩, p =>
    let p := (writeOpcodes l p).writeOpcode (.abc .logicBool a 1 1)
    let jumpPos := p.getOpcodePos
    let p := writeOpcodes r p.writeJump
    p.fixJumpOpcode (p.getOpcodePos - jumpPos - 1) jumpPos
  | ⟨.question, _, _, _, [⟨type, a, b, c, list⟩, l, r]⟩, p =>
    let p := if type.isTest then writeList type.optimized list p.optimizeFromHere else writeOpcodes ⟨type, a, b, c, list⟩ p
    let p := p.writeOpcode (testOpcode type a)
    let ifJumpPos := p.getOpcodePos
    let p := writeOpcodes l p.writeJump
    let jumpPos := p.getOpcodePos
    let p := p.optimizeFromHere.writeJump
    let ifJumpTo := p.getOpcodePos
    let p := (writeOpcodes r p).optimizeFromHere
    (p.fixJumpOpcode (p.getOpcodePos - jumpPos - 1) jumpPos).fixJumpOpcode (ifJumpTo - ifJumpPos - 1) ifJumpPos
  | ⟨type, a, b, c, list⟩, p =>
    let p := writeList type.optimized list p.optimizeFromHere
    (instructions type a b c).foldl Prog.writeOpcode p

/-- `writeOpcodes` of a list, when it has set where it begins. -/
def writeList (optimizationEnabled : Bool) : List Node → Prog → Prog
  | [], p => p
  | n :: ns, p =>
    let p := writeOpcodes n p
    writeList optimizationEnabled ns (if optimizationEnabled then p.optimize else p)

end

section

attribute [local simp] writeOpcodes writeList

@[simp] theorem writeList_nil (optimizationEnabled : Bool) (p : Prog) : writeList optimizationEnabled [] p = p := by simp

end

end NewVM
end Compiler
end ObjectScript
