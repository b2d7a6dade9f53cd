import ObjectScript.Compiler.Instruction
import ObjectScript.Lib.Registers
/-!
# Registers of expressions

`postCompileNewVM` gives the registers of an expression.  A function has its locals in the first registers and its
temporaries behind them, as a stack: an expression leaves its values in the temporaries from the height on at which it
begins.  An operand that has become a move to a temporary is not moved at all where the code can take it from where it is,
and an assignment to a local lets the operator in front of it write to the local.  Constants are behind the negative
numbers; one that does not fit an operand is loaded by an instruction of its own.
-/
namespace ObjectScript
namespace Compiler
namespace NewVM

open Registers

/-! ## Expressions -/

inductive Const where
  | null | true | false
  | number (i : Nat)
  | string (i : Nat)
deriving DecidableEq, Repr

inductive UnaryType where
  | bitNot | plus | minus
deriving DecidableEq, Repr

inductive BinaryType where
  | bitAnd | bitOr | bitXor | compare | add | sub | mul | div | mod | lshift | rshift | pow
deriving DecidableEq, Repr

inductive LogicType where
  | ptrEq | ptrNe | eq | ne | ge | le | greater | less
deriving DecidableEq, Repr

inductive CallType where
  | call | superCall | callMethod
deriving DecidableEq, Repr

inductive IncDecType where
  | preInc | preDec | postInc | postDec
deriving DecidableEq, Repr

/-- `LocalVarDesc`: a local of this function, or one of a function `upCount` levels further out. -/
structure LocalVar where
  index : Nat
  upCount : Nat
deriving DecidableEq, Repr

/-- An expression as the passes before leave it.  A name is the number of its string, `one` the number of the constant 1. -/
inductive Exp where
  | const (c : Const)
  | getThis
  | getLocalVar (v : LocalVar)
  | setLocalVar (noPop : Bool) (v : LocalVar) (e : Exp)
  | getEnvVar (name : Nat)
  | setEnvVar (noPop : Bool) (name : Nat) (e : Exp)
  | getProperty (obj index : Exp)
  | setProperty (noPop : Bool) (value obj index : Exp)
  | unary (op : UnaryType) (e : Exp)
  | logicNot (e : Exp)
  | logicBool (e : Exp)
  | binary (op : BinaryType) (l r : Exp)
  | logic (op : LogicType) (l r : Exp)
  | logicAnd (l r : Exp)
  | logicOr (l r : Exp)
  | question (c l r : Exp)
  | incDec (kind : IncDecType) (one : Nat) (ret : Bool) (e : Exp)
  | opAssign (op : BinaryType) (e : Exp)
  | call (kind : CallType) (e : Exp) (ps : List Exp) (ret : Nat)
  | concat (name : Nat) (l r : Exp)
  | methodOp (name : Nat) (l r : Exp) (ret : Nat)
  | length (name : Nat) (e : Exp)
  | params (es : List Exp)
  | codeList (es : List Exp)
  | popValue (e : Exp)

/-! ## Nodes -/

inductive NodeType where
  | nop | codeList | params | popValue
  | move | getXConst
  | getUpvalue | setUpvalue | setUpvalueNoPop
  | getProperty | setProperty | setPropertyNoPop
  | unary (op : UnaryType)
  | binary (op : BinaryType)
  | logicNot | logicBool
  | logic (op : LogicType)
  | logicAnd | logicOr | question
  | call (kind : CallType)
deriving DecidableEq, Repr

structure Node where
  type : NodeType
  a : Int
  b : Int
  c : Int
  list : List Node

def constStdValues : Nat := 3

def maxGenericConstIndex : Int := 2 ^ (Instruction.sizeB - 1) - 1

def preVarThis : Nat := 1

def postVarEnv : Nat := 0

def postVarGlobals : Nat := 1

/-- What a function knows of itself when its expressions get their registers.  Its locals are the parameters, with the
function and `this` before them, the two registers behind them and the variables. -/
structure Function where
  numLocals : Nat
  numParams : Nat
  numNumbers : Nat
  this_lt : preVarThis < numParams
  globals_lt : numParams + postVarGlobals < numLocals

namespace Function

variable (f : Function)

/-- The place of a constant among those of the program. -/
def constIndex : Const → Nat
  | .null => 0
  | .true => 1
  | .false => 2
  | .number i => i + constStdValues
  | .string i => i + f.numNumbers + constStdValues

def constSlot (c : Const) : Int := -1 - f.constIndex c

def envSlot : Int := f.numParams + postVarEnv

def globalsSlot : Int := f.numParams + postVarGlobals

end Function

def isXConst (b : Int) : Bool := b < -maxGenericConstIndex

/-- The type of the node that brings a constant or a register to a temporary. -/
def moveType (b : Int) : NodeType := if isXConst b then .getXConst else .move

/-! ## The stack of temporaries -/

/-- `stack_cur_size` and `stack_size` -/
structure Stack where
  cur : Int
  size : Int
deriving DecidableEq, Repr

inductive CompileError where
  | expectWriteable | syntaxError
deriving DecidableEq, Repr

abbrev CompileM := Comp Stack CompileError

def stackCurSize : CompileM Int := .read Stack.cur

def setCurSize (n : Int) : CompileM Unit := .modify fun st => { st with cur := n }

def allocTempVar : CompileM Int := fun st => .ok (st.cur, { cur := st.cur + 1, size := max st.size (st.cur + 1) })

def popTempVar (count : Int) : CompileM Unit := .modify fun st => { st with cur := st.cur - count }

/-- The height goes up to the register `slot` when it is lower. -/
def protect (slot : Int) : CompileM Unit := .modify fun st => { st with cur := max st.cur (slot + 1) }

/-- The size of the stack goes up to `n` when it is lower. -/
def reserve (n : Int) : CompileM Unit := .modify fun st => { st with size := max st.size n }

def setError {α : Type} (e : CompileError) : CompileM α := fun _ => .error e

/-! ## Nodes that write their result elsewhere -/

namespace Node

def setType (n : Node) (type : NodeType) : Node := { n with type := type }

def setA (n : Node) (a : Int) : Node := { n with a := a }

/-- `allowOverrideOpcodeResult`, of the types that are left when an expression has its registers. -/
def allowOverrideOpcodeResult (n : Node) : Bool :=
  match n.type with
  | .move | .binary _ | .getUpvalue | .getProperty => true
  | _ => false

def movesOperand (f : Function) (n : Node) : Bool := n.type = .move && f.numLocals ≤ n.a

/-- The operand without its move and where it is then, or as it was: in `slot`. -/
def elide (n : Node) (elided : Bool) (slot : Int) : Node × Int := if elided then (n.setType .nop, n.b) else (n, slot)

def lastOperator (n : Node) : Option Node :=
  if n.type = .params ∨ n.type = .codeList then n.list.getLast? else some n

def overridable (f : Function) (n : Node) : Bool :=
  n.lastOperator.any fun last => last.allowOverrideOpcodeResult && (f.numLocals : Int) ≤ last.a

/-- The operator writes to the register `a`. -/
def override (n : Node) (a : Int) : Node :=
  if n.type = .params ∨ n.type = .codeList then { n with list := n.list.modify (n.list.length - 1) fun last => last.setA a }
  else n.setA a

end Node

def Exp.isConcat : Exp → Bool
  | .concat .. => true
  | _ => false

/-- Whether the target of an assignment is a property, and whether a local whose assignment leaves no value. -/
def Exp.isSetPropertyNoPop : Exp → Bool
  | .setProperty true .. => true
  | _ => false

def Exp.isSetLocalVar : Exp → Bool
  | .setLocalVar false .. => true
  | _ => false

mutual

def Exp.retValues : Exp → Nat
  | .setLocalVar noPop _ e => if noPop then 1 else e.retValues - 1
  | .setEnvVar noPop _ e => if noPop then 1 else e.retValues - 1
  | .setProperty noPop value _ _ => if noPop then 1 else value.retValues - 1
  | .incDec _ _ ret _ => if ret then 1 else 0
  | .opAssign _ e => e.retValues
  | .call _ _ _ ret => ret
  | .methodOp _ _ _ ret => ret
  | .params es => retSum es
  | .codeList es => retLast es
  | .popValue e => e.retValues - 1
  | _ => 1

def retSum : List Exp → Nat
  | [] => 0
  | e :: es => e.retValues + retSum es

def retLast : List Exp → Nat
  | [] => 0
  | [e] => e.retValues
  | _ :: es => retLast es

end

/-! ## postCompileNewVM -/

section

variable (f : Function)

/-- A node that brings `b` to a new temporary. -/
def newMove (b : Int) : CompileM Node := do
  let a ← allocTempVar
  return ⟨moveType b, a, b, 0, []⟩

def addXconst (n : Node) (xconst : Option Node) : Node :=
  match xconst with
  | some x => ⟨.codeList, n.a, 0, 0, [x, n]⟩
  | none => n

/-- The node of an assignment to a local, before it is known whether the operator may write to the local. -/
def assignNode (v : LocalVar) (b : Int) (n : Node) : Node :=
  if v.upCount ≠ 0 then ⟨.setUpvalue, v.index, b, v.upCount, [n]⟩ else ⟨.move, v.index, b, 0, [n]⟩

def finishSetLocalVar (noPop : Bool) (v : LocalVar) (n : Node) : CompileM Node := do
  popTempVar 1
  let b ← stackCurSize
  let exp := assignNode v b n
  if noPop then
    setCurSize (b + 1)
    return exp
  else if exp.type = .move ∧ n.overridable f then return { exp with type := .nop, list := [n.override exp.a] }
  else return exp

/-- The value, the object and the index of an assignment to a property are in the last three temporaries. -/
def finishSetProperty (noPop : Bool) (value obj index : Node) : CompileM Node := do
  popTempVar 3
  let stackPos ← stackCurSize
  let value := value.elide (value.movesOperand f) stackPos
  let obj := obj.elide (obj.movesOperand f) (stackPos + 1)
  let index := index.elide (index.movesOperand f) (stackPos + 2)
  let exp : Node := ⟨if noPop then .setPropertyNoPop else .setProperty, obj.2, index.2, value.2, [value.1, obj.1, index.1]⟩
  if noPop then do
    let a ← allocTempVar
    return ⟨moveType value.2, a, value.2, 0, [exp]⟩
  else return exp

def finishSetEnvVar (noPop : Bool) (name : Nat) (n : Node) : CompileM Node := do
  popTempVar 1
  let c ← stackCurSize
  let b := f.constSlot (.string name)
  let exp ← if isXConst b then do
      reserve (c + 2)
      Pure.pure (⟨.setProperty, f.envSlot, c + 1, c, [n, ⟨.getXConst, c + 1, b, 0, []⟩]⟩ : Node)
    else Pure.pure ⟨.setProperty, f.envSlot, b, c, [n]⟩
  if noPop then setCurSize (c + 1)
  return exp

def finishNot (stackPos : Int) (n : Node) : Node :=
  match n.type with
  | .logicNot => n.setType .logicBool
  | .logicBool => n.setType .logicNot
  | _ => ⟨.logicNot, stackPos, stackPos, 0, [n]⟩

def finishBool (stackPos : Int) (n : Node) : Node :=
  match n.type with
  | .logicNot | .logicBool => n
  | _ => ⟨.logicBool, stackPos, stackPos, 0, [n]⟩

/-- The second operand is taken from where it is when the register of the *first* one is a temporary. -/
def finishBinary (op : BinaryType) (stackPos : Int) (l r : Node) : Node :=
  let left := l.elide (l.movesOperand f) stackPos
  let right := r.elide (r.type = .move && f.numLocals ≤ l.a) (stackPos + 1)
  ⟨.binary op, stackPos, left.2, right.2, [left.1, right.1]⟩

def finishGetProperty (stackPos : Int) (obj index : Node) : Node :=
  let obj := obj.elide (obj.movesOperand f && 0 ≤ obj.b) stackPos
  let index := index.elide (index.movesOperand f) (stackPos + 1)
  ⟨.getProperty, stackPos, obj.2, index.2, [obj.1, index.1]⟩

def IncDecType.op : IncDecType → BinaryType
  | .preInc | .postInc => .add
  | .preDec | .postDec => .sub

def IncDecType.isPre : IncDecType → Bool
  | .preInc | .preDec => true
  | .postInc | .postDec => false

/-- The registers of the target that are still to be read stay below the height. -/
def protectTarget (n : Node) : CompileM Unit :=
  match n.type with
  | .getUpvalue => protect n.a
  | .getProperty => do
    protect n.a
    protect n.b
    protect n.c
  | _ => return

/-- The number 1, with the node that loads it when it is an operand of its own. -/
def loadOne (one : Nat) : CompileM (List Node × Int) :=
  let b := f.constSlot (.number one)
  if isXConst b then do
    let a ← allocTempVar
    return ([⟨.getXConst, a, b, 0, []⟩], a)
  else return ([], b)

/-- The target, and the node that writes the register `slot` back to it. -/
def writeBack (n : Node) (slot : Int) : CompileM (Node × Node) :=
  match n.type with
  | .move => if f.numLocals ≤ n.b then setError .expectWriteable else return (n, ⟨.move, n.b, slot, 0, []⟩)
  | .getUpvalue => return (n, ⟨.setUpvalueNoPop, n.b, slot, n.c, []⟩)
  | .getProperty =>
    if n.a = n.b then do
      -- the object is in the register of the value, so it goes to another one first
      let a ← allocTempVar
      return ({ n with list := n.list ++ [⟨.move, a, n.a, 0, []⟩] }, ⟨.setPropertyNoPop, a, n.c, slot, []⟩)
    else return (n, ⟨.setPropertyNoPop, n.b, n.c, slot, []⟩)
  | _ => setError .syntaxError

/-- The register of the sum: that of the target unless the value before is asked for. -/
def sumSlot (kind : IncDecType) (ret : Bool) (a : Int) : CompileM Int :=
  if kind.isPre || !ret then return a else allocTempVar

def finishIncDec (kind : IncDecType) (one : Nat) (ret : Bool) (stackPos : Int) (n : Node) : CompileM Node := do
  protectTarget n
  let xconst ← loadOne f one
  let a ← sumSlot kind ret n.a
  let target ← writeBack f n a
  setCurSize (stackPos + if ret then 1 else 0)
  return ⟨.codeList, n.a, 0, 0, [target.1] ++ xconst.1 ++ [⟨.binary kind.op, a, n.a, xconst.2, []⟩, target.2]⟩

/-- The right side of a compound assignment to a local, without its move. -/
def opAssignOperand (n : Node) : List Node × Int :=
  match n.list with
  | [r] => if r.movesOperand f then ([r.setType .nop], r.b) else ([r], n.b)
  | list => (list, n.b)

/-- A compound assignment is compiled as the assignment of its right side, and the operator comes in between. -/
def finishOpAssign (op : BinaryType) (ret : Nat) (stackPos : Int) (n : Node) : CompileM Node :=
  match n.type with
  | .move =>
    if f.numLocals ≤ n.a then setError .expectWriteable else do
      let operand := opAssignOperand f n
      let exp : Node := ⟨.binary op, n.a, n.a, operand.2, operand.1⟩
      setCurSize (stackPos + ret)
      return if ret = 0 then ⟨.codeList, 0, 0, 0, [exp]⟩
        else ⟨.codeList, stackPos, 0, 0, [exp, ⟨.move, stackPos, n.a, 0, []⟩]⟩
  | .setUpvalue | .setUpvalueNoPop => do
    setCurSize (stackPos + ret)
    return ⟨.codeList, stackPos, 0, 0, n.list ++ [⟨.getUpvalue, stackPos, n.a, n.c, []⟩,
      ⟨.binary op, stackPos, stackPos, n.b, []⟩, { n with b := stackPos, list := [] }]⟩
  | .setProperty | .setPropertyNoPop => do
    setCurSize (stackPos + ret)
    return ⟨.codeList, stackPos, 0, 0, n.list ++ [⟨.getProperty, stackPos, n.a, n.b, []⟩,
      ⟨.binary op, stackPos, stackPos, n.c, []⟩, { n with c := stackPos, list := [] }]⟩
  | _ => setError .syntaxError

/-- What an assignment inside a compound one is looked at as: without the move or the nothing around it. -/
def unwrapTarget (e : Exp) (n : Node) : Node :=
  match n.list with
  | [m] =>
    if e.isSetPropertyNoPop && n.type = .move || e.isSetLocalVar && n.type = .nop then m else n
  | _ => n

/-- The node of a call whose values begin at `stackPos`. -/
def finishCall (kind : CallType) (ret : Nat) (stackPos : Int) (n : Node) (ps : List Node) : CompileM Node := do
  let cur ← stackCurSize
  setCurSize (stackPos + ret)
  reserve (stackPos + ret)
  return ⟨.call kind, stackPos, cur - stackPos, ret, [n, ⟨.params, 0, 0, 0, ps⟩]⟩

/-- One operand more for the call of a chain of concatenations. -/
def Node.addOperand (n r : Node) : Node :=
  match n.list with
  | [g, ps] => { n with b := n.b + 1, list := [g, { ps with list := ps.list ++ [r] }] }
  | _ => n

mutual

def postCompileNewVM : Exp → CompileM Node
  | .const c => newMove (f.constSlot c)
  | .getThis => do
    let a ← allocTempVar
    return ⟨.move, a, preVarThis, 0, []⟩
  | .getLocalVar v => do
    let a ← allocTempVar
    return if v.upCount ≠ 0 then ⟨.getUpvalue, a, v.index, v.upCount, []⟩ else ⟨.move, a, v.index, 0, []⟩
  | .setLocalVar noPop v e => do
    let n ← postCompileNewVM e
    finishSetLocalVar f noPop v n
  | .getEnvVar name => do
    let a ← allocTempVar
    let c := f.constSlot (.string name)
    return if isXConst c then addXconst ⟨.getProperty, a, f.envSlot, a, []⟩ (some ⟨.getXConst, a, c, 0, []⟩)
      else ⟨.getProperty, a, f.envSlot, c, []⟩
  | .setEnvVar noPop name e => do
    let n ← postCompileNewVM e
    finishSetEnvVar f noPop name n
  | .getProperty obj index => do
    let stackPos ← stackCurSize
    let obj ← postCompileNewVM obj
    let index ← postCompileNewVM index
    popTempVar 1
    return finishGetProperty f stackPos obj index
  | .setProperty noPop value obj index => do
    let value ← postCompileNewVM value
    let obj ← postCompileNewVM obj
    let index ← postCompileNewVM index
    finishSetProperty f noPop value obj index
  | .unary op e => do
    let stackPos ← stackCurSize
    let n ← postCompileNewVM e
    let operand := n.elide (n.movesOperand f) stackPos
    return ⟨.unary op, stackPos, operand.2, 0, [operand.1]⟩
  | .logicNot e => do
    let stackPos ← stackCurSize
    let n ← postCompileNewVM e
    return finishNot stackPos n
  | .logicBool e => do
    let stackPos ← stackCurSize
    let n ← postCompileNewVM e
    return finishBool stackPos n
  | .binary op l r => do
    let stackPos ← stackCurSize
    let l ← postCompileNewVM l
    let r ← postCompileNewVM r
    popTempVar 1
    return finishBinary f op stackPos l r
  | .logic op l r => do
    let stackPos ← stackCurSize
    let l ← postCompileNewVM l
    let r ← postCompileNewVM r
    popTempVar 1
    return ⟨.logic op, stackPos, 0, 0, [l, r]⟩
  | .logicAnd l r => do
    let stackPos ← stackCurSize
    let l ← postCompileNewVM l
    popTempVar 1
    let r ← postCompileNewVM r
    setCurSize (stackPos + 1)
    return ⟨.logicAnd, stackPos, 0, 0, [l, r]⟩
  | .logicOr l r => do
    let stackPos ← stackCurSize
    let l ← postCompileNewVM l
    popTempVar 1
    let r ← postCompileNewVM r
    setCurSize (stackPos + 1)
    return ⟨.logicOr, stackPos, 0, 0, [l, r]⟩
  | .question c l r => do
    let stackPos ← stackCurSize
    let c ← postCompileNewVM c
    popTempVar 1
    let l ← postCompileNewVM l
    popTempVar 1
    let r ← postCompileNewVM r
    return ⟨.question, stackPos, 0, 0, [c, l, r]⟩
  | .incDec kind one ret e => do
    let stackPos ← stackCurSize
    let n ← postCompileNewVM e
    finishIncDec f kind one ret stackPos n
  | .opAssign op e => do
    let stackPos ← allocTempVar
    let n ← postCompileNewVM e
    finishOpAssign f op e.retValues stackPos (unwrapTarget e n)
  | .call kind e ps ret => do
    let stackPos ← stackCurSize
    let n ← postCompileNewVM e
    let ps ← postCompileList ps
    finishCall kind ret stackPos n ps
  | .concat name l r => do
    let stackPos ← stackCurSize
    if l.isConcat then do
      let n ← postCompileNewVM l
      setCurSize (n.a + n.b)
      let r ← postCompileNewVM r
      setCurSize (stackPos + 1)
      return n.addOperand r
    else do
      let g ← newMove f.globalsSlot
      let m ← newMove (f.constSlot (.string name))
      let l ← postCompileNewVM l
      let r ← postCompileNewVM r
      finishCall .callMethod 1 stackPos g [m, l, r]
  | .methodOp name l r ret => do
    let stackPos ← stackCurSize
    let g ← newMove f.globalsSlot
    let m ← newMove (f.constSlot (.string name))
    let l ← postCompileNewVM l
    let r ← postCompileNewVM r
    finishCall .callMethod ret stackPos g [m, l, r]
  | .length name e => do
    let stackPos ← stackCurSize
    let g ← newMove f.globalsSlot
    let m ← newMove (f.constSlot (.string name))
    let n ← postCompileNewVM e
    finishCall .callMethod 1 stackPos g [m, n]
  | .params es => do
    let ns ← postCompileList es
    return ⟨.params, 0, 0, 0, ns⟩
  | .codeList es => do
    let ns ← postCompileList es
    return ⟨.codeList, (ns.getLast?.map Node.a).getD 0, 0, 0, ns⟩
  | .popValue e => do
    let n ← postCompileNewVM e
    popTempVar 1
    return ⟨.popValue, 0, 0, 0, [n]⟩

/-- `processList` -/
def postCompileList : List Exp → CompileM (List Node)
  | [] => return []
  | e :: es => do
    let n ← postCompileNewVM e
    let ns ← postCompileList es
    return n :: ns

end

section

attribute [local simp] postCompileNewVM postCompileList

theorem postCompileNewVM_getThis (st : Stack) :
    postCompileNewVM f .getThis st = .ok (⟨.move, st.cur, preVarThis, 0, []⟩, ⟨st.cur + 1, max st.size (st.cur + 1)⟩) := by
  simp
  rfl

end

end

end NewVM
end Compiler
end ObjectScript
