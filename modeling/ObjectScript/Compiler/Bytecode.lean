import ObjectScript.Compiler.ByteStream
/-!
# Compiled programs in a stream

`saveToStream` writes what the compiler has made of a text, `loadFromStream` makes a `Program` of it.  The numbers are
written in four groups, by the narrowest type that holds the number, each entry with the distance of its index from the
entry before; positions inside a function are written from its first instruction on.  The tables of the program are
allocated as large as the stream says, before anything of them is read.
-/
namespace ObjectScript
namespace Compiler
namespace Bytecode

open ByteReader (fail check many)
open ObjectScript.Core (Double Single)
open ByteStream

/-! ### What the compiler holds -/

structure LocalVarCompiled where
  cachedNameIndex : Nat
  startCodePos : Nat
  endCodePos : Nat
  upvalue : Bool
deriving DecidableEq, Repr

structure TryBlock where
  startCodePos : Nat
  endCodePos : Nat
  catchVarIndex : Nat
deriving DecidableEq, Repr

/-- What a function scope asks of the scope around it. -/
structure ParentScope where
  funcIndex : Nat
  /-- `function->prog_func_index` -/
  function : Nat
deriving DecidableEq, Repr

structure Scope where
  parent : Option ParentScope
  stackSize : Nat
  numLocals : Nat
  numParams : Nat
  maxUpCount : Nat
  funcDepth : Nat
  /-- Counted in the function around it, once more for every pass over the text. -/
  funcIndex : Nat
  numLocalFuncs : Nat
  opcodesPos : Nat
  opcodesSize : Nat
  localsCompiled : List LocalVarCompiled
  tryBlocks : List TryBlock
deriving DecidableEq, Repr

structure DebugInfoItem where
  line : Nat
  pos : Nat
deriving DecidableEq, Repr

structure Compiled where
  progNumbers : List Double
  progStrings : List (List UInt8)
  progFunctions : List Scope
  progOpcodes : List Nat
  progDebugInfo : List DebugInfoItem
  progFilenameStringIndex : Nat
deriving DecidableEq, Repr

/-! ### Writing -/

def header : List UInt8 := [79, 66, 74, 69, 67, 84, 83, 67, 82, 73, 80, 84]

inductive NumberCode where
  | int (n : Nat)
  | float (x : Single)
  | double
  | longDouble

def numberCode (val : Double) : NumberCode :=
  match if val.nonneg then val.toInt? else none with
  | some n => .int n
  | none =>
    match val.toFloat? with
    | some x => .float x
    | none => if val.isNaN then .longDouble else .double

structure NumberStream where
  count : Nat
  index : Nat
  buffer : List UInt8

def NumberStream.empty : NumberStream := ⟨0, 0, []⟩

def NumberStream.add (s : NumberStream) (i : Nat) (value : List UInt8) : NumberStream where
  count := s.count + 1
  index := i
  buffer := s.buffer ++ (writeUVariable (i - s.index) ++ value)

structure NumberStreams where
  int : NumberStream
  float : NumberStream
  double : NumberStream
  longDouble : NumberStream

def NumberStreams.empty : NumberStreams := ⟨.empty, .empty, .empty, .empty⟩

def writeNumber (P : Platform) (s : NumberStreams) (i : Nat) (val : Double) : NumberStreams :=
  match numberCode val with
  | .int n => { s with int := s.int.add i (writeUVariable n) }
  | .float x => { s with float := s.float.add i (writeFloat x) }
  | .double => { s with double := s.double.add i (writeDouble val) }
  | .longDouble => { s with longDouble := s.longDouble.add i (writeLongDouble P val) }

def writeNumbers (P : Platform) : NumberStreams → Nat → List Double → NumberStreams
  | s, _, [] => s
  | s, i, val :: vals => writeNumbers P (writeNumber P s i val) (i + 1) vals

def writeString (str : List UInt8) : List UInt8 := writeUVariable str.length ++ str

def writeLocal (opcodesPos : Nat) (v : LocalVarCompiled) : List UInt8 :=
  writeUVariable v.cachedNameIndex ++ (writeUVariable (v.startCodePos - opcodesPos) ++
    (writeUVariable (v.endCodePos - opcodesPos) ++ writeByte v.upvalue.toNat))

def writeTryBlock (opcodesPos : Nat) (t : TryBlock) : List UInt8 :=
  writeUVariable (t.startCodePos - opcodesPos) ++ (writeUVariable (t.endCodePos - opcodesPos) ++
    writeUVariable t.catchVarIndex)

/-- `func_scope->parent ? func_scope->parent->func_index+1 : 0` -/
def Scope.parentLink (f : Scope) : Nat :=
  match f.parent with
  | some p => p.funcIndex + 1
  | none => 0

def writeFunction (f : Scope) : List UInt8 :=
  writeUVariable f.parentLink ++ (writeUVariable f.stackSize ++ (writeUVariable f.numLocals ++
    (writeUVariable f.numParams ++ (writeUVariable f.maxUpCount ++ (writeUVariable f.funcDepth ++
      (writeUVariable f.funcIndex ++ (writeUVariable f.numLocalFuncs ++ (writeUVariable f.tryBlocks.length ++
        (writeUVariable f.opcodesPos ++ (writeUVariable f.opcodesSize ++
          (f.localsCompiled.flatMap (writeLocal f.opcodesPos) ++
            f.tryBlocks.flatMap (writeTryBlock f.opcodesPos))))))))))))

def writeDebugInfo (item : DebugInfoItem) : List UInt8 := writeUVariable item.line ++ writeUVariable item.pos

def saveToStream (P : Platform) (c : Compiled) : List UInt8 :=
  let streams := writeNumbers P .empty 0 c.progNumbers
  header ++ (writeByte P.version.length ++ (P.version ++
    (writeUVariable streams.int.count ++ (writeUVariable streams.float.count ++ (writeUVariable streams.double.count ++
      (writeUVariable streams.longDouble.count ++ (writeUVariable c.progStrings.length ++
        (writeUVariable c.progFunctions.length ++ (writeUVariable c.progOpcodes.length ++
          (writeUVariable c.progDebugInfo.length ++ (writeUVariable c.progFilenameStringIndex ++
            (streams.int.buffer ++ (streams.float.buffer ++ (streams.double.buffer ++ (streams.longDouble.buffer ++
              (c.progStrings.flatMap writeString ++ (c.progFunctions.flatMap writeFunction ++
                (c.progOpcodes.flatMap writeInt32 ++ c.progDebugInfo.flatMap writeDebugInfo))))))))))))))))))

/-! ### Reading -/

structure LocalVar where
  name : List UInt8
  startCodePos : Nat
  endCodePos : Nat
  upvalue : Bool
deriving DecidableEq, Repr

structure FunctionDecl where
  /-- -1 for the function that no other is around. -/
  progParentFuncIndex : Int
  stackSize : Nat
  numParams : Nat
  maxUpCount : Nat
  funcDepth : Nat
  funcIndex : Nat
  numLocalFuncs : Nat
  opcodesPos : Nat
  opcodesSize : Nat
  locals : List LocalVar
  tryBlocks : List TryBlock
deriving DecidableEq, Repr

structure Program where
  filename : List UInt8
  /-- The numbers of `const_values`; a place that nothing was written to is left as the allocator gave it. -/
  numbers : List (Option Double)
  strings : List (List UInt8)
  functions : List FunctionDecl
  opcodes : List Nat
  debugInfo : List DebugInfoItem
deriving DecidableEq, Repr

def readInt : StreamReader Double := do
  return Double.ofInt (← readUVariable)

def readNumbers (read : StreamReader Double) (numNumbers : Nat) :
    Nat → Nat → List (Option Double) → StreamReader (List (Option Double))
  | 0, _, values => pure values
  | i + 1, numIndex, values => do
    let delta ← readUVariable
    check (numIndex + delta < numNumbers) .assertion
    let number ← read
    readNumbers read numNumbers i (numIndex + delta) (values.set (numIndex + delta) (some number))

/-- The strings, which come through one buffer of some capacity. -/
def readStrings (memory : Memory) (P : Platform) : Nat → Nat → StreamReader (List (List UInt8))
  | 0, _ => pure []
  | i + 1, capacity => do
    let dataSize ← readUVariable
    let capacity ← reserveCapacity memory 1 capacity dataSize
    let str ← readBytes dataSize
    malloc memory (dataSize + P.stringOverhead)
    let strs ← readStrings memory P i capacity
    return str :: strs

/-- A string of `const_values`. -/
def constString (strings : List (List UInt8)) (i : Nat) : StreamReader (List UInt8) :=
  match strings[i]? with
  | some str => pure str
  | none => fail .assertion

def readLocal (strings : List (List UInt8)) (opcodesPos : Nat) : StreamReader LocalVar := do
  let cachedNameIndex ← readUVariable
  let name ← constString strings cachedNameIndex
  let start ← readUVariable
  let stop ← readUVariable
  let upvalue ← readByte
  return { name, startCodePos := start + opcodesPos, endCodePos := stop + opcodesPos, upvalue := upvalue != 0 }

def readTryBlock (opcodesPos : Nat) : StreamReader TryBlock := do
  let start ← readUVariable
  let stop ← readUVariable
  let catchVarIndex ← readUVariable
  return { startCodePos := start + opcodesPos, endCodePos := stop + opcodesPos, catchVarIndex }

def readFunction (memory : Memory) (P : Platform) (strings : List (List UInt8)) : StreamReader FunctionDecl := do
  let parentLink ← readUVariable
  let stackSize ← readUVariable
  let numLocals ← readUVariable
  let numParams ← readUVariable
  let maxUpCount ← readUVariable
  let funcDepth ← readUVariable
  let funcIndex ← readUVariable
  let numLocalFuncs ← readUVariable
  let numTryBlocks ← readUVariable
  let opcodesPos ← readUVariable
  let opcodesSize ← readUVariable
  malloc memory (P.sizeofLocalVar * numLocals)
  let locals ← many (readLocal strings opcodesPos) numLocals
  malloc memory (P.sizeofTryBlock * numTryBlocks)
  let tryBlocks ← many (readTryBlock opcodesPos) numTryBlocks
  return { progParentFuncIndex := parentLink - 1, stackSize, numParams, maxUpCount, funcDepth, funcIndex, numLocalFuncs,
           opcodesPos, opcodesSize, locals, tryBlocks }

def readDebugInfo : StreamReader DebugInfoItem := do
  let line ← readUVariable
  let pos ← readUVariable
  return { line, pos }

/-- `CONST_STD_VALUES`: null, true and false. -/
def constStdValues : Nat := 3

def readProgram (memory : Memory) (P : Platform) : StreamReader Program := do
  let intCount ← readUVariable
  let floatCount ← readUVariable
  let doubleCount ← readUVariable
  let longDoubleCount ← readUVariable
  let numNumbers := intCount + floatCount + doubleCount + longDoubleCount
  let numStrings ← readUVariable
  let numFunctions ← readUVariable
  let opcodesSize ← readUVariable
  let numDebugInfos ← readUVariable
  let progFilenameStringIndex ← readUVariable
  check (progFilenameStringIndex < numStrings) .assertion
  malloc memory (P.sizeofValue * (numNumbers + numStrings + constStdValues))
  let blank := List.replicate numNumbers none
  let ints ← readNumbers readInt numNumbers intCount 0 blank
  let floats ← readNumbers (do return (← readFloat).widen) numNumbers floatCount 0 ints
  let doubles ← readNumbers readDouble numNumbers doubleCount 0 floats
  let numbers ← readNumbers (readLongDouble P) numNumbers longDoubleCount 0 doubles
  let strings ← readStrings memory P numStrings 0
  let filename ← constString strings progFilenameStringIndex
  malloc memory (P.sizeofFunctionDecl * numFunctions)
  let functions ← many (readFunction memory P strings) numFunctions
  let _ ← reserveCapacity memory 4 0 opcodesSize
  let opcodes ← many readInt32 opcodesSize
  -- with this capacity `vectorAddItem` does not allocate
  let _ ← reserveCapacity memory 8 0 numDebugInfos
  let debugInfo ← many readDebugInfo numDebugInfos
  return { filename, numbers, strings, functions, opcodes, debugInfo }

/-- `false` is `none`. -/
def loadFromStream (memory : Memory) (P : Platform) : StreamReader (Option Program) := do
  if ← checkBytes header then
    movePos 1
    if ← checkBytes P.version then
      return some (← readProgram memory P)
    else
      return none
  else
    return none

end Bytecode
end Compiler
end ObjectScript
