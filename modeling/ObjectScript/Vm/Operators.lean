import ObjectScript.Vm.Number
/-!
# The operators

What an operator computes is written three times: `pushOpResultValue` for any operands, the instructions of `execute` with
a short path for two numbers, and `OS::runOp` for native code.  Operands that are not primitive have operator methods;
which ones, and what a call of one does, is up to the program, so it is the `World` here.  An exception is part of the
state a call or `setException` leaves behind.

An instruction passes its operands by reference.  A local is in the buffer of `stack_values`, and `pushValue` replaces this
buffer when it is full: the reference is then to freed memory, and what reads it has no result (`World.read`).

Multiplication, division and the conversions between numbers and integers are the machine's (`Machine`).
-/
namespace ObjectScript
namespace Vm

/-- Strings are interned, so two string values are the same object when they have the same text.  An array, a function or
userdata is an object here. -/
inductive Value where
  | null
  | bool (b : Bool)
  | number (x : Number)
  | string (s : String)
  | object (r : Nat)
deriving DecidableEq, Repr

abbrev OSInt := BitVec 64

structure Machine where
  mul : Number → Number → Number
  div : Number → Number → Number
  mod : Number → Number → Number
  pow : Number → Number → Number
  toInt : Number → OSInt
  ofInt : OSInt → Number
  shiftLeft : OSInt → OSInt → OSInt
  shiftRight : OSInt → OSInt → OSInt

/-- What the operators need of the rest of a program. -/
structure World (σ : Type) where
  /-- How many values more `stack_values` has a capacity for. -/
  room : σ → Nat
  /-- Where the buffer of `call_stack_funcs` is. -/
  callStackFuncs : σ → Nat
  /-- `getPropertyValueByPrototype` for a method name. -/
  method : σ → Value → String → Option Value
  classname : σ → Value → String
  /-- `callFT` with one result: the function, `this` and the parameters. -/
  callFT : Value → Value → List Value → σ → Value × σ
  setException : String → σ → σ
  /-- `String(OS_FLOAT)` -/
  numberToString : Number → String
  /-- What `valueToString` and `valueToNumber` read from a value that is not primitive, by its `valueof`. -/
  valueOf : Value → σ → Value × σ
  stringToNumber : String → Number

inductive BinaryOpcode where
  | compare | logicPtrEq | logicEq | logicGe | logicGreater
  | bitAnd | bitOr | bitXor | add | sub | mul | div | mod | lshift | rshift | pow
deriving DecidableEq, Repr

inductive UnaryOpcode where
  | bitNot | plus | minus
deriving DecidableEq, Repr

namespace BinaryOpcode

/-- The operator method of the left operand, and of the right one. -/
def methods : BinaryOpcode → String × String
  | compare => ("__cmp", "__rcmp")
  | logicPtrEq => ("__cmp", "__rcmp")
  | logicEq => ("__cmp", "__rcmp")
  | logicGe => ("__cmp", "__rcmp")
  | logicGreater => ("__cmp", "__rcmp")
  | bitAnd => ("__bitand", "__rbitand")
  | bitOr => ("__bitor", "__rbitor")
  | bitXor => ("__bitxor", "__rbitxor")
  | add => ("__add", "__radd")
  | sub => ("__sub", "__rsub")
  | mul => ("__mul", "__rmul")
  | div => ("__div", "__rdiv")
  | mod => ("__mod", "__rmod")
  | lshift => ("__lshift", "__rlshift")
  | rshift => ("__rshift", "__rrshift")
  | pow => ("__pow", "__rpow")

end BinaryOpcode

def UnaryOpcode.method : UnaryOpcode → String
  | bitNot => "__bitnot"
  | plus => "__plus"
  | minus => "__minus"

namespace Value

def isNull : Value → Bool
  | null => true
  | _ => false

def isPrimitive : Value → Bool
  | null | bool _ | number _ => true
  | _ => false

/-- `OS_IS_VALUE_GC` -/
def isGC (v : Value) : Bool := !v.isPrimitive

/-- `valueToNumber` of a primitive value. -/
def toNumber : Value → Number
  | bool true => .one
  | number x => x
  | _ => .fin 0

def toBool : Value → Bool
  | null => false
  | bool b => b
  | number x => x ≠ .nan
  | _ => true

end Value

/-- An operand: a value, and whether it is in the buffer of `stack_values`. -/
structure Operand where
  value : Value
  onStack : Bool

/-- A constant, an element of an array, or a copy of a value. -/
def Value.copied (v : Value) : Operand := ⟨v, false⟩

def isEqualExactly (left right : Value) : Bool := left == right && left != .number .nan

/-- `errorDivisionByZero` -/
def divisionByZero : String := "division by zero"

section

variable {σ : Type} (W : World σ) (M : Machine)

/-! ## pushOpResultValue -/

def bitwise : BinaryOpcode → Option (OSInt → OSInt → OSInt)
  | .bitAnd => some (· &&& ·)
  | .bitOr => some (· ||| ·)
  | .bitXor => some (· ^^^ ·)
  | .lshift => some M.shiftLeft
  | .rshift => some M.shiftRight
  | _ => none

/-- A value behind `pushed` others: `pushValue` reads it before it replaces the buffer itself. -/
def World.read (pushed : Nat) (operand : Operand) (s : σ) : Option Value :=
  if operand.onStack && W.room s < pushed then none else some operand.value

/-- `Lib::pushObjectMethodOpcodeValue` of a binary operator: the function, `this` and the parameter are pushed. -/
def pushObjectMethodOpcodeValue (opcode : BinaryOpcode) (left right : Operand) (s : σ) : Option (Value × σ) :=
  let (name, reverseName) := opcode.methods
  match W.method s left.value name with
  | some func => do
    let this ← W.read 1 left s
    let param ← W.read 2 right s
    return W.callFT func this [param] s
  | none =>
    match W.method s right.value reverseName with
    | some func => do
      let this ← W.read 1 right s
      let param ← W.read 2 left s
      return W.callFT func this [param] s
    | none =>
      some (.null, W.setException ("method " ++ name ++ " is not implemented in " ++ W.classname s left.value ++ " and " ++
        reverseName ++ " is not implemented in " ++ W.classname s right.value) s)

/-- The result for two primitive operands, and whether both are there. -/
def pushPrimitive (opcode : BinaryOpcode) (left right : Value) (s : σ) : (Value × Bool) × σ :=
  let exist := !left.isNull && !right.isNull
  let a := left.toNumber
  let b := right.toNumber
  match opcode with
  | .compare =>
    if exist then ((.number (a.sub b), true), s)
    else
      let leftNull : Number := if left.isNull then .fin 0 else .one
      let rightNull : Number := if right.isNull then .fin 0 else .one
      ((.number (leftNull.sub rightNull), false), s)
  | .logicPtrEq => ((.bool (isEqualExactly left right), true), s)
  | .logicEq => if exist then ((.bool (a.eq b), true), s) else ((.bool false, false), s)
  | .logicGe => if exist then ((.bool (a.ge b), true), s) else ((.bool false, false), s)
  | .logicGreater => if exist then ((.bool (a.gt b), true), s) else ((.bool false, false), s)
  | .bitAnd | .bitOr | .bitXor | .lshift | .rshift =>
    if exist then
      match bitwise M opcode with
      | some f => ((.number (M.ofInt (f (M.toInt a) (M.toInt b))), true), s)
      | none => ((.null, false), s)
    else ((.null, false), s)
  | .add => if exist then ((.number (a.add b), true), s) else ((.null, false), s)
  | .sub => if exist then ((.number (a.sub b), true), s) else ((.null, false), s)
  | .mul => if exist then ((.number (M.mul a b), true), s) else ((.null, false), s)
  | .div =>
    if exist then
      if b.isZero then ((.null, false), W.setException divisionByZero s) else ((.number (M.div a b), true), s)
    else ((.null, false), s)
  | .mod =>
    if exist then
      if b.isZero then ((.null, false), W.setException divisionByZero s) else ((.number (M.mod a b), true), s)
    else ((.null, false), s)
  | .pow => if exist then ((.number (M.pow a b), true), s) else ((.null, false), s)

def sameObject (left right : Value) : Bool := left.isGC && left == right

/-- A comparison of which the method gives the sign; `missing` is what is left of `exist` when it gives none. -/
def pushCompareMethod (opcode : BinaryOpcode) (left right : Operand) (test : Number → Bool) (missing : Bool) (s : σ) :
    Option ((Value × Bool) × σ) :=
  (pushObjectMethodOpcodeValue W opcode left right s).map fun r =>
    match r.1 with
    | .number x => ((.bool (test x), true), r.2)
    | _ => ((.bool false, missing), r.2)

def pushObject (opcode : BinaryOpcode) (left right : Operand) (s : σ) : Option ((Value × Bool) × σ) :=
  let exist := !left.value.isNull && !right.value.isNull
  let same := sameObject left.value right.value
  match opcode with
  | .compare =>
    if same then some ((.number (.fin 0), true), s)
    else if exist then (pushObjectMethodOpcodeValue W opcode left right s).map fun r => ((r.1, true), r.2)
    else
      let leftNull : Number := if left.value.isNull then .fin 0 else .one
      let rightNull : Number := if right.value.isNull then .fin 0 else .one
      some ((.number (leftNull.sub rightNull), false), s)
  | .logicPtrEq => some ((.bool (isEqualExactly left.value right.value), true), s)
  | .logicEq =>
    if same then some ((.bool true, true), s)
    else if exist then pushCompareMethod W opcode left right (fun x => x.eq (.fin 0)) true s
    else some ((.bool false, false), s)
  | .logicGe =>
    if same then some ((.bool true, true), s)
    else if exist then pushCompareMethod W opcode left right (fun x => x.ge (.fin 0)) false s
    else some ((.bool false, false), s)
  | .logicGreater =>
    if same then some ((.bool false, true), s)
    else if exist then pushCompareMethod W opcode left right (fun x => x.gt (.fin 0)) false s
    else some ((.bool false, false), s)
  | _ =>
    if exist then (pushObjectMethodOpcodeValue W opcode left right s).map fun r => ((r.1, true), r.2)
    else some ((.null, false), s)

/-- `pushOpResultValue` of a binary operator: the value it pushes, and what it returns. -/
def pushOpResultValue (opcode : BinaryOpcode) (left right : Operand) (s : σ) : Option ((Value × Bool) × σ) :=
  if left.value.isPrimitive && right.value.isPrimitive then some (pushPrimitive W M opcode left.value right.value s)
  else pushObject W opcode left right s

/-- `pushOpResultValue` of a unary operator. -/
def pushUnaryResultValue (opcode : UnaryOpcode) (value : Value) (s : σ) : Value × σ :=
  match value with
  | .null => (.null, s)
  | .number _ | .bool _ =>
    match opcode with
    | .bitNot => (.number (M.ofInt (~~~ M.toInt value.toNumber)), s)
    | .plus => (.number value.toNumber, s)
    | .minus => (.number value.toNumber.neg, s)
  | _ =>
    match W.method s value opcode.method with
    | some func => W.callFT func value [] s
    | none =>
      (.null, W.setException ("method " ++ opcode.method ++ " is not implemented in " ++ W.classname s value) s)

/-! ## The operators of the language -/

inductive BinaryOperator where
  | compare | ptrEq | ptrNe | eq | ne | ge | le | greater | less
  | bitAnd | bitOr | bitXor | add | sub | mul | div | mod | lshift | rshift | pow
deriving DecidableEq, Repr

/-- The opcode of an operator, and whether its result is inverted. -/
def BinaryOperator.opcode : BinaryOperator → BinaryOpcode × Bool
  | compare => (.compare, false)
  | ptrEq => (.logicPtrEq, false)
  | ptrNe => (.logicPtrEq, true)
  | eq => (.logicEq, false)
  | ne => (.logicEq, true)
  | ge => (.logicGe, false)
  | le => (.logicGreater, true)
  | greater => (.logicGreater, false)
  | less => (.logicGe, true)
  | bitAnd => (.bitAnd, false)
  | bitOr => (.bitOr, false)
  | bitXor => (.bitXor, false)
  | add => (.add, false)
  | sub => (.sub, false)
  | mul => (.mul, false)
  | div => (.div, false)
  | mod => (.mod, false)
  | lshift => (.lshift, false)
  | rshift => (.rshift, false)
  | pow => (.pow, false)

/-! ## execute -/

/-- The comparison of two numbers that an instruction makes itself. -/
def numberTest : BinaryOpcode → Number → Number → Bool
  | .logicGe => Number.ge
  | .logicGreater => Number.gt
  | _ => Number.eq

/-- `OP_LOGIC_EQ`, `OP_LOGIC_GE` and `OP_LOGIC_GREATER`: without a result the answer is false, whether inverted or not. -/
def executeLogic (opcode : BinaryOpcode) (inverse : Bool) (left right : Operand) (s : σ) : Option (Bool × σ) :=
  match left.value, right.value with
  | .number a, .number b => some (xor (numberTest opcode a b) inverse, s)
  | _, _ =>
    match pushOpResultValue W M opcode left right s with
    | some ((v, true), s) => some (xor (v == .bool true) inverse, s)
    | some ((_, false), s) => some (false, s)
    | none => none

def executeArithmetic (opcode : BinaryOpcode) (left right : Operand) (s : σ) : Option (Value × σ) :=
  match left.value, right.value with
  | .number a, .number b =>
    match opcode with
    | .bitAnd => some (.number (M.ofInt (M.toInt a &&& M.toInt b)), s)
    | .bitOr => some (.number (M.ofInt (M.toInt a ||| M.toInt b)), s)
    | .bitXor => some (.number (M.ofInt (M.toInt a ^^^ M.toInt b)), s)
    | .lshift => some (.number (M.ofInt (M.shiftLeft (M.toInt a) (M.toInt b))), s)
    | .rshift => some (.number (M.ofInt (M.shiftRight (M.toInt a) (M.toInt b))), s)
    | .add => some (.number (a.add b), s)
    | .mul => some (.number (M.mul a b), s)
    | .div => some (if b.isZero then (.null, W.setException divisionByZero s) else (.number (M.div a b), s))
    | .mod => some (if b.isZero then (.null, W.setException divisionByZero s) else (.number (M.mod a b), s))
    | .pow => some (.number (M.pow a b), s)
    -- `OP_COMPARE` and `OP_SUB` are one case
    | _ => some (.number (a.sub b), s)
  | _, _ => (pushOpResultValue W M opcode left right s).map fun r => (r.1.1, r.2)

/-- The instruction of a binary operator: the value it stores. -/
def execute (op : BinaryOperator) (left right : Operand) (s : σ) : Option (Value × σ) :=
  let (opcode, inverse) := op.opcode
  match opcode with
  | .logicPtrEq => some (.bool (xor (isEqualExactly left.value right.value) inverse), s)
  | .logicEq | .logicGe | .logicGreater => (executeLogic W M opcode inverse left right s).map fun r => (.bool r.1, r.2)
  | _ => executeArithmetic W M opcode left right s

def executeUnary (opcode : UnaryOpcode) (value : Value) (s : σ) : Value × σ :=
  match value with
  | .number x =>
    match opcode with
    | .bitNot => (.number (M.ofInt (~~~ M.toInt x)), s)
    | .plus => (.number x, s)
    | .minus => (.number x.neg, s)
  | _ => pushUnaryResultValue W M opcode value s

/-! ## OS::runOp -/

/-- The two operands are copied from the stack; the value that replaces them. -/
def runOp (op : BinaryOperator) (left right : Value) (s : σ) : Option (Value × σ) :=
  (pushOpResultValue W M op.opcode.1 left.copied right.copied s).map fun r =>
    match op with
    | .ptrNe => (.bool !r.1.1.toBool, r.2)
    | .eq | .ge | .greater => (if r.1.2 then r.1.1 else .bool false, r.2)
    | .ne | .le | .less => (if r.1.2 then .bool !r.1.1.toBool else .bool false, r.2)
    | _ => (r.1.1, r.2)

end

def noMethods : World Unit where
  room _ := 2
  callStackFuncs _ := 0
  method _ _ _ := none
  classname _ _ := ""
  callFT _ _ _ s := (.null, s)
  setException _ s := s
  numberToString _ := ""
  valueOf v s := (v, s)
  stringToNumber _ := .fin 0

def noArithmetic : Machine where
  mul _ _ := .nan
  div _ _ := .nan
  mod _ _ := .nan
  pow _ _ := .nan
  toInt _ := 0
  ofInt _ := .fin 0
  shiftLeft a _ := a
  shiftRight a _ := a

end Vm
end ObjectScript
