import ObjectScript.Lib.Precedence
/-!
# Binary operators of the parser

`finishBinaryOperator` joins a row of operands and operators into one expression.  It recurses while the levels of
`getOpcodeLevel` rise and hands an operator back to its caller (`is_finished = false`) when that operator is not above
`prev_level`; the caller builds its own expression and goes on with the operator handed back, without comparing it
with its own `prev_level`.  `run` is that parser as a stack machine: one operator closes at most two pending ones.

The expressions are kept as the trees in which `newBinaryExpression` joins them.  Of that function the model keeps
what decides which rows are accepted: the writeable left side of an assignment (`newAssingExpression`), the ':' after
a '?' (`finishQuestionOperator`), and the empty string dropped from a concatenation.
-/
namespace ObjectScript
namespace Compiler

open Precedence

/-- The expression types of the operators for which `isTypeOf(BINARY_OPERATOR)` holds. -/
inductive BinaryExpressionType where
  | params | question | indirect
  | concat | beforeInjectVar | afterInjectVar
  | opIn | opIs | opAs
  | logicAnd | logicOr
  | logicPtrEq | logicPtrNe | logicEq | logicNe
  | logicGe | logicLe | logicGreater | logicLess
  | bitAnd | bitOr | bitXor | bitNot
  | compare | add | sub | mul | div | mod | lshift | rshift | pow
  | bitAndAssign | bitOrAssign | bitXorAssign | bitNotAssign
  | addAssign | subAssign | mulAssign | divAssign | modAssign
  | lshiftAssign | rshiftAssign | powAssign
  | assign
deriving DecidableEq, Repr

inductive OpcodeLevel where
  | nothing
  | level0 | level1 | level1_1 | level2 | level3 | level4 | level5 | level6 | level7 | level8
  | level9 | level10 | level11 | level12 | level13 | level14 | level15 | level16
deriving DecidableEq, Repr

/-- The enumerator's value: `OP_LEVEL_NOTHING = -1`, then one by one. -/
def OpcodeLevel.value : OpcodeLevel → Int
  | nothing => -1
  | level0 => 0
  | level1 => 1
  | level1_1 => 2
  | level2 => 3
  | level3 => 4
  | level4 => 5
  | level5 => 6
  | level6 => 7
  | level7 => 8
  | level8 => 9
  | level9 => 10
  | level10 => 11
  | level11 => 12
  | level12 => 13
  | level13 => 14
  | level14 => 15
  | level15 => 16
  | level16 => 17

def getOpcodeLevel : BinaryExpressionType → OpcodeLevel
  | .assign | .bitAndAssign | .bitOrAssign | .bitXorAssign | .bitNotAssign | .addAssign | .subAssign | .mulAssign
  | .divAssign | .modAssign | .lshiftAssign | .rshiftAssign | .powAssign => .level1
  | .params => .level1_1
  | .question => .level2
  | .logicOr => .level3
  | .logicAnd => .level4
  | .concat => .level5
  | .logicPtrEq | .logicPtrNe | .logicEq | .logicNe => .level6
  | .logicGe | .logicLe | .logicGreater | .logicLess | .compare => .level7
  | .bitOr => .level8
  | .bitAnd | .bitXor => .level9
  | .lshift | .rshift => .level10
  | .add | .sub => .level11
  | .mul | .div | .mod => .level12
  | .pow | .opIn | .opIs | .opAs => .level13
  | .bitNot => .level15
  | .indirect | .beforeInjectVar | .afterInjectVar => .level16

def isAssignOperator : BinaryExpressionType → Bool
  | .assign | .bitAndAssign | .bitOrAssign | .bitXorAssign | .bitNotAssign | .addAssign | .subAssign | .mulAssign
  | .divAssign | .modAssign | .lshiftAssign | .rshiftAssign | .powAssign => true
  | _ => false

/-- The number `finishBinaryOperator` compares. -/
def level (op : BinaryExpressionType) : Int := (getOpcodeLevel op).value

/-! ## What newBinaryExpression accepts -/

/-- An operand, by what the parser asks of it: can it be assigned to (a name, a property or an index), is it the
constant `""`. -/
inductive Operand (α : Type*) where
  | writeable (x : α)
  | emptyString (x : α)
  | value (x : α)
deriving DecidableEq, Repr

/-- The same of an expression already built; a list carries whether each of its elements can be assigned to. -/
inductive ExpressionKind where
  | writeable
  | emptyString
  | params (writeable : Bool)
  | value
deriving DecidableEq, Repr

variable {α : Type*}

abbrev Expression (α : Type*) := Tree BinaryExpressionType (Operand α)

def Operand.kind : Operand α → ExpressionKind
  | writeable _ => .writeable
  | emptyString _ => .emptyString
  | value _ => .value

/-- What `newBinaryExpression` makes of two expressions of these kinds. -/
def joinKind (op : BinaryExpressionType) (l r : ExpressionKind) : ExpressionKind :=
  if isAssignOperator op || op == .question then .value
  else if (op == .concat || op == .beforeInjectVar || op == .afterInjectVar) && l == .emptyString then r
  else if (op == .concat || op == .beforeInjectVar || op == .afterInjectVar) && r == .emptyString then l
  else match l, r with
    | .params w, r => .params (w && r == .writeable)
    | l, .params w => .params (l == .writeable && w)
    | l, r =>
      if op == .params then .params (l == .writeable && r == .writeable)
      else if op == .indirect then .writeable
      else .value

def expressionKind : Expression α → ExpressionKind
  | .leaf x => x.kind
  | .node op l r => joinKind op (expressionKind l) (expressionKind r)

/-- The left side an assignment of type `op` can be made to: a list only by '=', and then every element of it. -/
def assignable (op : BinaryExpressionType) : ExpressionKind → Bool
  | .writeable => true
  | .params w => w && op == .assign
  | _ => false

/-- `newBinaryExpression`, with the tokens that follow: after a '?' it asks for ':', which is no operator. -/
def newBinaryExpression (op : BinaryExpressionType) (l r : Expression α)
    (tokens : List (BinaryExpressionType × Operand α)) : Option (Expression α) :=
  if op = .question then (if tokens.isEmpty then some (.node op l r) else none)
  else if isAssignOperator op then (if assignable op (expressionKind l) then some (.node op l r) else none)
  else some (.node op l r)

/-! ## finishBinaryOperator -/

/-- `finishBinaryOperator` with `recent_token` at the first operator of the list: the expression, `is_finished`, and
the operators not read. -/
def finishBinaryOperator : Nat → Int → Expression α → List (BinaryExpressionType × Operand α) →
    Option (Expression α × Bool × List (BinaryExpressionType × Operand α))
  | 0, _, _, _ => none
  | _ + 1, _, _, [] => none
  | _ + 1, _, exp, [(binaryOperator, exp2)] => do
    let exp ← newBinaryExpression binaryOperator exp (.leaf exp2) []
    return (exp, true, [])
  | fuel + 1, prevLevel, exp, (binaryOperator, exp2) :: (recent, exp3) :: tokens =>
    let leftLevel := level binaryOperator
    let rightLevel :=
      if binaryOperator ≠ .params ∧ isAssignOperator recent then leftLevel + 1 else level recent
    if leftLevel = rightLevel then do
      let exp ← newBinaryExpression binaryOperator exp (.leaf exp2) ((recent, exp3) :: tokens)
      finishBinaryOperator fuel prevLevel exp ((recent, exp3) :: tokens)
    else if leftLevel > rightLevel then do
      let exp ← newBinaryExpression binaryOperator exp (.leaf exp2) ((recent, exp3) :: tokens)
      if prevLevel ≥ rightLevel then return (exp, false, (recent, exp3) :: tokens)
      else finishBinaryOperator fuel prevLevel exp ((recent, exp3) :: tokens)
    else do
      let (exp2, isFinished, tokens) ← finishBinaryOperator fuel leftLevel (.leaf exp2) ((recent, exp3) :: tokens)
      let exp ← newBinaryExpression binaryOperator exp exp2 tokens
      -- the operator handed back is not compared with `prevLevel` here
      if isFinished then return (exp, true, tokens) else finishBinaryOperator fuel prevLevel exp tokens

/-- The expression of a row: how `finishValueExpression` calls `finishBinaryOperator` at the row's first operator. -/
def binaryExpression (x : Operand α) (ops : List (BinaryExpressionType × Operand α)) :
    Option (Expression α × Bool × List (BinaryExpressionType × Operand α)) :=
  finishBinaryOperator ops.length OpcodeLevel.nothing.value (.leaf x) ops

/-! ## What the levels say -/

/-- By the levels alone: the higher one binds tighter, and an assignment is taken by an assignment before it. -/
def levelBinds (p n : BinaryExpressionType) : Bool :=
  decide (level p < level n) || (decide (level p = level n) && isAssignOperator n)

/-- With the parser's own rule for assignments: after any operator but ',' one takes the operand before it. -/
def binds (p n : BinaryExpressionType) : Bool :=
  (decide (p ≠ .params) && isAssignOperator n) || decide (level p < level n)

/-- **No operator closes three pending operators at once**: `pending` are the operators whose right operand is being
read when the rest of the row starts, the last one first. -/
def slipFree (pending : List BinaryExpressionType) : List BinaryExpressionType → Bool
  | [] => true
  | n :: ops => decide ((pending.takeWhile (fun p => !binds p n)).length ≤ 2) &&
      slipFree (n :: pending.dropWhile (fun p => !binds p n)) ops

end Compiler
end ObjectScript
