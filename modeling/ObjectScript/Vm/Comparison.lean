import ObjectScript.Vm.OperatorAgreement
/-!
# Comparisons

The six comparisons are three opcodes and their inversions, and a condition inverts them once more for its jump.  For two
values that `<=>` gives a number for, each opcode tests this number (`opResult_compare`), so all six agree with it, as values
and as conditions.  With a null operand there is nothing to compare: none of the six holds, though `<=>` still orders the
two.  Where the number is NaN, `<` and `<=` hold as the inverses of `>=` and `>`, which do not.

A condition moves the opcodes of the function that runs, and finds this function where it was before the comparison.  When a
comparison method has made `call_stack_funcs` replace its buffer, that memory is freed (`executeCondition`).
-/
namespace ObjectScript
namespace Vm

variable {σ : Type} (W : World σ) (M : Machine)

/-- Whether the branch of a condition `left op right` is taken: the instruction with the `if` flag skips the jump, in the
`stack_func` from before the comparison. -/
def executeCondition (op : BinaryOperator) (left right : Operand) (s : σ) : Option (Bool × σ) :=
  let (opcode, inverse) := op.opcode
  match opcode with
  | .logicPtrEq => some (xor (isEqualExactly left.value right.value) inverse, s)
  | _ =>
    match executeLogic W M opcode inverse left right s with
    | some (res, t) => if W.callStackFuncs t = W.callStackFuncs s then some (res, t) else none
    | none => none

/-- `OP_LOGIC_BOOL` with the `if` flag, for the left operand of a logical operator and any other condition. -/
def executeBoolCondition (inverse : Bool) (v : Value) : Bool := xor v.toBool inverse

/-- What the comparisons say about the number `c` that `<=>` gives. -/
def BinaryOperator.test : BinaryOperator → Option (Number → Bool)
  | eq => some fun c => c.eq (.fin 0)
  | ne => some fun c => !c.eq (.fin 0)
  | less => some fun c => Number.gt (.fin 0) c
  | le => some fun c => Number.ge (.fin 0) c
  | greater => some fun c => c.gt (.fin 0)
  | ge => some fun c => c.ge (.fin 0)
  | _ => none

/-- The comparison `op` gives `b` and leaves `t`: as a value, as a condition when the function that runs is still where it
was, and as an operand of a logical operator. -/
def Gives (op : BinaryOperator) (left right : Operand) (s t : σ) (b : Bool) : Prop :=
  execute W M op left right s = some (.bool b, t) ∧
  (W.callStackFuncs t = W.callStackFuncs s → executeCondition W M op left right s = some (b, t)) ∧
  ∀ v u, execute W M op left right s = some (v, u) → ∀ inverse, executeBoolCondition inverse v = xor b inverse

theorem methodResult_logic {opcode : BinaryOpcode} (h : opcode.IsLogic) (left right : Value) (s : σ) :
    methodResult W opcode left right s = methodResult W .compare left right s := by
  rcases h with rfl | rfl | rfl <;> rfl

theorem opResult_null {opcode : BinaryOpcode} (h : opcode.IsLogic) {left right : Value} {s : σ}
    (hn : left = .null ∨ right = .null) : opResult W M opcode left right s = ((.bool false, false), s) := by
  have hexist : (!left.isNull && !right.isNull) = false := by
    rcases hn with rfl | rfl
    · rfl
    · exact Bool.and_false _
  have hsame := sameObject_of_null hn
  unfold opResult
  split
  · rcases h with rfl | rfl | rfl <;> simp only [pushPrimitive, hexist, Bool.false_eq_true, if_false]
  · rcases h with rfl | rfl | rfl <;> simp only [objectResult, hsame, hexist, Bool.false_eq_true, if_false]

end Vm
end ObjectScript
