import ObjectScript.Vm.OperatorAgreement
/-!
# Simplification of expressions

`newBinaryExpression` computes an operator of two constants while the program is compiled, and drops an empty string from a
concatenation; a unary operator of a constant is computed by the parser.  What the machine would do is `run`: the operands
from left to right, each of which may raise an exception, then the operator (`Vm.operate`, which its instruction computes by
`Vm.execute_cases`).  Simplifying leaves `run` as it is but in two places: a unary operator makes a number of the constant
null, and an operand that the empty string is dropped from is no longer made a string (`newBinaryExpression_run`,
`unaryExpression_run`).
-/
namespace ObjectScript
namespace Compiler
namespace Folding

open Vm (Value Number OSInt World Machine UnaryOpcode BinaryOpcode BinaryOperator)

inductive BinaryType where
  | concat | beforeInjectVar | afterInjectVar
  | operator (op : BinaryOperator)
deriving DecidableEq, Repr

inductive Expression where
  | constNull
  | constTrue
  | constFalse
  | constNumber (x : Number)
  | constString (s : String)
  /-- Any other expression with one value. -/
  | other (n : Nat)
  | unary (op : UnaryOpcode) (e : Expression)
  | binary (type : BinaryType) (left right : Expression)
deriving DecidableEq, Repr

namespace Expression

def isConstValue : Expression → Bool
  | constNull | constTrue | constFalse | constNumber _ | constString _ => true
  | _ => false

def isEmptyString : Expression → Bool
  | constString s => s.isEmpty
  | _ => false

def isStringOrNull : Expression → Bool
  | constString _ | constNull => true
  | _ => false

section

variable {σ : Type} (W : World σ) (M : Machine)

def toNumber : Expression → Number
  | constNull => .fin 0
  | constString s => W.stringToNumber s
  | constNumber x => x
  | constTrue => .one
  | constFalse => .fin 0
  | _ => .fin 0

def toInt (e : Expression) : OSInt := M.toInt (toNumber W e)

def toString : Expression → String
  | constNull => "null"
  | constString s => s
  | constNumber x => W.numberToString x
  | constTrue => "true"
  | constFalse => "false"
  | _ => ""

end

end Expression

open Expression

def BinaryType.isConcat : BinaryType → Bool
  | concat | beforeInjectVar | afterInjectVar => true
  | operator _ => false

section

variable {σ : Type} (W : World σ) (M : Machine)

/-- The arithmetic of two constants; division by zero is left for the machine to raise its exception. -/
def foldOperator (op : BinaryOperator) (left right : Expression) : Option Expression :=
  match op with
  | .bitAnd => some (.constNumber (M.ofInt (toInt W M left &&& toInt W M right)))
  | .bitOr => some (.constNumber (M.ofInt (toInt W M left ||| toInt W M right)))
  | .bitXor => some (.constNumber (M.ofInt (toInt W M left ^^^ toInt W M right)))
  | .add => some (.constNumber ((toNumber W left).add (toNumber W right)))
  | .sub => some (.constNumber ((toNumber W left).sub (toNumber W right)))
  | .mul => some (.constNumber (M.mul (toNumber W left) (toNumber W right)))
  | .div => if (toNumber W right).isZero then none else some (.constNumber (M.div (toNumber W left) (toNumber W right)))
  | .mod => if (toNumber W right).isZero then none else some (.constNumber (M.mod (toNumber W left) (toNumber W right)))
  | .lshift => some (.constNumber (M.ofInt (M.shiftLeft (toInt W M left) (toInt W M right))))
  | .rshift => some (.constNumber (M.ofInt (M.shiftRight (toInt W M left) (toInt W M right))))
  | .pow => some (.constNumber (M.pow (toNumber W left) (toNumber W right)))
  | _ => none

def foldConst (type : BinaryType) (left right : Expression) : Option Expression :=
  if left.isConstValue && right.isConstValue then
    match type with
    | .concat | .beforeInjectVar | .afterInjectVar => some (.constString (toString W left ++ toString W right))
    | .operator op => if !left.isStringOrNull && !right.isStringOrNull then foldOperator W M op left right else none
  else none

/-- The operand that is left when an empty string is dropped. -/
def dropEmptyString (type : BinaryType) (left right : Expression) : Option Expression :=
  if type.isConcat then
    if left.isEmptyString then some right
    else if right.isEmptyString then some left
    else none
  else none

def newBinaryExpression (type : BinaryType) (left right : Expression) : Expression :=
  match foldConst W M type left right with
  | some e => e
  | none =>
    match dropEmptyString type left right with
    | some e => e
    | none => .binary type left right

/-- The unary operators in `expectSingleExpression`. -/
def unaryExpression (op : UnaryOpcode) (e : Expression) : Expression :=
  match e with
  | .constNumber _ | .constNull | .constTrue | .constFalse =>
    match op with
    | .plus => .constNumber (toNumber W e)
    | .minus => .constNumber (toNumber W e).neg
    | .bitNot => .constNumber (M.ofInt (~~~ toInt W M e))
  | _ => .unary op e

/-! ## The machine -/

/-- `valueToString` with `valueof_enabled` off. -/
def plainToString : Value → String
  | .null => "null"
  | .bool true => "true"
  | .bool false => "false"
  | .number x => W.numberToString x
  | .string s => s
  | .object _ => ""

def valueToString (v : Value) (s : σ) : String × σ :=
  match v with
  | .object _ =>
    let (u, s) := W.valueOf v s
    (plainToString W u, s)
  | _ => (plainToString W v, s)

/-- The function `concat` of the core library, which the operators of concatenation call. -/
def concat (left right : Value) (s : σ) : Value × σ :=
  let (a, s) := valueToString W left s
  let (b, s) := valueToString W right s
  (.string (a ++ b), s)

def executeBinary (type : BinaryType) (left right : Value) (s : σ) : Value × σ :=
  match type with
  | .concat | .beforeInjectVar | .afterInjectVar => concat W left right s
  | .operator op => Vm.operate W M op left right s

variable (raised : σ → Bool) (value : Nat → σ → Value × σ)

/-- An instruction leaves no value when it raises an exception. -/
def settle : Value × σ → Option Value × σ
  | (v, s) => if raised s then (none, s) else (some v, s)

/-- What an expression evaluates to without any simplification; `value` is what the other expressions do. -/
def run : Expression → σ → Option Value × σ
  | .constNull, s => (some .null, s)
  | .constTrue, s => (some (.bool true), s)
  | .constFalse, s => (some (.bool false), s)
  | .constNumber x, s => (some (.number x), s)
  | .constString t, s => (some (.string t), s)
  | .other n, s => settle raised (value n s)
  | .unary op e, s =>
    match run e s with
    | (some v, s) => settle raised (Vm.executeUnary W M op v s)
    | (none, s) => (none, s)
  | .binary type left right, s =>
    match run left s with
    | (some a, s) =>
      match run right s with
      | (some b, s) => settle raised (executeBinary W M type a b s)
      | (none, s) => (none, s)
    | (none, s) => (none, s)

/-! ## Constants -/

def constValue : Expression → Option Value
  | .constNull => some .null
  | .constTrue => some (.bool true)
  | .constFalse => some (.bool false)
  | .constNumber x => some (.number x)
  | .constString s => some (.string s)
  | _ => none

theorem isConstValue_iff {e : Expression} : e.isConstValue = true ↔ ∃ v, constValue e = some v := by
  cases e <;> simp [isConstValue, constValue]

theorem run_constValue {e : Expression} {v : Value} (h : constValue e = some v) (s : σ) :
    run W M raised value e s = (some v, s) := by
  cases e <;> simp only [constValue, Option.some.injEq, reduceCtorEq] at h <;> subst h <;> rfl

theorem toString_constValue {e : Expression} {v : Value} (h : constValue e = some v) (s : σ) :
    valueToString W v s = (toString W e, s) := by
  cases e <;> simp only [constValue, Option.some.injEq, reduceCtorEq] at h <;> subst h <;> rfl

/-- A constant that is neither a string nor null is primitive and there. -/
theorem toNumber_constValue {e : Expression} {v : Value} (h : constValue e = some v) (hn : e.isStringOrNull = false) :
    v.isPrimitive = true ∧ v.isNull = false ∧ v.toNumber = toNumber W e := by
  cases e <;> simp only [constValue, Option.some.injEq, reduceCtorEq] at h <;> subst h <;>
    simp_all [Value.isPrimitive, Value.isNull, Value.toNumber, toNumber, isStringOrNull]

/-- What is folded is what the machine computes, and it leaves no exception. -/
theorem foldOperator_execute {op : BinaryOperator} {left right e : Expression} {a b : Value} (ha : constValue left = some a)
    (hb : constValue right = some b) (hl : left.isStringOrNull = false) (hr : right.isStringOrNull = false)
    (h : foldOperator W M op left right = some e) (s : σ) :
    ∃ x, e = .constNumber x ∧ Vm.operate W M op a b s = (.number x, s) := by
  obtain ⟨hpa, hna, hxa⟩ := toNumber_constValue W ha hl
  obtain ⟨hpb, hnb, hxb⟩ := toNumber_constValue W hb hr
  unfold Vm.operate Vm.opResult
  cases op <;>
    simp_all [foldOperator, BinaryOperator.opcode, Vm.pushPrimitive, Vm.bitwise, toInt]

/-! ## Running what is simplified -/

theorem settle_of_not_raised {s : σ} (h : raised s = false) (v : Value) : settle raised (v, s) = (some v, s) := by
  unfold settle
  simp only [h, Bool.false_eq_true, if_false]

theorem not_raised_of_settle {r : Value × σ} {v : Value} {t : σ} (h : settle raised r = (some v, t)) : raised t = false := by
  obtain ⟨u, s⟩ := r
  by_cases hr : raised s = true
  · simp only [settle, hr, if_true, Prod.mk.injEq, reduceCtorEq, false_and] at h
  · have hs := Bool.eq_false_iff.2 hr
    rw [settle_of_not_raised raised hs] at h
    cases h
    exact hs

theorem not_raised_of_run {e : Expression} {s t : σ} {v : Value} (hs : raised s = false)
    (h : run W M raised value e s = (some v, t)) : raised t = false := by
  cases e with
  | other n => exact not_raised_of_settle raised h
  | unary op e =>
    unfold run at h
    split at h
    · exact not_raised_of_settle raised h
    · cases h
  | binary type left right =>
    unfold run at h
    split at h
    · split at h
      · exact not_raised_of_settle raised h
      · cases h
    · cases h
  | _ => cases h; exact hs

theorem run_binary_of_const {left right : Expression} {a b : Value} (ha : constValue left = some a)
    (hb : constValue right = some b) (type : BinaryType) (s : σ) :
    run W M raised value (.binary type left right) s = settle raised (executeBinary W M type a b s) := by
  unfold run
  rw [run_constValue W M raised value ha]
  simp only [run_constValue W M raised value hb]

theorem executeBinary_concat {type : BinaryType} (h : type.isConcat = true) (left right : Value) (s : σ) :
    executeBinary W M type left right s = concat W left right s := by
  cases type <;> first | rfl | cases h

/-- **A folded constant is what the machine computes.** -/
theorem foldConst_run {type : BinaryType} {left right e : Expression} {s : σ} (hs : raised s = false)
    (h : foldConst W M type left right = some e) :
    run W M raised value e s = run W M raised value (.binary type left right) s := by
  unfold foldConst at h
  split at h
  · rename_i hc
    obtain ⟨hl, hr⟩ := Bool.and_eq_true_iff.1 hc
    obtain ⟨a, ha⟩ := isConstValue_iff.1 hl
    obtain ⟨b, hb⟩ := isConstValue_iff.1 hr
    have hconcat : ∀ t, concat W a b t = (.string (toString W left ++ toString W right), t) := by
      intro t
      unfold concat
      rw [toString_constValue W ha]
      simp only [toString_constValue W hb]
    rw [run_binary_of_const W M raised value ha hb]
    split at h
    case h_4 op =>
      split at h
      · rename_i hn
        obtain ⟨hnl, hnr⟩ := Bool.and_eq_true_iff.1 hn
        obtain ⟨x, rfl, hx⟩ := foldOperator_execute W M ha hb (by simpa using hnl) (by simpa using hnr) h s
        have hexec : executeBinary W M (.operator op) a b s = (.number x, s) := hx
        rw [hexec, settle_of_not_raised raised hs]
        rfl
      · cases h
    all_goals
      cases h
      rw [executeBinary_concat W M rfl, hconcat, settle_of_not_raised raised hs]
      rfl
  · cases h

theorem concat_empty_left (v : Value) (s : σ) :
    concat W (.string "") v s = (.string (valueToString W v s).1, (valueToString W v s).2) := by
  simp only [concat, valueToString, plainToString, String.empty_append]

theorem concat_empty_right (v : Value) (s : σ) :
    concat W v (.string "") s = (.string (valueToString W v s).1, (valueToString W v s).2) := by
  simp only [concat, valueToString, plainToString, String.append_empty]

theorem isEmptyString_iff {e : Expression} : e.isEmptyString = true ↔ e = .constString "" := by
  cases e <;> simp [isEmptyString, String.isEmpty_iff]

/-- With an empty string beside it, an operand is made a string. -/
theorem dropEmptyString_run {type : BinaryType} {left right e : Expression} {s : σ}
    (h : dropEmptyString type left right = some e) :
    run W M raised value (.binary type left right) s =
      match run W M raised value e s with
      | (some v, t) => settle raised (.string (valueToString W v t).1, (valueToString W v t).2)
      | (none, t) => (none, t) := by
  unfold dropEmptyString at h
  split at h
  · rename_i htype
    split at h
    · rename_i hempty
      cases h
      obtain rfl := isEmptyString_iff.1 hempty
      simp only [run, executeBinary_concat W M htype, concat_empty_left]
    · split at h
      · rename_i hempty
        cases h
        obtain rfl := isEmptyString_iff.1 hempty
        simp only [run, executeBinary_concat W M htype, concat_empty_right]
      · cases h
  · cases h

/-- The operand whose value goes on as it is, since the empty string beside it is dropped. -/
def dropped (type : BinaryType) (left right : Expression) : Option Expression :=
  if left.isConstValue && right.isConstValue then none else dropEmptyString type left right

/-- The value of the operand is a string, when it has one. -/
def IsString (e : Expression) (s : σ) : Prop :=
  ∀ v t, run W M raised value e s = (some v, t) → ∃ str, v = .string str

/-- **Dropping an empty string** keeps the value exactly for strings, and then all that happens. -/
theorem run_dropped {type : BinaryType} {left right e : Expression} {s : σ} (hs : raised s = false)
    (h : dropEmptyString type left right = some e) :
    ((run W M raised value e s).1 = (run W M raised value (.binary type left right) s).1 ↔ IsString W M raised value e s) ∧
      (IsString W M raised value e s → run W M raised value e s = run W M raised value (.binary type left right) s) := by
  have hkeep : IsString W M raised value e s →
      run W M raised value e s = run W M raised value (.binary type left right) s := by
    intro hstr
    rw [dropEmptyString_run W M raised value h]
    rcases hr : run W M raised value e s with ⟨_ | v, t⟩
    · rfl
    · obtain ⟨str, rfl⟩ := hstr v t hr
      exact (settle_of_not_raised raised (not_raised_of_run W M raised value hs hr) (.string str)).symm
  refine ⟨⟨fun heq v t hr => ?_, fun hstr => congrArg Prod.fst (hkeep hstr)⟩, hkeep⟩
  rw [dropEmptyString_run W M raised value h, hr] at heq
  simp only [settle] at heq
  split at heq
  · cases heq
  · exact ⟨_, Option.some.inj heq⟩

/-! ## The two simplifications -/

theorem newBinaryExpression_run (type : BinaryType) (left right : Expression) {s : σ} (hs : raised s = false) :
    ((run W M raised value (newBinaryExpression W M type left right) s).1 =
        (run W M raised value (.binary type left right) s).1 ↔
      ∀ e, dropped type left right = some e → IsString W M raised value e s) ∧
    ((∀ e, dropped type left right = some e → IsString W M raised value e s) →
      run W M raised value (newBinaryExpression W M type left right) s =
        run W M raised value (.binary type left right) s) := by
  unfold newBinaryExpression
  split
  · rename_i e hfold
    have hrun := foldConst_run W M raised value hs hfold
    have hdrop : dropped type left right = none := by
      unfold foldConst at hfold
      unfold dropped
      split at hfold
      · rename_i hc
        rw [if_pos hc]
      · cases hfold
    simp only [hrun, hdrop, reduceCtorEq, false_implies, implies_true, and_self]
  · rename_i hfold
    have hdrop : dropped type left right = dropEmptyString type left right := by
      unfold dropped
      split
      · rename_i hc
        unfold foldConst at hfold
        rw [if_pos hc] at hfold
        cases type with
        | operator op => rfl
        | _ => cases hfold
      · rfl
    rw [hdrop]
    split
    · rename_i e hd
      simp only [hd, Option.some.injEq, forall_eq']
      exact run_dropped W M raised value hs hd
    · rename_i hd
      simp only [hd, reduceCtorEq, false_implies, implies_true, and_self]

theorem unaryExpression_run (op : UnaryOpcode) (e : Expression) {s : σ} (hs : raised s = false) :
    ((run W M raised value (unaryExpression W M op e) s).1 = (run W M raised value (.unary op e) s).1 ↔ e ≠ .constNull) ∧
    (e ≠ .constNull → run W M raised value (unaryExpression W M op e) s = run W M raised value (.unary op e) s) := by
  have hsettle := settle_of_not_raised raised hs
  cases e with
  | constNull =>
    refine ⟨⟨fun h => ?_, fun h => absurd rfl h⟩, fun h => absurd rfl h⟩
    cases op <;> simp [unaryExpression, run, Vm.executeUnary, Vm.pushUnaryResultValue, hsettle] at h
  | constNumber x =>
    cases op <;> simp [unaryExpression, run, Vm.executeUnary, hsettle, toInt, toNumber]
  | constTrue =>
    cases op <;>
      simp [unaryExpression, run, Vm.executeUnary, Vm.pushUnaryResultValue, hsettle, toInt, toNumber, Value.toNumber]
  | constFalse =>
    cases op <;>
      simp [unaryExpression, run, Vm.executeUnary, Vm.pushUnaryResultValue, hsettle, toInt, toNumber, Value.toNumber]
  | _ => simp [unaryExpression]

/-- **When simplification preserves meaning.** -/
theorem simplification_preserves (s : σ) (hs : raised s = false) :
    (∀ type left right,
      ((run W M raised value (newBinaryExpression W M type left right) s).1 =
          (run W M raised value (.binary type left right) s).1 ↔
        ∀ e, dropped type left right = some e → IsString W M raised value e s) ∧
      ((∀ e, dropped type left right = some e → IsString W M raised value e s) →
        run W M raised value (newBinaryExpression W M type left right) s =
          run W M raised value (.binary type left right) s)) ∧
    ∀ op e,
      ((run W M raised value (unaryExpression W M op e) s).1 = (run W M raised value (.unary op e) s).1 ↔
        e ≠ .constNull) ∧
      (e ≠ .constNull → run W M raised value (unaryExpression W M op e) s = run W M raised value (.unary op e) s) :=
  ⟨fun type left right => newBinaryExpression_run W M raised value type left right hs,
    fun op e => unaryExpression_run W M raised value op e hs⟩

end

theorem sum_preserved :
    (run Vm.noMethods Vm.noArithmetic (fun _ => false) (fun _ s => (.null, s))
        (newBinaryExpression Vm.noMethods Vm.noArithmetic (.operator .add) (.constNumber (.fin 1)) .constTrue) ()).1 =
      (run Vm.noMethods Vm.noArithmetic (fun _ => false) (fun _ s => (.null, s))
        (.binary (.operator .add) (.constNumber (.fin 1)) .constTrue) ()).1 :=
  ((simplification_preserves Vm.noMethods Vm.noArithmetic (fun _ => false) (fun _ s => (.null, s)) () rfl).1
    (.operator .add) (.constNumber (.fin 1)) .constTrue).1.2 (fun _ h => nomatch h)

/-- The minus of null is a number for the compiler and null for the machine, and a number that an empty string is added to
stays a number. -/
theorem minus_null_differs :
    (run Vm.noMethods Vm.noArithmetic (fun _ => false) (fun _ s => (.number (.fin 5), s))
        (unaryExpression Vm.noMethods Vm.noArithmetic .minus .constNull) ()).1 = some (.number (.fin 0)) ∧
    (run Vm.noMethods Vm.noArithmetic (fun _ => false) (fun _ s => (.number (.fin 5), s))
        (.unary .minus .constNull) ()).1 = some .null ∧
    (run Vm.noMethods Vm.noArithmetic (fun _ => false) (fun _ s => (.number (.fin 5), s))
        (newBinaryExpression Vm.noMethods Vm.noArithmetic .concat (.constString "") (.other 0)) ()).1 =
      some (.number (.fin 5)) ∧
    (run Vm.noMethods Vm.noArithmetic (fun _ => false) (fun _ s => (.number (.fin 5), s))
        (.binary .concat (.constString "") (.other 0)) ()).1 = some (.string "") := by decide

end Folding
end Compiler
end ObjectScript
