import Mathlib.Algebra.GroupWithZero.Nat
import Mathlib.Algebra.Ring.Int.Defs
import Mathlib.Tactic.Common
/-!
# Values

A `Core::Value` is null, a boolean, a number, or a pointer to a collected value of one of seven types.  The numbers
are the `double`s of the machine; the model takes them as a type `N` with the operations the code uses, and names
what it needs of them (`LawfulNumber`).  `equalExactly` is the key comparison `OS_EQUAL_EXACTLY`: types first, then
numbers as numbers (so that NaN is no key's equal) and everything collected by its address.
-/
namespace ObjectScript
namespace Core

/-- The types from `OS_VALUE_TYPE_STRING`, the least collected one, upwards. -/
inductive GCType where
  | string | array | object | userdata | userptr | function | cfunction
deriving DecidableEq, Repr

abbrev Ref := Nat

inductive Value (N : Type*) where
  | null
  | bool (boolean : Bool)
  | number (x : N)
  | gc (type : GCType) (value : Ref)
deriving DecidableEq, Repr

/-- The operations on `OS_NUMBER`. -/
class Number (N : Type*) where
  /-- `==` -/
  equal : N → N → Bool
  /-- `<=` -/
  lessEqual : N → N → Bool
  /-- An `OS_INT` where a number is wanted. -/
  ofInt : Int → N
  /-- `(OS_INT)x` -/
  toInt : N → Int

/-- `==` is symmetric and transitive on numbers (NaN keeps it from being reflexive), and an `int` is a number that
no other `int` is. -/
class LawfulNumber (N : Type*) [Number N] : Prop where
  equal_symm : ∀ {x y : N}, Number.equal x y = true → Number.equal y x = true
  equal_trans : ∀ {x y z : N}, Number.equal x y = true → Number.equal y z = true → Number.equal x z = true
  equal_ofInt : ∀ {i j : Int}, 0 ≤ i → i < 2 ^ 31 → 0 ≤ j → j < 2 ^ 31 →
    (Number.equal (Number.ofInt i : N) (Number.ofInt j) = true ↔ i = j)

variable {N : Type*}

section

variable [Number N]

/-- `OS_EQUAL_EXACTLY` -/
def Value.equalExactly : Value N → Value N → Bool
  | null, null => true
  | bool a, bool b => a == b
  | number x, number y => Number.equal x y
  | gc s a, gc t b => s == t && a == b
  | _, _ => false

variable [LawfulNumber N]

theorem equalExactly_symm {a b : Value N} (h : a.equalExactly b = true) : b.equalExactly a = true := by
  cases a <;> cases b <;> simp only [Value.equalExactly, Bool.false_eq_true, beq_iff_eq, Bool.and_eq_true] at h ⊢
  · exact h.symm
  · exact LawfulNumber.equal_symm h
  · exact ⟨h.1.symm, h.2.symm⟩

theorem equalExactly_trans {a b c : Value N} (h : a.equalExactly b = true) (h' : b.equalExactly c = true) :
    a.equalExactly c = true := by
  cases a <;> cases b <;> simp only [Value.equalExactly, Bool.false_eq_true, beq_iff_eq, Bool.and_eq_true] at h <;>
    cases c <;> simp only [Value.equalExactly, Bool.false_eq_true, beq_iff_eq, Bool.and_eq_true] at h' ⊢
  · exact h.trans h'
  · exact LawfulNumber.equal_trans h h'
  · exact ⟨h.1.trans h'.1, h.2.trans h'.2⟩

theorem equalExactly_comm (a b : Value N) : a.equalExactly b = b.equalExactly a :=
  Bool.eq_iff_iff.2 ⟨equalExactly_symm, equalExactly_symm⟩

end

/-- `getValueHash`, read as the bits of its `int`.  It depends on addresses and on the bytes of a `float`. -/
class ValueHash (N : Type*) where
  getValueHash : Value N → Nat

class LawfulHash (N : Type*) [Number N] [ValueHash N] : Prop where
  hash_eq : ∀ {a b : Value N}, a.equalExactly b = true → ValueHash.getValueHash a = ValueHash.getValueHash b

/-! ## Integers for numbers -/

instance : Number Int where
  equal x y := x == y
  lessEqual x y := decide (x ≤ y)
  ofInt i := i
  toInt x := x

instance : LawfulNumber Int where
  equal_symm h := by
    simp only [Number.equal, beq_iff_eq] at h ⊢
    exact h.symm
  equal_trans h h' := by
    simp only [Number.equal, beq_iff_eq] at h h' ⊢
    exact h.trans h'
  equal_ofInt _ _ _ _ := by simp [Number.equal, Number.ofInt]

end Core
end ObjectScript
