import Mathlib.Algebra.GroupWithZero.Nat
import Mathlib.Algebra.Ring.Int.Defs
import Mathlib.Tactic.Common
/-!
# Fields of a word

A machine word that packs several numbers: `field pos size i` is the number of `size` bits from bit `pos` on, and
`setField` puts another one in its place.  A word put together with shifts and `or` is read field by field: `field_or`
splits it, and what is shifted past a field or lies below it does not touch it.
-/
namespace Field

def field (pos size i : Nat) : Nat := (i >>> pos) &&& (2 ^ size - 1)

/-- The field of `i` replaced by the low bits of `v`, in a word of `width` bits. -/
def setField (width pos size i v : Nat) : Nat :=
  (i &&& ((2 ^ width - 1) ^^^ ((2 ^ size - 1) <<< pos))) ||| ((v <<< pos) &&& ((2 ^ size - 1) <<< pos))

variable {pos size : Nat}

theorem testBit_field (i j : Nat) : (field pos size i).testBit j = (decide (j < size) && i.testBit (pos + j)) := by
  unfold field
  rw [Nat.testBit_and, Nat.testBit_shiftRight, Nat.testBit_two_pow_sub_one, Bool.and_comm]

theorem field_lt (pos size i : Nat) : field pos size i < 2 ^ size := by
  unfold field
  rw [Nat.and_two_pow_sub_one_eq_mod]
  exact Nat.mod_lt _ (Nat.two_pow_pos size)

theorem field_or (i j : Nat) : field pos size (i ||| j) = field pos size i ||| field pos size j := by
  apply Nat.eq_of_testBit_eq
  intro k
  simp only [testBit_field, Nat.testBit_or, Bool.and_or_distrib_left]

theorem field_mod {width : Nat} (h : pos + size ≤ width) (i : Nat) : field pos size (i % 2 ^ width) = field pos size i := by
  apply Nat.eq_of_testBit_eq
  intro k
  rw [testBit_field, testBit_field, Nat.testBit_mod_two_pow]
  by_cases hk : k < size
  · have hw : pos + k < width := by omega
    simp [hw]
  · simp [hk]

theorem field_shiftLeft_self {x : Nat} (h : x < 2 ^ size) : field pos size (x <<< pos) = x := by
  unfold field
  rw [Nat.shiftLeft_shiftRight, Nat.and_two_pow_sub_one_eq_mod, Nat.mod_eq_of_lt h]

theorem field_shiftLeft_above {q : Nat} (h : pos + size ≤ q) (x : Nat) : field pos size (x <<< q) = 0 := by
  apply Nat.eq_of_testBit_eq
  intro k
  rw [testBit_field, Nat.testBit_shiftLeft, Nat.zero_testBit]
  by_cases hk : k < size
  · have hq : ¬ q ≤ pos + k := by omega
    simp [hq]
  · simp [hk]

theorem field_below {x : Nat} (h : x < 2 ^ pos) : field pos size x = 0 := by
  unfold field
  rw [Nat.shiftRight_eq_div_pow, Nat.div_eq_of_lt h, Nat.zero_and]

theorem field_shiftLeft_below {x m q : Nat} (h : x < 2 ^ m) (hq : m + q ≤ pos) : field pos size (x <<< q) = 0 := by
  apply field_below
  rw [Nat.shiftLeft_eq]
  calc x * 2 ^ q < 2 ^ m * 2 ^ q := Nat.mul_lt_mul_of_pos_right h (Nat.two_pow_pos q)
    _ = 2 ^ (m + q) := (Nat.pow_add 2 m q).symm
    _ ≤ 2 ^ pos := Nat.pow_le_pow_right (by decide) hq

theorem and_flag (i : Nat) : (i &&& 1 <<< pos != 0) = (field pos 1 i != 0) := by
  have hmask : (i &&& 1 <<< pos) = field pos 1 i <<< pos := by
    apply Nat.eq_of_testBit_eq
    intro k
    rw [Nat.testBit_and, Nat.one_shiftLeft, Nat.testBit_two_pow, Nat.testBit_shiftLeft, testBit_field]
    by_cases hk : pos = k
    · subst hk
      simp
    · have h1 : (decide (pos ≤ k) && decide (k - pos < 1)) = false := by
        rw [Bool.and_eq_false_iff, decide_eq_false_iff_not, decide_eq_false_iff_not]
        omega
      rw [← Bool.and_assoc, h1]
      simp [hk]
  rw [hmask, Nat.shiftLeft_eq, Bool.eq_iff_iff]
  simp

/-- The field that is set holds the low bits of its new value. -/
theorem field_setField_self {width : Nat} (h : pos + size ≤ width) (i v : Nat) :
    field pos size (setField width pos size i v) = v % 2 ^ size := by
  apply Nat.eq_of_testBit_eq
  intro k
  unfold setField
  simp only [testBit_field, Nat.testBit_or, Nat.testBit_and, Nat.testBit_xor, Nat.testBit_shiftLeft,
    Nat.testBit_two_pow_sub_one, Nat.testBit_mod_two_pow]
  have hle : pos ≤ pos + k := by omega
  have hsub : pos + k - pos = k := by omega
  by_cases hk : k < size
  · have hw : pos + k < width := by omega
    simp [hk, hle, hsub, hw]
  · simp [hk]

theorem field_setField_other {width p n : Nat} (hd : p + n ≤ pos ∨ pos + size ≤ p) (hw : p + n ≤ width) (i v : Nat) :
    field p n (setField width pos size i v) = field p n i := by
  apply Nat.eq_of_testBit_eq
  intro k
  unfold setField
  simp only [testBit_field, Nat.testBit_or, Nat.testBit_and, Nat.testBit_xor, Nat.testBit_shiftLeft,
    Nat.testBit_two_pow_sub_one]
  by_cases hk : k < n
  · have hwidth : p + k < width := by omega
    have hout : (decide (pos ≤ p + k) && decide (p + k - pos < size)) = false := by
      rw [Bool.and_eq_false_iff, decide_eq_false_iff_not, decide_eq_false_iff_not]
      omega
    simp only [hk, hwidth, hout, decide_true, Bool.true_and, Bool.xor_false, Bool.and_true, Bool.and_false, Bool.or_false]
  · simp [hk]

end Field
