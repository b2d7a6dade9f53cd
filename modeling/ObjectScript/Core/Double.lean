import Mathlib.Data.Nat.Log
import ObjectScript.Lib.LittleEndian
/-!
# Doubles bit for bit

An `OS_NUMBER` as its sign, exponent and fraction, and the narrower types it is written as: an `int`, where `(int)val` is
the number itself, and a `float`, where `(float)val` is.  Both come back as they went, but a zero has no sign in an `int`
(`ofInt_toInt`, `widen_toFloat`).

`ofBits` and `toBits` are inverse to each other, and so are the conversions where they are exact.  Rounding is left to
the module about numbers.
-/
namespace ObjectScript
namespace Core

@[ext]
structure Double where
  sign : Bool
  exponent : Nat
  fraction : Nat
  exponent_lt : exponent < 2 ^ 11
  fraction_lt : fraction < 2 ^ 52
deriving DecidableEq, Repr

@[ext]
structure Single where
  sign : Bool
  exponent : Nat
  fraction : Nat
  exponent_lt : exponent < 2 ^ 8
  fraction_lt : fraction < 2 ^ 23
deriving DecidableEq, Repr

/-- The fraction of `n` with its highest bit in front of the point. -/
theorem fraction_lt_of_log2 {n : Nat} (h : n.log2 ≤ 52) : (n - 2 ^ n.log2) * 2 ^ (52 - n.log2) < 2 ^ 52 := by
  have hlt : n < 2 ^ (n.log2 + 1) := Nat.lt_log2_self
  have hsub : n - 2 ^ n.log2 < 2 ^ n.log2 := by
    have hpos := Nat.two_pow_pos n.log2
    rw [Nat.pow_succ] at hlt
    omega
  have hpow : 2 ^ n.log2 * 2 ^ (52 - n.log2) = 2 ^ 52 := by
    rw [← Nat.pow_add, Nat.add_sub_cancel' h]
  rw [← hpow]
  exact Nat.mul_lt_mul_of_pos_right hsub (Nat.two_pow_pos _)

theorem log2_two_pow_add {k q : Nat} (h : q < 2 ^ k) : (2 ^ k + q).log2 = k := by
  have hpos := Nat.two_pow_pos k
  rw [Nat.log2_eq_iff (by omega), Nat.pow_succ]
  omega

/-- A significand that ends in `s` zeros, without them. -/
theorem significand_shift {k s f : Nat} (hks : k + s = 52) (hf : f < 2 ^ 52) (hm : f % 2 ^ s = 0) :
    ∃ q < 2 ^ k, f = q * 2 ^ s ∧ (2 ^ 52 + f) / 2 ^ s = 2 ^ k + q := by
  have hpow : 2 ^ 52 = 2 ^ k * 2 ^ s := by rw [← Nat.pow_add, hks]
  have hdiv : f = f / 2 ^ s * 2 ^ s := by
    have h := Nat.div_add_mod' f (2 ^ s)
    rw [hm] at h
    exact h.symm
  refine ⟨f / 2 ^ s, ?_, hdiv, ?_⟩
  · rw [Nat.div_lt_iff_lt_mul (Nat.two_pow_pos s), ← hpow]
    exact hf
  · rw [hpow, Nat.add_comm, Nat.add_mul_div_right _ _ (Nat.two_pow_pos s), Nat.add_comm]

namespace Double

def zero (sign : Bool) : Double := ⟨sign, 0, 0, by decide, by decide⟩

def negZero : Double := zero true

def isNaN (d : Double) : Bool := d.exponent == 2047 && d.fraction != 0

def isQuietNaN (d : Double) : Bool := d.exponent == 2047 && d.fraction / 2 ^ 51 == 1

/-- `val >= 0` -/
def nonneg (d : Double) : Bool := !d.isNaN && (!d.sign || d.exponent == 0 && d.fraction == 0)

def toBits (d : Double) : Nat := (d.sign.toNat * 2 ^ 11 + d.exponent) * 2 ^ 52 + d.fraction

def ofBits (n : Nat) : Double where
  sign := n / 2 ^ 63 % 2 == 1
  exponent := n / 2 ^ 52 % 2 ^ 11
  fraction := n % 2 ^ 52
  exponent_lt := Nat.mod_lt _ (by decide)
  fraction_lt := Nat.mod_lt _ (by decide)

/-- An `int` that is not negative as a number. -/
def ofInt (n : Nat) : Double :=
  if h : 0 < n ∧ n < 2 ^ 31 then
    { sign := false
      exponent := n.log2 + 1023
      fraction := (n - 2 ^ n.log2) * 2 ^ (52 - n.log2)
      exponent_lt := by
        have hlog : n.log2 < 31 := (Nat.log2_lt (Nat.ne_of_gt h.1)).2 h.2
        omega
      fraction_lt := by
        have hlog : n.log2 < 31 := (Nat.log2_lt (Nat.ne_of_gt h.1)).2 h.2
        exact fraction_lt_of_log2 (by omega) }
  else zero false

/-- `(int)val` of a number that is not negative, if it is `val` itself. -/
def toInt? (d : Double) : Option Nat :=
  if d.exponent = 0 ∧ d.fraction = 0 then some 0
  else if 1023 ≤ d.exponent ∧ d.exponent < 1023 + 31 then
    let shift := 52 - (d.exponent - 1023)
    if d.fraction % 2 ^ shift = 0 then some ((2 ^ 52 + d.fraction) / 2 ^ shift) else none
  else none

/-- `(float)val`, if it is `val` itself. -/
def toFloat? (d : Double) : Option Single :=
  if hinf : d.exponent = 2047 then
    if d.fraction = 0 then some ⟨d.sign, 255, 0, by decide, by decide⟩ else none
  else if d.exponent = 0 then
    if d.fraction = 0 then some ⟨d.sign, 0, 0, by decide, by decide⟩ else none
  else if hnormal : 897 ≤ d.exponent ∧ d.exponent ≤ 1150 then
    if d.fraction % 2 ^ 29 = 0 then
      some ⟨d.sign, d.exponent - 896, d.fraction / 2 ^ 29, by omega,
        (Nat.div_lt_iff_lt_mul (by decide)).2 d.fraction_lt⟩
    else none
  -- a number below the least normal float
  else if hsub : 874 ≤ d.exponent ∧ d.exponent ≤ 896 then
    if d.fraction % 2 ^ (926 - d.exponent) = 0 then
      some ⟨d.sign, 0, (2 ^ 52 + d.fraction) / 2 ^ (926 - d.exponent), by decide, by
        have hpow : 2 ^ 53 ≤ 2 ^ 23 * 2 ^ (926 - d.exponent) := by
          rw [← Nat.pow_add]
          exact Nat.pow_le_pow_right (by decide) (by omega)
        have hlt := d.fraction_lt
        exact (Nat.div_lt_iff_lt_mul (Nat.two_pow_pos _)).2 (by omega)⟩
    else none
  else none

end Double

namespace Single

def toBits (f : Single) : Nat := (f.sign.toNat * 2 ^ 8 + f.exponent) * 2 ^ 23 + f.fraction

def ofBits (n : Nat) : Single where
  sign := n / 2 ^ 31 % 2 == 1
  exponent := n / 2 ^ 23 % 2 ^ 8
  fraction := n % 2 ^ 23
  exponent_lt := Nat.mod_lt _ (by decide)
  fraction_lt := Nat.mod_lt _ (by decide)

def widen (f : Single) : Double :=
  if f.exponent = 255 then
    if f.fraction = 0 then ⟨f.sign, 2047, 0, by decide, by decide⟩
    else ⟨f.sign, 2047, 2 ^ 51 + f.fraction % 2 ^ 22 * 2 ^ 29, by decide, by omega⟩
  else if f.exponent = 0 then
    if hzero : f.fraction = 0 then Double.zero f.sign
    else
      { sign := f.sign
        exponent := f.fraction.log2 + 874
        fraction := (f.fraction - 2 ^ f.fraction.log2) * 2 ^ (52 - f.fraction.log2)
        exponent_lt := by
          have hlog : f.fraction.log2 < 23 := (Nat.log2_lt hzero).2 f.fraction_lt
          omega
        fraction_lt := by
          have hlog : f.fraction.log2 < 23 := (Nat.log2_lt hzero).2 f.fraction_lt
          exact fraction_lt_of_log2 (by omega) }
  else ⟨f.sign, f.exponent + 896, f.fraction * 2 ^ 29, by have := f.exponent_lt; omega, by
    have := f.fraction_lt
    omega⟩

theorem ofBits_toBits (f : Single) : ofBits f.toBits = f := by
  rcases f with ⟨sign, exponent, fraction, he, hf⟩
  unfold ofBits toBits
  cases sign <;> simp only [Bool.toNat_false, Bool.toNat_true, mk.injEq] <;>
    refine ⟨?_, by omega, by omega⟩
  · rw [beq_eq_false_iff_ne]
    omega
  · rw [beq_iff_eq]
    omega

theorem toBits_lt (f : Single) : f.toBits < 256 ^ 4 := by
  have he := f.exponent_lt
  have hf := f.fraction_lt
  have hs := f.sign.toNat_le
  unfold toBits
  omega

end Single

namespace Double

theorem ofBits_toBits (d : Double) : ofBits d.toBits = d := by
  rcases d with ⟨sign, exponent, fraction, he, hf⟩
  unfold ofBits toBits
  cases sign <;> simp only [Bool.toNat_false, Bool.toNat_true, mk.injEq] <;>
    refine ⟨?_, by omega, by omega⟩
  · rw [beq_eq_false_iff_ne]
    omega
  · rw [beq_iff_eq]
    omega

theorem toBits_lt (d : Double) : d.toBits < 256 ^ 8 := by
  have he := d.exponent_lt
  have hf := d.fraction_lt
  have hs := d.sign.toNat_le
  unfold toBits
  omega

theorem toInt_lt {d : Double} {n : Nat} (h : d.toInt? = some n) : n < 2 ^ 31 := by
  unfold toInt? at h
  split at h
  · cases h
    decide
  · split at h
    · rename_i he
      dsimp only at h
      split at h
      · rename_i hm
        obtain ⟨q, hq, -, hval⟩ := significand_shift (k := d.exponent - 1023) (by omega) d.fraction_lt hm
        cases h
        have hpow : 2 ^ (d.exponent - 1023) ≤ 2 ^ 30 := Nat.pow_le_pow_right (by decide) (by omega)
        omega
      · cases h
    · cases h

/-- An `int` comes back as the number it was made of, but for the sign of a zero. -/
theorem ofInt_toInt {d : Double} {n : Nat} (h : d.toInt? = some n) (hpos : d.nonneg = true) :
    ofInt n = if d = negZero then zero false else d := by
  have hlt := toInt_lt h
  unfold toInt? at h
  split at h
  · rename_i hzero
    cases h
    have hd : d = zero d.sign := Double.ext rfl hzero.1 hzero.2
    rw [hd]
    cases d.sign <;> rfl
  · rename_i hzero
    have hsign : d.sign = false := by
      unfold nonneg at hpos
      rw [Bool.and_eq_true, Bool.or_eq_true, Bool.and_eq_true, beq_iff_eq, beq_iff_eq, Bool.not_eq_true',
        Bool.not_eq_true'] at hpos
      exact hpos.2.resolve_right hzero
    have hne : d ≠ negZero := by
      intro heq
      rw [heq] at hsign
      cases hsign
    split at h
    · rename_i he
      dsimp only at h
      split at h
      · rename_i hm
        obtain ⟨q, hq, hfrac, hval⟩ := significand_shift (k := d.exponent - 1023) (by omega) d.fraction_lt hm
        have hn : n = 2 ^ (d.exponent - 1023) + q := by
          cases h
          exact hval
        have hlog : n.log2 = d.exponent - 1023 := by rw [hn, log2_two_pow_add hq]
        have hnpos : 0 < n ∧ n < 2 ^ 31 := ⟨by have := Nat.two_pow_pos (d.exponent - 1023); omega, hlt⟩
        rw [if_neg hne, ofInt, dif_pos hnpos]
        refine Double.ext hsign.symm ?_ ?_
        · show n.log2 + 1023 = d.exponent
          omega
        · show (n - 2 ^ n.log2) * 2 ^ (52 - n.log2) = d.fraction
          rw [hlog, hn, Nat.add_sub_cancel_left]
          exact hfrac.symm
      · cases h
    · cases h

/-- A float comes back as the number it was made of. -/
theorem widen_toFloat {d : Double} {f : Single} (h : d.toFloat? = some f) : f.widen = d := by
  unfold toFloat? at h
  split at h
  · rename_i hinf
    split at h
    · rename_i hz
      cases h
      exact Double.ext rfl hinf.symm hz.symm
    · cases h
  · split at h
    · rename_i hz
      split at h
      · rename_i hz'
        cases h
        exact Double.ext rfl hz.symm hz'.symm
      · cases h
    · split at h
      · rename_i hnormal
        split at h
        · rename_i hm
          cases h
          unfold Single.widen
          rw [if_neg (show ¬ d.exponent - 896 = 255 by omega), if_neg (show ¬ d.exponent - 896 = 0 by omega)]
          refine Double.ext rfl ?_ ?_
          · show d.exponent - 896 + 896 = d.exponent
            omega
          · show d.fraction / 2 ^ 29 * 2 ^ 29 = d.fraction
            omega
        · cases h
      · split at h
        · rename_i hsub
          split at h
          · rename_i hm
            obtain ⟨q, hq, hfrac, hval⟩ := significand_shift (k := d.exponent - 874) (by omega) d.fraction_lt hm
            have hlog : ((2 ^ 52 + d.fraction) / 2 ^ (926 - d.exponent)).log2 = d.exponent - 874 := by
              rw [hval, log2_two_pow_add hq]
            have hne : ¬ (2 ^ 52 + d.fraction) / 2 ^ (926 - d.exponent) = 0 := by
              have hpos := Nat.two_pow_pos (d.exponent - 874)
              rw [hval]
              omega
            cases h
            unfold Single.widen
            rw [if_neg (show ¬ (0 : Nat) = 255 by decide), if_pos rfl, dif_neg hne]
            refine Double.ext rfl ?_ ?_
            · show ((2 ^ 52 + d.fraction) / 2 ^ (926 - d.exponent)).log2 + 874 = d.exponent
              omega
            · show ((2 ^ 52 + d.fraction) / 2 ^ (926 - d.exponent) -
                2 ^ ((2 ^ 52 + d.fraction) / 2 ^ (926 - d.exponent)).log2) *
                  2 ^ (52 - ((2 ^ 52 + d.fraction) / 2 ^ (926 - d.exponent)).log2) = d.fraction
              have hshift : 52 - (d.exponent - 874) = 926 - d.exponent := by omega
              rw [hlog, hval, Nat.add_sub_cancel_left, hshift]
              exact hfrac.symm
          · cases h
        · cases h

end Double

end Core
end ObjectScript
