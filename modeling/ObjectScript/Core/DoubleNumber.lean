import Mathlib.Tactic.Ring
import ObjectScript.Core.Double
import ObjectScript.Core.Value
/-!
# Doubles as numbers

The operations on keys, for the doubles themselves: `==` and `<=`, an `OS_INT` as the nearest double, ties to even, and
`(OS_INT)x`, which cuts the fraction off.  A double is compared by its value in units of the least positive one
(`Double.scaled`), an infinity as what would come after the greatest one.  The nearest double of an `OS_INT` is on the same
side of every double as the `OS_INT` itself, or equal to it (`Double.le_ofInt64`, `Double.ofInt64_le`).
-/
namespace ObjectScript
namespace Core
namespace Double

def magnitude (d : Double) : Nat := if d.exponent = 0 then d.fraction else (2 ^ 52 + d.fraction) * 2 ^ (d.exponent - 1)

def unit : Nat := 2 ^ 1074

def scaled (d : Double) : Int := if d.sign then -d.magnitude else d.magnitude

/-- `==` -/
def equal (x y : Double) : Bool := !x.isNaN && !y.isNaN && x.scaled == y.scaled

/-- `<=` -/
def lessEqual (x y : Double) : Bool := !x.isNaN && !y.isNaN && decide (x.scaled ≤ y.scaled)

/-- `n` without its last `s` bits, rounded to the nearest, ties to even. -/
def roundShift (n s : Nat) : Nat :=
  if 2 ^ s < 2 * (n % 2 ^ s) ∨ 2 * (n % 2 ^ s) = 2 ^ s ∧ n / 2 ^ s % 2 = 1 then n / 2 ^ s + 1 else n / 2 ^ s

theorem infinity_exponent_lt : 2047 < 2 ^ 11 := by decide

def infinity (sign : Bool) : Double := ⟨sign, 2047, 0, infinity_exponent_lt, Nat.two_pow_pos 52⟩

/-- A significand of 53 bits, or the next power of two. -/
def pack (sign : Bool) (exponent significand : Nat) : Double :=
  if h : exponent < 2046 ∧ significand < 2 ^ 53 then ⟨sign, exponent, significand - 2 ^ 52, by omega, by omega⟩
  else if h : exponent < 2046 then ⟨sign, exponent + 1, 0, by omega, Nat.two_pow_pos 52⟩
  else infinity sign

/-- An `OS_INT` as a number, the nearest one. -/
def ofInt64 (i : Int) : Double :=
  if i = 0 then zero false
  else
    pack (decide (i < 0)) (i.natAbs.log2 + 1023)
      (if i.natAbs.log2 ≤ 52 then i.natAbs * 2 ^ (52 - i.natAbs.log2) else roundShift i.natAbs (i.natAbs.log2 - 52))

/-- `(OS_INT)x`; what is no `OS_INT` gives the least one, as the machine has it. -/
def toInt64 (d : Double) : Int :=
  if !d.isNaN && decide (-2 ^ 63 ≤ d.scaled.tdiv unit ∧ d.scaled.tdiv unit < 2 ^ 63) then d.scaled.tdiv unit
  else -2 ^ 63

/-- `(OS_UINT)x` of a number that is not below zero; what is no `OS_UINT` gives zero, as the machine has it. -/
def toUInt64 (d : Double) : Int :=
  if !d.isNaN && decide (0 ≤ d.scaled.tdiv unit ∧ d.scaled.tdiv unit < 2 ^ 64) then d.scaled.tdiv unit else 0

instance : Number Double where
  equal := equal
  lessEqual := lessEqual
  ofInt := ofInt64
  toInt := toInt64

/-! ## Magnitudes -/

theorem magnitude_lt (d : Double) : d.magnitude < 2 ^ 52 * 2 ^ d.exponent := by
  have hf := d.fraction_lt
  unfold magnitude
  split
  · rename_i h
    rw [h]
    omega
  · rename_i h
    have hpow : 2 ^ 52 * 2 ^ d.exponent = 2 ^ 53 * 2 ^ (d.exponent - 1) := by
      rw [← Nat.pow_add, ← Nat.pow_add]
      exact congrArg (2 ^ ·) (by omega)
    rw [hpow]
    exact Nat.mul_lt_mul_of_pos_right (by omega) (Nat.two_pow_pos _)

theorem le_magnitude {d : Double} (h : d.exponent ≠ 0) : 2 ^ 52 * 2 ^ (d.exponent - 1) ≤ d.magnitude := by
  rw [magnitude, if_neg h]
  exact Nat.mul_le_mul_right _ (Nat.le_add_right _ _)

theorem magnitude_lt_of_exponent {x y : Double} (h : x.exponent < y.exponent) : x.magnitude < y.magnitude := by
  have hle : 2 ^ 52 * 2 ^ x.exponent ≤ 2 ^ 52 * 2 ^ (y.exponent - 1) :=
    Nat.mul_le_mul_left _ (Nat.pow_le_pow_right (by decide) (by omega))
  exact (magnitude_lt x).trans_le (hle.trans (le_magnitude (by omega)))

/-- **A magnitude is that of one exponent and fraction.** -/
theorem magnitude_inj {x y : Double} (h : x.magnitude = y.magnitude) : x.exponent = y.exponent ∧ x.fraction = y.fraction := by
  have he : x.exponent = y.exponent := by
    rcases Nat.lt_trichotomy x.exponent y.exponent with hlt | he | hlt
    · exact absurd h (Nat.ne_of_lt (magnitude_lt_of_exponent hlt))
    · exact he
    · exact absurd h (Nat.ne_of_gt (magnitude_lt_of_exponent hlt))
  refine ⟨he, ?_⟩
  unfold magnitude at h
  rw [he] at h
  split at h
  · exact h
  · have := Nat.eq_of_mul_eq_mul_right (Nat.two_pow_pos _) h
    omega

theorem magnitude_eq_zero {d : Double} (h : d.magnitude = 0) : d.exponent = 0 ∧ d.fraction = 0 := by
  have hz : d.magnitude = (zero false).magnitude := h
  exact magnitude_inj hz

theorem dvd_magnitude {d : Double} {j : Nat} (h : 2 ^ 52 * 2 ^ j ≤ d.magnitude) : 2 ^ j ∣ d.magnitude := by
  have hlt : j < d.exponent := by
    have hpow : 2 ^ 52 * 2 ^ j < 2 ^ 52 * 2 ^ d.exponent := h.trans_lt d.magnitude_lt
    exact (Nat.pow_lt_pow_iff_right (by decide)).1 (Nat.lt_of_mul_lt_mul_left hpow)
  rw [magnitude, if_neg (by omega)]
  exact Dvd.dvd.mul_left (Nat.pow_dvd_pow 2 (by omega)) _

theorem scaled_eq_iff {x y : Double} : x.scaled = y.scaled ↔ x = y ∨ x.magnitude = 0 ∧ y.magnitude = 0 := by
  constructor
  · intro h
    unfold scaled at h
    by_cases hz : x.magnitude = 0 ∧ y.magnitude = 0
    · exact .inr hz
    · have hsign : x.sign = y.sign ∧ x.magnitude = y.magnitude := by
        cases hx : x.sign <;> cases hy : y.sign <;> simp only [hx, hy, if_true, Bool.false_eq_true, if_false] at h <;>
          first | exact ⟨rfl, by omega⟩ | omega
      obtain ⟨he, hf⟩ := magnitude_inj hsign.2
      exact .inl (Double.ext hsign.1 he hf)
  · rintro (rfl | ⟨hx, hy⟩)
    · rfl
    · unfold scaled
      rw [hx, hy]
      simp

/-- **Two doubles are equal** when they are the same, or both are zeros. -/
theorem equal_iff {x y : Double} : x.equal y = true ↔
    x.isNaN = false ∧ y.isNaN = false ∧ (x = y ∨ x.magnitude = 0 ∧ y.magnitude = 0) := by
  simp only [equal, Bool.and_eq_true, Bool.not_eq_true', beq_iff_eq, scaled_eq_iff, and_assoc]

theorem eq_zero_of_magnitude {d : Double} (h : d.magnitude = 0) : d = zero d.sign :=
  Double.ext rfl (magnitude_eq_zero h).1 (magnitude_eq_zero h).2

/-! ## OS_INT as a number -/

theorem unit_pos : 0 < unit := by
  unfold unit
  simp only [Nat.two_pow_pos]

theorem two_pow_eq_unit {k : Nat} (h : k = 1074) : 2 ^ k = unit := by rw [h, unit]

theorem two_pow_mul_unit (k : Nat) : 2 ^ k * unit = 2 ^ (k + 1074) := by
  rw [unit, Nat.pow_add]

theorem magnitude_pack {sign : Bool} {e q : Nat} (he : 1 ≤ e) (he' : e < 2046) (hq : 2 ^ 52 ≤ q) (hq' : q ≤ 2 ^ 53) :
    (pack sign e q).magnitude = q * 2 ^ (e - 1) := by
  unfold pack
  split
  · unfold magnitude
    dsimp only
    rw [if_neg (by omega), Nat.add_sub_cancel' hq]
  · rename_i h
    have hq'' : q = 2 ^ 53 := by omega
    unfold magnitude
    dsimp only
    rw [if_neg (by omega), hq'', Nat.add_zero, Nat.add_sub_cancel, ← Nat.pow_add, ← Nat.pow_add]
    exact congrArg (2 ^ ·) (by omega)

theorem sign_pack (sign : Bool) (e q : Nat) : (pack sign e q).sign = sign := by
  unfold pack
  split
  · rfl
  · split <;> rfl

theorem isNaN_pack {sign : Bool} {e q : Nat} : (pack sign e q).isNaN = false := by
  unfold pack isNaN
  split
  · rename_i h
    dsimp only
    rw [Bool.and_eq_false_iff]
    exact .inl (by simp; omega)
  · split <;> simp [infinity]

theorem isNaN_ofInt64 (i : Int) : (ofInt64 i).isNaN = false := by
  unfold ofInt64
  split
  · rfl
  · exact isNaN_pack

theorem roundShift_le (n s : Nat) : roundShift n s ≤ n / 2 ^ s + 1 := by
  unfold roundShift
  split <;> omega

theorem le_roundShift (n s : Nat) : n / 2 ^ s ≤ roundShift n s := by
  unfold roundShift
  split <;> omega

theorem roundShift_of_dvd {n s : Nat} (h : n % 2 ^ s = 0) : roundShift n s = n / 2 ^ s := by
  have hpos := Nat.two_pow_pos s
  rw [roundShift, if_neg]
  omega

theorem div_bounds {n : Nat} (hn : n ≠ 0) (h : 52 < n.log2) :
    2 ^ 52 ≤ n / 2 ^ (n.log2 - 52) ∧ n / 2 ^ (n.log2 - 52) < 2 ^ 53 := by
  have hlog := (Nat.log2_eq_iff hn).1 rfl
  constructor
  · rw [Nat.le_div_iff_mul_le (Nat.two_pow_pos _), ← Nat.pow_add, Nat.add_sub_cancel' (by omega)]
    exact hlog.1
  · rw [Nat.div_lt_iff_lt_mul (Nat.two_pow_pos _), ← Nat.pow_add]
    exact hlog.2.trans_eq (congrArg (2 ^ ·) (by omega))

theorem scaled_ofInt64 (i : Int) : (ofInt64 i).scaled = if i < 0 then -((ofInt64 i).magnitude : Int) else (ofInt64 i).magnitude := by
  by_cases hi : i = 0
  · rw [hi]
    rfl
  · have hsign : (ofInt64 i).sign = decide (i < 0) := by rw [ofInt64, if_neg hi, sign_pack]
    unfold scaled
    rw [hsign]
    simp only [decide_eq_true_eq]

theorem magnitude_ofInt64_small {i : Int} (h : i.natAbs < 2 ^ 53) : (ofInt64 i).magnitude = i.natAbs * unit := by
  by_cases hi : i = 0
  · rw [hi, Int.natAbs_zero, Nat.zero_mul unit]
    rfl
  · have hn : i.natAbs ≠ 0 := by omega
    have hlog : i.natAbs.log2 < 53 := (Nat.log2_lt hn).2 h
    have hbounds := (Nat.log2_eq_iff hn).1 rfl
    have hlow : 2 ^ 52 ≤ i.natAbs * 2 ^ (52 - i.natAbs.log2) := by
      calc 2 ^ 52 = 2 ^ i.natAbs.log2 * 2 ^ (52 - i.natAbs.log2) := by rw [← Nat.pow_add, Nat.add_sub_cancel' (by omega)]
        _ ≤ _ := Nat.mul_le_mul_right _ hbounds.1
    have hhigh : i.natAbs * 2 ^ (52 - i.natAbs.log2) ≤ 2 ^ 53 := by
      calc i.natAbs * 2 ^ (52 - i.natAbs.log2) ≤ 2 ^ (i.natAbs.log2 + 1) * 2 ^ (52 - i.natAbs.log2) :=
            Nat.mul_le_mul_right _ hbounds.2.le
        _ = 2 ^ 53 := by
          rw [← Nat.pow_add]
          exact congrArg (2 ^ ·) (by omega)
    rw [ofInt64, if_neg hi, if_pos (by omega), magnitude_pack (by omega) (by omega) hlow hhigh, Nat.mul_assoc, ← Nat.pow_add,
      two_pow_eq_unit (by omega)]

theorem magnitude_ofInt64_large {i : Int} (h : 52 < i.natAbs.log2) (h' : i.natAbs.log2 < 1000) :
    (ofInt64 i).magnitude = roundShift i.natAbs (i.natAbs.log2 - 52) * 2 ^ (i.natAbs.log2 - 52) * unit := by
  have hn : i.natAbs ≠ 0 := by
    intro hn
    rw [hn, Nat.log2_zero] at h
    omega
  obtain ⟨hlow, hhigh⟩ := div_bounds hn h
  have hle := le_roundShift i.natAbs (i.natAbs.log2 - 52)
  have hlt := roundShift_le i.natAbs (i.natAbs.log2 - 52)
  have hexp : i.natAbs.log2 + 1023 - 1 = i.natAbs.log2 - 52 + 1074 := by omega
  rw [ofInt64, if_neg (by omega), if_neg (by omega), magnitude_pack (by omega) (by omega) (by omega) (by omega), Nat.mul_assoc,
    two_pow_mul_unit, hexp]

/-- Where the bits beyond the significand begin, a number of at least this size is a multiple. -/
theorem magnitude_above {d : Double} {n : Nat} (h : 52 < n.log2) (hn : n ≠ 0)
    (hd : n / 2 ^ (n.log2 - 52) * 2 ^ (n.log2 - 52) * unit ≤ d.magnitude) :
    ∃ t, d.magnitude = t * 2 ^ (n.log2 - 52) * unit := by
  rw [Nat.mul_assoc, two_pow_mul_unit] at hd
  obtain ⟨t, ht⟩ := dvd_magnitude ((Nat.mul_le_mul_right _ (div_bounds hn h).1).trans hd)
  exact ⟨t, by rw [ht, Nat.mul_comm, Nat.mul_assoc, two_pow_mul_unit]⟩

/-- Where the leading bit of a number stands that needs more than the significand. -/
theorem log2_of_large {n : Nat} (hn : n < 2 ^ 64) (hlarge : ¬ n < 2 ^ 53) : n ≠ 0 ∧ 52 < n.log2 ∧ n.log2 < 64 := by
  have hne : n ≠ 0 := by omega
  exact ⟨hne, (Nat.le_log2 hne).2 (by omega), (Nat.log2_lt hne).2 hn⟩

/-- The magnitude of a nearest double, seen from a double below. -/
theorem magnitude_le_ofInt64 {d : Double} {i : Int} (hi : i.natAbs < 2 ^ 64) (h : d.magnitude ≤ i.natAbs * unit) :
    d.magnitude ≤ (ofInt64 i).magnitude := by
  by_cases hsmall : i.natAbs < 2 ^ 53
  · rw [magnitude_ofInt64_small hsmall]
    exact h
  · obtain ⟨hn, hlog, hlog'⟩ := log2_of_large hi hsmall
    rw [magnitude_ofInt64_large hlog (by omega)]
    generalize hs : i.natAbs.log2 - 52 = k at *
    have hround := le_roundShift i.natAbs k
    by_cases hle : d.magnitude ≤ i.natAbs / 2 ^ k * 2 ^ k * unit
    · exact hle.trans (Nat.mul_le_mul_right _ (Nat.mul_le_mul_right _ hround))
    · obtain ⟨t, ht⟩ := magnitude_above hlog hn (by rw [hs]; exact Nat.le_of_not_le hle)
      rw [hs] at ht
      rw [ht] at h ⊢
      have htn : t * 2 ^ k ≤ i.natAbs := Nat.le_of_mul_le_mul_right h unit_pos
      exact Nat.mul_le_mul_right _ (Nat.mul_le_mul_right _ (((Nat.le_div_iff_mul_le (Nat.two_pow_pos k)).2 htn).trans hround))

theorem ofInt64_le_magnitude {d : Double} {i : Int} (hi : i.natAbs < 2 ^ 64) (h : i.natAbs * unit ≤ d.magnitude) :
    (ofInt64 i).magnitude ≤ d.magnitude := by
  by_cases hsmall : i.natAbs < 2 ^ 53
  · rw [magnitude_ofInt64_small hsmall]
    exact h
  · obtain ⟨hn, hlog, hlog'⟩ := log2_of_large hi hsmall
    rw [magnitude_ofInt64_large hlog (by omega)]
    generalize hs : i.natAbs.log2 - 52 = k at *
    have hlow : i.natAbs / 2 ^ k * 2 ^ k * unit ≤ d.magnitude :=
      (Nat.mul_le_mul_right _ (Nat.div_mul_le_self i.natAbs (2 ^ k))).trans h
    obtain ⟨t, ht⟩ := magnitude_above hlog hn (by rw [hs]; exact hlow)
    rw [hs] at ht
    rw [ht] at h ⊢
    have hle : i.natAbs ≤ t * 2 ^ k := Nat.le_of_mul_le_mul_right h unit_pos
    refine Nat.mul_le_mul_right _ (Nat.mul_le_mul_right _ ?_)
    by_cases hzero : i.natAbs % 2 ^ k = 0
    · rw [roundShift_of_dvd hzero]
      exact Nat.div_le_of_le_mul (by rwa [Nat.mul_comm])
    · have hne : i.natAbs ≠ t * 2 ^ k := fun heq => hzero (by rw [heq, Nat.mul_mod_left])
      have hlt := (Nat.div_lt_iff_lt_mul (Nat.two_pow_pos k)).2 (Nat.lt_of_le_of_ne hle hne)
      exact (roundShift_le _ _).trans (Nat.succ_le_of_lt hlt)

/-- An `OS_INT` in units, by its magnitude. -/
theorem mul_unit (i : Int) : i * unit = if i < 0 then -((i.natAbs * unit : Nat) : Int) else (i.natAbs * unit : Nat) := by
  rw [Nat.cast_mul]
  split
  · rw [← Int.neg_mul, show -(i.natAbs : Int) = i by omega]
  · rw [show (i.natAbs : Int) = i by omega]

/-- **A double below an `OS_INT`** is no greater than the nearest double. -/
theorem le_ofInt64 {d : Double} {i : Int} (hi : i.natAbs < 2 ^ 64) (h : d.scaled ≤ i * unit) : d.scaled ≤ (ofInt64 i).scaled := by
  have hbelow := magnitude_le_ofInt64 (d := d) hi
  have habove := ofInt64_le_magnitude (d := d) hi
  rw [scaled_ofInt64]
  rw [mul_unit] at h
  unfold scaled at h ⊢
  generalize i.natAbs * unit = n at *
  generalize (ofInt64 i).magnitude = k at *
  split at h <;> split at h <;> rename_i h1 h2 <;> simp only [h1, h2, Bool.false_eq_true, if_true, if_false] <;> omega

/-- **A double above an `OS_INT`** is no less than the nearest double. -/
theorem ofInt64_le {d : Double} {i : Int} (hi : i.natAbs < 2 ^ 64) (h : i * unit ≤ d.scaled) : (ofInt64 i).scaled ≤ d.scaled := by
  have hbelow := magnitude_le_ofInt64 (d := d) hi
  have habove := ofInt64_le_magnitude (d := d) hi
  rw [scaled_ofInt64]
  rw [mul_unit] at h
  unfold scaled at h ⊢
  generalize i.natAbs * unit = n at *
  generalize (ofInt64 i).magnitude = k at *
  split at h <;> split at h <;> rename_i h1 h2 <;> simp only [h1, h2, Bool.false_eq_true, if_true, if_false] <;> omega

theorem scaled_ofInt64_small {i : Int} (h : i.natAbs < 2 ^ 53) : (ofInt64 i).scaled = i * unit := by
  rw [scaled_ofInt64, magnitude_ofInt64_small h, mul_unit]

theorem unit_dvd_magnitude {i : Int} (h : i.natAbs < 2 ^ 64) : unit ∣ (ofInt64 i).magnitude := by
  by_cases hlog : 52 < i.natAbs.log2
  · have hne : i.natAbs ≠ 0 := by
      intro hzero
      rw [hzero, Nat.log2_zero] at hlog
      omega
    have hlog' : i.natAbs.log2 < 64 := (Nat.log2_lt hne).2 h
    rw [magnitude_ofInt64_large hlog (by omega)]
    exact Nat.dvd_mul_left _ _
  · have hsmall : i.natAbs < 2 ^ 53 := by
      by_cases hne : i.natAbs = 0
      · omega
      · exact (Nat.log2_lt hne).1 (by omega)
    rw [magnitude_ofInt64_small hsmall]
    exact Nat.dvd_mul_left _ _

/-- **An `OS_UINT` comes back from its number exactly when the number is that one.** -/
theorem toUInt64_ofInt64_iff {i : Int} (hpos : 0 ≤ i) (hlt : i < 2 ^ 64) :
    toUInt64 (ofInt64 i) = i ↔ (ofInt64 i).scaled = i * unit := by
  have hscaled : (ofInt64 i).scaled = (ofInt64 i).magnitude := by rw [scaled_ofInt64, if_neg (Int.not_lt.2 hpos)]
  obtain ⟨k, hk⟩ := unit_dvd_magnitude (i := i) (by omega)
  have hunit : (unit : Int) ≠ 0 := Int.natCast_ne_zero.2 unit_pos.ne'
  have hk' : (ofInt64 i).scaled = (k : Int) * unit := by
    rw [hscaled, hk, Nat.mul_comm]
    exact Int.natCast_mul k unit
  have hdiv : (ofInt64 i).scaled.tdiv unit = k := by rw [hk', Int.mul_tdiv_cancel _ hunit]
  have hcast : toUInt64 (ofInt64 i) = if (k : Int) < 2 ^ 64 then (k : Int) else 0 := by
    unfold toUInt64
    rw [isNaN_ofInt64, hdiv]
    simp
  rw [hcast, hk']
  constructor
  · intro h
    split at h
    · rw [h]
    · -- the number of zero is zero
      rename_i hlarge
      rw [← h, scaled_ofInt64_small (by decide), Int.zero_mul] at hk'
      rcases Int.mul_eq_zero.1 hk'.symm with hzero | hzero
      · omega
      · exact absurd hzero hunit
  · intro h
    rw [Int.eq_of_mul_eq_mul_right hunit h, if_pos hlt]

instance : LawfulNumber Double where
  equal_symm h := by
    simp only [Number.equal, equal, Bool.and_eq_true, beq_iff_eq] at h ⊢
    exact ⟨⟨h.1.2, h.1.1⟩, h.2.symm⟩
  equal_trans h h' := by
    simp only [Number.equal, equal, Bool.and_eq_true, beq_iff_eq] at h h' ⊢
    exact ⟨⟨h.1.1, h'.1.2⟩, h.2.trans h'.2⟩
  equal_ofInt {i j} hi hi' hj hj' := by
    have hunit : (unit : Int) ≠ 0 := Int.natCast_ne_zero.2 unit_pos.ne'
    simp only [Number.equal, Number.ofInt, equal, isNaN_ofInt64, Bool.not_false, Bool.true_and, beq_iff_eq]
    rw [scaled_ofInt64_small (by omega), scaled_ofInt64_small (by omega)]
    exact ⟨fun h => Int.eq_of_mul_eq_mul_right hunit h, fun h => by rw [h]⟩

end Double
end Core
end ObjectScript
