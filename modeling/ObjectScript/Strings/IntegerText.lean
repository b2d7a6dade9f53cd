import Mathlib.Data.Nat.Digits.Defs
import ObjectScript.Compiler.Tokenizer
/-!
# Integers of texts

The integer part of `Utils::parseFloat`: a text of digits is read into an `OS_UINT`, which fails when the value drops, and
the `OS_UINT` becomes a number, which fails when the number is another one.  `Drops` says when a text of digits is refused,
`Faithful` when its number is the right one or none.

The check of the source is whether the value became less.  It misses overflows after which the value is greater again,
and it is this that `Drops` describes.
-/
namespace ObjectScript
namespace Strings

open Compiler.Tokenizer (head isDigit decDigit octDigit binDigit hexDigit simpleLoop parseSimple parseSimpleHex parseSimpleBin
  parseSimpleOctal parseSimpleDec wrapUInt)
open ObjectScript.Core (Double)

def radixDigit (radix c : Nat) : Option Nat :=
  let cur :=
    if isDigit c then some (c - 48)
    else if 97 ≤ c ∧ c ≤ 122 then some (10 + (c - 97))
    else if 65 ≤ c ∧ c ≤ 90 then some (10 + (c - 65))
    else none
  cur.filter (· < radix)

/-- A radix that is no more than zero has the digits of radix zero, none. -/
def parseSimpleRadix (wrap : Int → Int) (radix : Nat) (s : List Nat) : Option (Int × List Nat) :=
  parseSimple (radixDigit radix) radix wrap s

/-- Whether the text has a minus, and what is behind the sign. -/
def signed (s : List Nat) : Bool × List Nat :=
  if head s = 45 then (true, s.tail) else if head s = 43 then (false, s.tail) else (false, s)

def negate (d : Double) : Double := { d with sign := !d.sign }

/-- The number of an `OS_UINT` with its sign, where it is that integer. -/
def integerNumber (neg : Bool) : Option (Int × List Nat) → Option (Double × List Nat)
  | none => none
  | some (v, rest) =>
    let result := Double.ofInt64 v
    if Double.toUInt64 result = v then some (if neg then negate result else result, rest) else none

/-- `PARSE_INT` -/
def parseInt (radix : Nat) (s : List Nat) : Option (Double × List Nat) :=
  integerNumber (signed s).1 (parseSimpleRadix wrapUInt radix (signed s).2)

/-- `PARSE_TOKEN`; there is no result for a text that is not the literal of an integer with a zero in front. -/
def parseToken (s : List Nat) : Option (Option (Double × List Nat)) :=
  let (neg, str) := signed s
  if head str = 48 ∧ head str.tail ≠ 46 then
    some
      (if head str.tail = 120 then integerNumber neg (parseSimpleHex wrapUInt (str.drop 2))
      else if head str.tail = 98 then integerNumber neg (parseSimpleBin wrapUInt (str.drop 2))
      else integerNumber neg (parseSimpleOctal wrapUInt str))
  else none

def isNumberRadix (radix : Nat) (s : List Nat) : Option Double :=
  match parseInt radix s with
  | some (val, []) => some val
  | _ => none

/-! ## The digits of a text -/

def digitsOf (digit : Nat → Option Nat) : List Nat → List Nat
  | [] => []
  | c :: s =>
    match digit c with
    | none => []
    | some d => d :: digitsOf digit s

def behind (digit : Nat → Option Nat) : List Nat → List Nat
  | [] => []
  | c :: s =>
    match digit c with
    | none => c :: s
    | some _ => behind digit s

def value (base : Nat) (ds : List Nat) : Nat := Nat.ofDigits base ds.reverse

/-- A digit makes the value smaller, modulo `2 ^ 64`. -/
def Drops (base : Nat) (ds : List Nat) : Prop :=
  ∃ k < ds.length, value base (ds.take (k + 1)) % 2 ^ 64 < value base (ds.take k) % 2 ^ 64

def Representable (n : Nat) : Prop := ∃ d : Double, d.scaled = n * Double.unit

theorem value_concat (base : Nat) (ds : List Nat) (d : Nat) : value base (ds ++ [d]) = value base ds * base + d := by
  rw [value, List.reverse_append, List.reverse_singleton, List.singleton_append, Nat.ofDigits_cons, Nat.add_comm, Nat.mul_comm]
  rfl

variable {digit : Nat → Option Nat} {base : Nat}

/-- A digit behind `pre` makes the value smaller. -/
def DropsBehind (base : Nat) (pre ds : List Nat) : Prop :=
  ∃ k < ds.length, value base (pre ++ ds.take (k + 1)) % 2 ^ 64 < value base (pre ++ ds.take k) % 2 ^ 64

theorem dropsBehind_cons {pre ds : List Nat} {d : Nat} : DropsBehind base pre (d :: ds) ↔
    value base (pre ++ [d]) % 2 ^ 64 < value base pre % 2 ^ 64 ∨ DropsBehind base (pre ++ [d]) ds := by
  constructor
  · rintro ⟨k, hk, hlt⟩
    cases k with
    | zero => exact Or.inl (by simpa using hlt)
    | succ k => exact Or.inr ⟨k, Nat.lt_of_succ_lt_succ hk, by simpa using hlt⟩
  · rintro (hlt | ⟨k, hk, hlt⟩)
    · exact ⟨0, Nat.succ_pos _, by simpa using hlt⟩
    · exact ⟨k + 1, Nat.succ_lt_succ hk, by simpa using hlt⟩

/-- **The loop keeps the value of the digits it read, modulo `2 ^ 64`.** -/
theorem simpleLoop_value (digit : Nat → Option Nat) (base : Nat) : ∀ s pre : List Nat,
    (DropsBehind base pre (digitsOf digit s) ∧ simpleLoop digit base wrapUInt (value base pre % 2 ^ 64 : Nat) s = none) ∨
      ¬DropsBehind base pre (digitsOf digit s) ∧ simpleLoop digit base wrapUInt (value base pre % 2 ^ 64 : Nat) s =
        some (((value base (pre ++ digitsOf digit s) % 2 ^ 64 : Nat) : Int), behind digit s)
  | [], pre => by
    refine Or.inr ⟨?_, ?_⟩
    · rintro ⟨k, hk, -⟩
      exact absurd hk (Nat.not_lt_zero k)
    · rw [digitsOf, List.append_nil]
      rfl
  | c :: s, pre => by
    cases hc : digit c with
    | none =>
      refine Or.inr ⟨?_, ?_⟩
      · simp only [digitsOf, hc]
        rintro ⟨k, hk, -⟩
        exact absurd hk (Nat.not_lt_zero k)
      · simp only [digitsOf, behind, simpleLoop, hc, List.append_nil]
    | some d =>
      have hnext : wrapUInt ((value base pre % 2 ^ 64 : Nat) * base + d) = (value base (pre ++ [d]) % 2 ^ 64 : Nat) := by
        rw [value_concat]
        unfold wrapUInt
        push_cast
        rw [Int.add_emod, Int.mul_emod, Int.emod_emod_of_dvd _ (by norm_num), ← Int.mul_emod, ← Int.add_emod]
      have hrest := simpleLoop_value digit base s (pre ++ [d])
      rw [List.append_assoc, List.singleton_append] at hrest
      simp only [digitsOf, behind, hc, simpleLoop, hnext, dropsBehind_cons]
      by_cases hdrop : value base (pre ++ [d]) % 2 ^ 64 < value base pre % 2 ^ 64
      · exact Or.inl ⟨Or.inl hdrop, by rw [if_pos (Int.ofNat_lt.2 hdrop)]⟩
      · rw [if_neg (mt Int.ofNat_lt.1 hdrop)]
        rcases hrest with ⟨hd, hnone⟩ | ⟨hd, hsome⟩
        · exact Or.inl ⟨Or.inr hd, hnone⟩
        · exact Or.inr ⟨fun h => h.elim hdrop hd, hsome⟩

theorem length_behind (digit : Nat → Option Nat) : ∀ s : List Nat, (behind digit s).length = s.length - (digitsOf digit s).length
  | [] => rfl
  | c :: s => by
    cases hc : digit c with
    | none => simp only [behind, digitsOf, hc, List.length_nil, Nat.sub_zero]
    | some d => simp only [behind, digitsOf, hc, List.length_cons, length_behind digit s, Nat.add_sub_add_right]

theorem length_digitsOf_le (digit : Nat → Option Nat) : ∀ s : List Nat, (digitsOf digit s).length ≤ s.length
  | [] => Nat.le_refl _
  | c :: s => by
    cases hc : digit c with
    | none => simp only [digitsOf, hc, List.length_nil, Nat.zero_le]
    | some d => simp only [digitsOf, hc, List.length_cons, Nat.succ_le_succ (length_digitsOf_le digit s)]

/-- **What a parser gives**: the value of the digits modulo `2 ^ 64`, unless there are none or the value drops. -/
theorem parseSimple_eq (digit : Nat → Option Nat) (base : Nat) (s : List Nat) :
    (parseSimple digit base wrapUInt s = none ∧ (Drops base (digitsOf digit s) ∨ digitsOf digit s = [])) ∨
      ¬Drops base (digitsOf digit s) ∧ parseSimple digit base wrapUInt s =
        some (((value base (digitsOf digit s) % 2 ^ 64 : Nat) : Int), behind digit s) := by
  have hlen := length_behind digit s
  have hle := length_digitsOf_le digit s
  have hloop := simpleLoop_value digit base s []
  have hzero : ((value base [] % 2 ^ 64 : Nat) : Int) = 0 := rfl
  rw [hzero, List.nil_append] at hloop
  have hdrops : DropsBehind base [] (digitsOf digit s) ↔ Drops base (digitsOf digit s) := Iff.rfl
  rw [hdrops] at hloop
  unfold parseSimple
  rcases hloop with ⟨hd, hnone⟩ | ⟨hd, hsome⟩
  · exact Or.inl ⟨by rw [hnone], Or.inl hd⟩
  · rw [hsome]
    by_cases hempty : digitsOf digit s = []
    · refine Or.inl ⟨?_, Or.inr hempty⟩
      rw [hempty, List.length_nil, Nat.sub_zero] at hlen
      dsimp only
      rw [if_neg (by omega)]
    · have hpos := List.length_pos_iff.2 hempty
      refine Or.inr ⟨hd, ?_⟩
      dsimp only
      rw [if_pos (by omega)]

/-- The nearest number of an integer is that integer where any number is. -/
theorem representable_iff {n : Nat} (h : n < 2 ^ 64) : Representable n ↔ (Double.ofInt64 n).scaled = n * Double.unit := by
  constructor
  · rintro ⟨d, hd⟩
    have hlt : ((n : Int)).natAbs < 2 ^ 64 := by omega
    have hge := Double.le_ofInt64 hlt (Int.le_of_eq hd)
    have hle := Double.ofInt64_le hlt (Int.le_of_eq hd.symm)
    exact (Int.le_antisymm hle hge).trans hd
  · intro heq
    exact ⟨_, heq⟩

theorem representable_two_pow {k : Nat} (h : k < 64) : Representable (2 ^ k) := by
  refine ⟨⟨false, k + 1023, 0, by omega, by decide⟩, ?_⟩
  have hmag : Double.magnitude ⟨false, k + 1023, 0, by omega, by decide⟩ = 2 ^ k * Double.unit := by
    unfold Double.magnitude
    rw [if_neg (Nat.succ_ne_zero _), Double.two_pow_mul_unit, Nat.add_zero, ← Nat.pow_add]
    exact congrArg (2 ^ ·) (show 52 + (k + 1023 - 1) = k + 1074 by omega)
  unfold Double.scaled
  rw [if_neg Bool.false_ne_true, hmag]
  exact Int.natCast_mul _ _

theorem scaled_negate (d : Double) : (negate d).scaled = -d.scaled := by
  unfold Double.scaled negate
  cases d.sign <;> simp [Double.magnitude]

/-- An `OS_UINT` becomes its number or none. -/
theorem integerNumber_eq (neg : Bool) {n : Nat} (h : n < 2 ^ 64) (rest : List Nat) :
    (¬Representable n ∧ integerNumber neg (some ((n : Int), rest)) = none) ∨
      Representable n ∧ ∃ x : Double, integerNumber neg (some ((n : Int), rest)) = some (x, rest) ∧
        x.scaled = (if neg then -(n : Int) else n) * Double.unit := by
  have hexact := Double.toUInt64_ofInt64_iff (Int.natCast_nonneg n) (by omega)
  unfold integerNumber
  rw [representable_iff h]
  by_cases heq : (Double.ofInt64 n).scaled = n * Double.unit
  · refine Or.inr ⟨heq, _, if_pos (hexact.2 heq), ?_⟩
    cases neg with
    | false => exact heq
    | true => rw [if_pos rfl, if_pos rfl, scaled_negate, heq, Int.neg_mul]
  · exact Or.inl ⟨heq, if_neg (mt hexact.1 heq)⟩

/-! ## When the literals are right -/

/-- A parser fails, or gives `v`. -/
def GivesOrFails (r : Option (Int × List Nat)) (v : Nat) : Prop := ∀ x rest, r = some (x, rest) → x = v

/-- A literal fails, or is the number `v` or `-v`. -/
def DenotesOrFails (r : Option Double) (neg : Bool) (v : Nat) : Prop :=
  ∀ x : Double, r = some x → x.scaled = (if neg then -(v : Int) else v) * Double.unit

/-- The digits fit an `OS_UINT`, or make the value drop. -/
def Fits (base : Nat) (ds : List Nat) : Prop := value base ds < 2 ^ 64 ∨ Drops base ds

/-- The digits fit or drop, or what is left of them modulo `2 ^ 64` is no number. -/
def Faithful (base : Nat) (ds : List Nat) : Prop := Fits base ds ∨ ¬Representable (value base ds % 2 ^ 64)

theorem givesOrFails_iff (s : List Nat) :
    GivesOrFails (parseSimple digit base wrapUInt s) (value base (digitsOf digit s)) ↔ Fits base (digitsOf digit s) := by
  unfold Fits
  rcases parseSimple_eq digit base s with ⟨hnone, hwhy⟩ | ⟨hd, hsome⟩
  · refine iff_of_true (fun x rest h => by rw [hnone] at h; cases h) ?_
    rcases hwhy with hd | hempty
    · exact Or.inr hd
    · exact Or.inl (by rw [hempty]; exact (by decide : (0 : Nat) < 2 ^ 64))
  · rw [hsome]
    constructor
    · intro h
      have heq := Int.ofNat_inj.1 (h _ _ rfl)
      exact Or.inl (heq ▸ Nat.mod_lt _ (by decide))
    · rintro (hlt | hdrop) x rest h
      · cases h
        rw [Nat.mod_eq_of_lt hlt]
      · exact absurd hdrop hd

/-- **The number of a text of digits is theirs, or there is none, exactly when the text is `Faithful`.** -/
theorem denotesOrFails_iff (neg : Bool) (s : List Nat) :
    DenotesOrFails ((integerNumber neg (parseSimple digit base wrapUInt s)).map Prod.fst) neg (value base (digitsOf digit s)) ↔
      Faithful base (digitsOf digit s) := by
  unfold Faithful Fits
  rcases parseSimple_eq digit base s with ⟨hnone, hwhy⟩ | ⟨hd, hsome⟩
  · refine iff_of_true (fun x h => by rw [hnone] at h; cases h) (Or.inl ?_)
    rcases hwhy with hd | hempty
    · exact Or.inr hd
    · exact Or.inl (by rw [hempty]; exact (by decide : (0 : Nat) < 2 ^ 64))
  · rw [hsome]
    have hmod : value base (digitsOf digit s) % 2 ^ 64 < 2 ^ 64 := Nat.mod_lt _ (by decide)
    rcases integerNumber_eq neg hmod (behind digit s) with ⟨hno, hnone⟩ | ⟨hyes, x, hx, hscaled⟩
    · exact iff_of_true (fun y h => by rw [hnone] at h; cases h) (Or.inr hno)
    · rw [hx]
      constructor
      · intro h
        have heq := hscaled.symm.trans (h x rfl)
        have hunit : (Double.unit : Int) ≠ 0 := Int.natCast_ne_zero.2 Double.unit_pos.ne'
        have hval := Int.eq_of_mul_eq_mul_right hunit heq
        refine Or.inl (Or.inl ?_)
        cases neg <;> simp only [Bool.false_eq_true, if_true, if_false] at hval <;> omega
      · rintro ((hlt | hdrop) | hno) y h
        · cases h
          rw [hscaled, Nat.mod_eq_of_lt hlt]
        · exact absurd hdrop hd
        · exact absurd hyes hno

def signText : Option Bool → List Nat
  | none => []
  | some false => [43]
  | some true => [45]

theorem parseToken_hex (sg : Option Bool) (s : List Nat) :
    parseToken (signText sg ++ 48 :: 120 :: s) = some (integerNumber (sg == some true) (parseSimpleHex wrapUInt s)) := by
  rcases sg with _ | _ | _ <;> rfl

theorem parseToken_bin (sg : Option Bool) (s : List Nat) :
    parseToken (signText sg ++ 48 :: 98 :: s) = some (integerNumber (sg == some true) (parseSimpleBin wrapUInt s)) := by
  rcases sg with _ | _ | _ <;> rfl

theorem parseToken_octal (sg : Option Bool) {s : List Nat} (hpoint : head s ≠ 46) (hhex : head s ≠ 120) (hbin : head s ≠ 98) :
    parseToken (signText sg ++ 48 :: s) = some (integerNumber (sg == some true) (parseSimpleOctal wrapUInt (48 :: s))) := by
  have hsigned : signed (signText sg ++ 48 :: s) = (sg == some true, 48 :: s) := by
    rcases sg with _ | _ | _ <;> rfl
  unfold parseToken
  rw [hsigned]
  dsimp only
  rw [if_pos ⟨rfl, hpoint⟩, List.tail_cons, if_neg hhex, if_neg hbin]

theorem isNumberRadix_eq (radix : Nat) (s : List Nat) :
    (behind (radixDigit radix) (signed s).2 ≠ [] ∧ isNumberRadix radix s = none) ∨
      behind (radixDigit radix) (signed s).2 = [] ∧ isNumberRadix radix s = (parseInt radix s).map Prod.fst := by
  have hrest : ∀ {x : Double} {rest : List Nat}, parseInt radix s = some (x, rest) →
      rest = behind (radixDigit radix) (signed s).2 := by
    intro x rest h
    unfold parseInt parseSimpleRadix at h
    rcases parseSimple_eq (radixDigit radix) radix (signed s).2 with ⟨hnone, -⟩ | ⟨-, hsome⟩
    · rw [hnone] at h
      cases h
    · rw [hsome] at h
      simp only [integerNumber] at h
      split at h <;> cases h
      rfl
  unfold isNumberRadix
  cases h : parseInt radix s with
  | none => exact if hb : behind (radixDigit radix) (signed s).2 = [] then Or.inr ⟨hb, rfl⟩ else Or.inl ⟨hb, rfl⟩
  | some r =>
    obtain ⟨x, rest⟩ := r
    rw [← hrest h]
    cases rest with
    | nil => exact Or.inr ⟨rfl, rfl⟩
    | cons c rest => exact Or.inl ⟨List.cons_ne_nil _ _, rfl⟩

/-- **The integer parsers, and the literals they make: each fails or is right exactly when its digits fit an `OS_UINT`, make
the value drop or, for a number, leave what is no number.** -/
theorem integer_literals_iff (radix : Nat) (sg : Option Bool) (s : List Nat) :
    ((GivesOrFails (parseSimpleRadix wrapUInt radix s) (value radix (digitsOf (radixDigit radix) s)) ↔
        Fits radix (digitsOf (radixDigit radix) s)) ∧
      (GivesOrFails (parseSimpleHex wrapUInt s) (value 16 (digitsOf hexDigit s)) ↔ Fits 16 (digitsOf hexDigit s)) ∧
      (GivesOrFails (parseSimpleBin wrapUInt s) (value 2 (digitsOf binDigit s)) ↔ Fits 2 (digitsOf binDigit s)) ∧
      (GivesOrFails (parseSimpleOctal wrapUInt s) (value 8 (digitsOf octDigit s)) ↔ Fits 8 (digitsOf octDigit s)) ∧
      (GivesOrFails (parseSimpleDec wrapUInt s) (value 10 (digitsOf decDigit s)) ↔ Fits 10 (digitsOf decDigit s))) ∧
    (DenotesOrFails ((parseInt radix s).map Prod.fst) (signed s).1 (value radix (digitsOf (radixDigit radix) (signed s).2)) ↔
      Faithful radix (digitsOf (radixDigit radix) (signed s).2)) ∧
    (∃ r, parseToken (signText sg ++ 48 :: 120 :: s) = some r ∧
      (DenotesOrFails (r.map Prod.fst) (sg == some true) (value 16 (digitsOf hexDigit s)) ↔ Faithful 16 (digitsOf hexDigit s))) ∧
    (∃ r, parseToken (signText sg ++ 48 :: 98 :: s) = some r ∧
      (DenotesOrFails (r.map Prod.fst) (sg == some true) (value 2 (digitsOf binDigit s)) ↔ Faithful 2 (digitsOf binDigit s))) ∧
    (head s ≠ 46 → head s ≠ 120 → head s ≠ 98 → ∃ r, parseToken (signText sg ++ 48 :: s) = some r ∧
      (DenotesOrFails (r.map Prod.fst) (sg == some true) (value 8 (digitsOf octDigit (48 :: s))) ↔
        Faithful 8 (digitsOf octDigit (48 :: s)))) ∧
    (DenotesOrFails (isNumberRadix radix s) (signed s).1 (value radix (digitsOf (radixDigit radix) (signed s).2)) ↔
      Faithful radix (digitsOf (radixDigit radix) (signed s).2) ∨ behind (radixDigit radix) (signed s).2 ≠ []) := by
  refine ⟨⟨givesOrFails_iff s, givesOrFails_iff s, givesOrFails_iff s, givesOrFails_iff s, givesOrFails_iff s⟩,
    denotesOrFails_iff _ _, ⟨_, parseToken_hex sg s, denotesOrFails_iff _ _⟩,
    ⟨_, parseToken_bin sg s, denotesOrFails_iff _ _⟩,
    fun hpoint hhex hbin => ⟨_, parseToken_octal sg hpoint hhex hbin, denotesOrFails_iff _ _⟩, ?_⟩
  rcases isNumberRadix_eq radix s with ⟨hbehind, hnone⟩ | ⟨hall, heq⟩
  · refine iff_of_true (fun x h => ?_) (Or.inr hbehind)
    rw [hnone] at h
    cases h
  · rw [heq]
    exact (denotesOrFails_iff _ _).trans ⟨Or.inl, fun h => h.resolve_right fun hne => hne hall⟩

/-- `0x14000000000000000`, which is 2^64 + 2^62, is read as 2^62. -/
theorem hex_literal_wraps :
    value 16 (digitsOf hexDigit [49, 52, 48, 48, 48, 48, 48, 48, 48, 48, 48, 48, 48, 48, 48, 48, 48]) = 2 ^ 64 + 2 ^ 62 ∧
      ∃ x : Double, (parseToken [48, 120, 49, 52, 48, 48, 48, 48, 48, 48, 48, 48, 48, 48, 48, 48, 48, 48, 48]) =
          some (some (x, [])) ∧ x.scaled = 2 ^ 62 * Double.unit := by
  refine ⟨by decide, ?_⟩
  have hparse : parseSimpleHex wrapUInt [49, 52, 48, 48, 48, 48, 48, 48, 48, 48, 48, 48, 48, 48, 48, 48, 48] =
      some (((2 ^ 62 : Nat) : Int), []) := by decide
  have htoken := parseToken_hex none [49, 52, 48, 48, 48, 48, 48, 48, 48, 48, 48, 48, 48, 48, 48, 48, 48]
  rw [hparse] at htoken
  have hyes : Representable (2 ^ 62) := representable_two_pow (by decide)
  rcases integerNumber_eq false (show 2 ^ 62 < 2 ^ 64 by decide) [] with ⟨hno, -⟩ | ⟨-, x, hx, hscaled⟩
  · exact absurd hyes hno
  · exact ⟨x, htoken.trans (congrArg some hx), hscaled⟩

end Strings
end ObjectScript
