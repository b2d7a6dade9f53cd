import Mathlib.Data.Nat.Digits.Lemmas
import ObjectScript.Compiler.Tokenizer
import ObjectScript.Vm.UnpackSafety
/-!
# sprintf

A directive of `sprintf`, and what its conversion of an integer appends.  There is no result where an `int` overflows, where
`tmp` is too short and where a digit index lies outside of the table.  The double operations are parameters.

`integers_written` is about `number` for every integer, base, width and precision, and about the directives that call
it.  What a text must be is `IsText`: padding, sign, prefix and digits that denote the number.
-/
namespace ObjectScript
namespace Strings

open Compiler.Tokenizer (head isDigit parseSimpleDec wrapInt)
open Vm (int32 int32_some)

structure Flags where
  zeropad : Bool
  plus : Bool
  space : Bool
  left : Bool
  special : Bool
  large : Bool
  precision : Bool
deriving DecidableEq, Repr

def Flags.none : Flags := ⟨false, false, false, false, false, false, false⟩

/-- The operations on `double` that the conversions use; `toInt` is the cast to `OS_INT`. -/
structure DoubleOps (F : Type) where
  ofInt : Int → F
  ten : F
  half : F
  mul : F → F → F
  div : F → F → F
  add : F → F → F
  floor : F → F
  toInt : F → Int
  toInt_range : ∀ x, -2 ^ 63 ≤ toInt x ∧ toInt x < 2 ^ 63

structure Arg (F : Type) where
  toInt : Int
  toInteger : Int
  toDouble : F

/-! ## Directives -/

def parseFlags : Flags → List Nat → Flags × List Nat
  | flags, [] => (flags, [])
  | flags, c :: fmt =>
    if c = 45 then parseFlags { flags with left := true } fmt
    else if c = 43 then parseFlags { flags with plus := true } fmt
    else if c = 32 then parseFlags { flags with space := true } fmt
    else if c = 35 then parseFlags { flags with special := true } fmt
    else if c = 48 then parseFlags { flags with zeropad := true } fmt
    else (flags, c :: fmt)

/-- `parseSimpleDec` into an `int`: zero and no step where it fails. -/
def parseInt32 (fmt : List Nat) : Int × List Nat := (parseSimpleDec wrapInt fmt).getD (0, fmt)

/-- A directive up to its type, and the arguments left. -/
structure Directive (F : Type) where
  flags : Flags
  fieldWidth : Int
  precision : Int
  fmt : List Nat
  args : List (Arg F)

variable {F : Type}

def nextInt : List (Arg F) → Int × List (Arg F)
  | [] => (0, [])
  | arg :: args => (arg.toInt, args)

def parseWidth (flags : Flags) (fmt : List Nat) (args : List (Arg F)) : Directive F :=
  if isDigit (head fmt) then ⟨flags, (parseInt32 fmt).1, 0, (parseInt32 fmt).2, args⟩
  else if head fmt = 42 then
    if (nextInt args).1 < 0 then ⟨{ flags with left := true }, wrapInt (-(nextInt args).1), 0, fmt.tail, (nextInt args).2⟩
    else ⟨flags, (nextInt args).1, 0, fmt.tail, (nextInt args).2⟩
  else ⟨flags, -1, 0, fmt, args⟩

def parsePrecision (d : Directive F) : Directive F :=
  if head d.fmt = 46 then
    let fmt := d.fmt.tail
    let flags := { d.flags with precision := true }
    if isDigit (head fmt) then { d with flags := flags, precision := (parseInt32 fmt).1, fmt := (parseInt32 fmt).2 }
    else if head fmt = 45 ∧ isDigit (head fmt.tail) then
      { d with flags := flags, precision := -(parseInt32 fmt.tail).1, fmt := (parseInt32 fmt.tail).2 }
    else if head fmt = 42 then
      { d with flags := flags, precision := (nextInt d.args).1, fmt := fmt.tail, args := (nextInt d.args).2 }
    else { d with fmt := fmt }
  else d

def directive (fmt : List Nat) (args : List (Arg F)) : Directive F :=
  let (flags, fmt) := parseFlags Flags.none fmt
  parsePrecision (parseWidth flags fmt args)

/-- The conversions of integers: their bases, and whether the digits are upper case letters. -/
def integerConversion : Nat → Option (Int × Bool)
  | 111 => some (8, false)
  | 98 => some (2, false)
  | 88 => some (16, true)
  | 120 => some (16, false)
  | 100 => some (10, false)
  | 105 => some (10, false)
  | _ => none

/-! ## number -/

def DIGITS : List Nat :=
  [48, 49, 50, 51, 52, 53, 54, 55, 56, 57, 97, 98, 99, 100, 101, 102, 103, 104, 105, 106, 107, 108, 109, 110, 111, 112, 113,
    114, 115, 116, 117, 118, 119, 120, 121, 122]

def UPPER_DIGITS : List Nat :=
  [48, 49, 50, 51, 52, 53, 54, 55, 56, 57, 65, 66, 67, 68, 69, 70, 71, 72, 73, 74, 75, 76, 77, 78, 79, 80, 81, 82, 83, 84, 85,
    86, 87, 88, 89, 90]

/-- `-num` of an `OS_INT`; the least one stays what it is. -/
def negate64 (num : Int) : Int := if num = -2 ^ 63 then num else -num

/-- Ten to the power `-precision`, one multiplication after the other. -/
def powerOfTen (D : DoubleOps F) (precision : Int) : F := (fun p => D.mul p D.ten)^[(-precision - 1).toNat] D.ten

/-- `(OS_INT)(::floor(num / p + 0.5) * p)` -/
def roundTo (D : DoubleOps F) (num precision : Int) : Int :=
  let p := powerOfTen D precision
  D.toInt (D.mul (D.floor (D.add (D.div (D.ofInt num) p) D.half)) p)

def signChars (num : Int) (flags : Flags) : List Nat :=
  if num < 0 then [45] else if flags.plus then [43] else if flags.space then [32] else []

/-- The characters `SPECIAL` puts behind the sign. -/
def prefixChars (base : Int) (flags : Flags) : List Nat :=
  if flags.special then
    if base = 8 then [48] else if base = 16 then [48, DIGITS.getD 33 0] else if base = 2 then [48, 98] else []
  else []

/-- `dig[i]` -/
def digitAt (dig : List Nat) (i : Int) : Option Nat := if 0 ≤ i then dig[i.toNat]? else none

/-- The digits of `tmp`, the last one first. -/
def digitLoop (dig : List Nat) (base : Int) (hbase : 2 ≤ base) (num : Int) (tmp : List Nat) : Option (List Nat) :=
  if num = 0 then some tmp
  else if 128 ≤ tmp.length then none
  else (digitAt dig (num.tmod base)).bind fun c => digitLoop dig base hbase (num.tdiv base) (tmp ++ [c])
termination_by num.natAbs
decreasing_by
  rename_i hne _
  rw [Int.natAbs_tdiv]
  exact Nat.div_lt_self (by omega) (by omega)

/-- `while (size-- > 0) buf.append(c)`, and the size behind it. -/
def padLoop (c : Nat) (size : Int) : Option (List Nat × Int) :=
  (int32 ((if 0 < size then 0 else size) - 1)).map fun size' => (List.replicate size.toNat c, size')

/-- The padding in front of the text, behind the prefix and behind the text. -/
def padding (size : Int) (zeropad left : Bool) : Option (List Nat × List Nat × List Nat) := do
  let (spaces, size) ← if zeropad || left then some ([], size) else padLoop 32 size
  let (fill, size) ← if left then some ([], size) else padLoop (if zeropad then 48 else 32) size
  let (behind, _) ← padLoop 32 size
  return (spaces, fill, behind)

/-- What is appended for the digits of `tmp`. -/
def pad (size precision : Int) (flags : Flags) (sign before tmp : List Nat) : Option (List Nat) := do
  let size ← int32 (size - sign.length)
  let size ← int32 (size - before.length)
  let precision := if precision < tmp.length then (tmp.length : Int) else precision
  let size ← int32 (size - precision)
  let (spaces, fill, behind) ← padding size (flags.zeropad && !flags.left) flags.left
  return spaces ++ sign ++ before ++ fill ++ List.replicate (precision - tmp.length).toNat 48 ++ tmp.reverse ++ behind

def number (D : DoubleOps F) (num base size precision : Int) (flags : Flags) : Option (List Nat) :=
  let num := if precision < 0 then roundTo D num precision else num
  let dig := if flags.large then UPPER_DIGITS else DIGITS
  if hbase : 2 ≤ base ∧ base ≤ 36 then do
    let tmp ← if num = 0 then some [48] else digitLoop dig base hbase.1 (if num < 0 then negate64 num else num) []
    pad size precision flags (signChars num flags) (prefixChars base flags) tmp
  else some []

def nextInteger : List (Arg F) → Int
  | [] => 0
  | arg :: _ => arg.toInteger

/-- What a directive appends for its next argument, where its type is that of an integer. -/
def integerText (D : DoubleOps F) (d : Directive F) : Option (Option (List Nat)) :=
  (integerConversion (head d.fmt)).map fun conversion =>
    number D (nextInteger d.args) conversion.1 d.fieldWidth d.precision
      (if conversion.2 then { d.flags with large := true } else d.flags)

/-! ## What is appended -/

def digitsOfNat (base n : Nat) : List Nat := if n = 0 then [0] else (Nat.digits base n).reverse

def digitChar (large : Bool) (d : Nat) : Nat := (if large then UPPER_DIGITS else DIGITS).getD d 0

/-- The text with its padding: spaces in front, zeros behind the sign and the prefix, or spaces behind. -/
def layout (flags : Flags) (width : Int) (sign before text : List Nat) : List Nat :=
  let padding := (width - (sign.length + before.length + text.length : Nat)).toNat
  if flags.left then sign ++ before ++ text ++ List.replicate padding 32
  else if flags.zeropad then sign ++ before ++ List.replicate padding 48 ++ text
  else List.replicate padding 32 ++ sign ++ before ++ text

/-- The digits, with zeros in front where the precision asks for more. -/
def withPrecision (precision : Int) (digits : List Nat) : List Nat :=
  List.replicate (precision - digits.length).toNat 48 ++ digits

theorem ofDigits_digitsOfNat (base n : Nat) : Nat.ofDigits base (digitsOfNat base n).reverse = n := by
  unfold digitsOfNat
  split
  · rename_i h
    rw [h]
    rfl
  · rw [List.reverse_reverse, Nat.ofDigits_digits]

theorem lt_of_mem_digitsOfNat {base n d : Nat} (hbase : 2 ≤ base) (h : d ∈ digitsOfNat base n) : d < base := by
  unfold digitsOfNat at h
  split at h
  · rw [List.mem_singleton.1 h]
    omega
  · exact Nat.digits_lt_base hbase (List.mem_reverse.1 h)

theorem digitAt_eq (large : Bool) {d : Nat} (h : d < 36) :
    digitAt (if large then UPPER_DIGITS else DIGITS) d = some (digitChar large d) := by
  have hlen : d < (if large then UPPER_DIGITS else DIGITS).length := by cases large <;> exact h
  unfold digitAt digitChar
  rw [if_pos (Int.natCast_nonneg d), Int.toNat_natCast, List.getElem?_eq_getElem hlen, List.getD_eq_getElem?_getD,
    List.getElem?_eq_getElem hlen, Option.getD_some]

/-- **The loop writes the digits of a number that is not negative, the lowest one first.** -/
theorem digitLoop_eq (large : Bool) {base : Nat} (hbase : 2 ≤ (base : Int)) (hle : base ≤ 36) (n : Nat) : ∀ tmp : List Nat,
    tmp.length + (Nat.digits base n).length ≤ 128 →
    digitLoop (if large then UPPER_DIGITS else DIGITS) base hbase n tmp =
      some (tmp ++ (Nat.digits base n).map (digitChar large)) := by
  induction n using Nat.strongRecOn with
  | ind n ih =>
    intro tmp hlen
    rw [digitLoop]
    by_cases hn : n = 0
    · rw [if_pos (by omega), hn, Nat.digits_zero, List.map_nil, List.append_nil]
    · have hdigits := Nat.digits_def' (show 1 < base by omega) (Nat.pos_of_ne_zero hn)
      rw [hdigits, List.length_cons] at hlen
      have hmod : n % base < 36 := Nat.lt_of_lt_of_le (Nat.mod_lt n (by omega)) hle
      rw [if_neg (by omega), if_neg (by omega), ← Int.ofNat_tmod, digitAt_eq large hmod, Option.bind_some,
        ← Int.ofNat_tdiv, ih (n / base) (Nat.div_lt_self (Nat.pos_of_ne_zero hn) (by omega)) _ (by simp; omega), hdigits,
        List.map_cons, List.append_assoc, List.singleton_append]

theorem padLoop_eq (c : Nat) {size : Int} (hge : -2 ^ 31 < size) (hlt : size < 2 ^ 31) :
    padLoop c size = some (List.replicate size.toNat c, (if 0 < size then 0 else size) - 1) := by
  unfold padLoop
  rw [int32_some (by split <;> omega) (by split <;> omega), Option.map_some]

theorem padding_eq {size : Int} (zeropad left : Bool) (hge : -2 ^ 31 + 3 ≤ size) (hlt : size < 2 ^ 31) :
    padding size (zeropad && !left) left = some
      (if left then ([], [], List.replicate size.toNat 32)
      else if zeropad then ([], List.replicate size.toNat 48, [])
      else (List.replicate size.toNat 32, [], [])) := by
  have hafter : ∀ {s : Int}, -2 ^ 31 + 3 ≤ s → s < 2 ^ 31 → -2 ^ 31 + 2 ≤ (if 0 < s then 0 else s) - 1 ∧
      (if 0 < s then 0 else s) - 1 ≤ -1 := by
    intro s _ _
    split <;> omega
  obtain ⟨hlow, hhigh⟩ := hafter hge hlt
  generalize hnext : (if 0 < size then 0 else size) - 1 = next at hlow hhigh
  have hfirst : ∀ c, padLoop c size = some (List.replicate size.toNat c, next) := fun c => by
    rw [padLoop_eq c (by omega) hlt, hnext]
  have hnone : ∀ c, padLoop c next = some ([], next - 1) := fun c => by
    rw [padLoop_eq c (by omega) (by omega), Int.toNat_of_nonpos (by omega), if_neg (by omega)]
    rfl
  have hnone' : padLoop 32 (next - 1) = some ([], next - 1 - 1) := by
    rw [padLoop_eq 32 (by omega) (by omega), Int.toNat_of_nonpos (by omega), if_neg (by omega)]
    rfl
  unfold padding
  cases left with
  | true => simp [hfirst]
  | false =>
    cases zeropad with
    | true => simp [hfirst, hnone]
    | false => simp [hfirst, hnone, hnone']

/-- **The padding is what the width asks for beyond the sign, the prefix and the digits.** -/
theorem pad_eq {size precision : Int} (flags : Flags) {sign before tmp : List Nat} (hsize : -1 ≤ size ∧ size < 2 ^ 31)
    (hprecision : precision + 8 < 2 ^ 31) (hsign : sign.length ≤ 1) (hbefore : before.length ≤ 2) (htmp : tmp.length ≤ 128) :
    pad size precision flags sign before tmp =
      some (layout flags size sign before (withPrecision precision tmp.reverse)) := by
  obtain ⟨digits, hdigits⟩ : ∃ digits, digits = if precision < tmp.length then (tmp.length : Int) else precision := ⟨_, rfl⟩
  have hbounds : (tmp.length : Int) ≤ digits ∧ digits + 8 < 2 ^ 31 := by
    rw [hdigits]
    split <;> omega
  have hzeros : List.replicate (digits - tmp.length).toNat 48 ++ tmp.reverse = withPrecision precision tmp.reverse := by
    unfold withPrecision
    rw [List.length_reverse]
    congr 2
    rw [hdigits]
    split <;> omega
  have hlength : ((withPrecision precision tmp.reverse).length : Int) = digits := by
    rw [← hzeros, List.length_append, List.length_replicate, List.length_reverse]
    omega
  have hleft : size - sign.length - before.length - digits =
      size - (sign.length + before.length + (withPrecision precision tmp.reverse).length : Nat) := by
    push_cast
    omega
  unfold pad
  rw [int32_some (by omega) (by omega), Option.bind_eq_bind, Option.bind_some, int32_some (by omega) (by omega),
    Option.bind_some]
  dsimp only
  rw [← hdigits, int32_some (by omega) (by omega), Option.bind_some, padding_eq _ _ (by omega) (by omega), Option.bind_eq_bind,
    Option.bind_some]
  unfold layout
  rw [hleft]
  generalize (size - (sign.length + before.length + (withPrecision precision tmp.reverse).length : Nat)).toNat = n
  rw [← hzeros]
  cases flags.left with
  | true => simp only [if_true, List.nil_append, List.append_nil, List.append_assoc]; rfl
  | false =>
    cases flags.zeropad with
    | true => simp only [Bool.false_eq_true, if_false, if_true, List.nil_append, List.append_nil, List.append_assoc]; rfl
    | false => simp only [Bool.false_eq_true, if_false, List.append_nil, List.append_assoc]; rfl

theorem length_signChars (num : Int) (flags : Flags) : (signChars num flags).length ≤ 1 := by
  unfold signChars
  split
  · exact Nat.le_refl _
  · split
    · exact Nat.le_refl _
    · split
      · exact Nat.le_refl _
      · exact Nat.zero_le _

theorem length_prefixChars (base : Int) (flags : Flags) : (prefixChars base flags).length ≤ 2 := by
  unfold prefixChars
  grind

/-- The number a conversion writes: the given one, rounded first where the precision is negative. -/
def written (D : DoubleOps F) (num precision : Int) : Int := if precision < 0 then roundTo D num precision else num

/-- `text` is padding, a sign or a prefix, and digits that denote `num`. -/
def IsText (flags : Flags) (base : Nat) (width precision num : Int) (text : List Nat) : Prop :=
  ∃ digits : List Nat, Nat.ofDigits base digits.reverse = num.natAbs ∧ (∀ d ∈ digits, d < base) ∧
    text = layout flags width (signChars num flags) (prefixChars base flags)
      (withPrecision precision (digits.map (digitChar flags.large)))

/-- **Of every integer but the least one the digits are written.** -/
theorem number_eq (D : DoubleOps F) {num width precision : Int} {base : Nat} (flags : Flags) (hnum : -2 ^ 63 ≤ num ∧ num < 2 ^ 63)
    (hbase : 2 ≤ base ∧ base ≤ 36) (hwidth : -1 ≤ width ∧ width < 2 ^ 31) (hprecision : precision + 8 < 2 ^ 31)
    (hleast : written D num precision ≠ -2 ^ 63) :
    ∃ text, number D num base width precision flags = some text ∧
      IsText flags base width precision (written D num precision) text := by
  have hrange : -2 ^ 63 ≤ written D num precision ∧ written D num precision < 2 ^ 63 := by
    unfold written
    split
    · exact D.toInt_range _
    · exact hnum
  have hint : 2 ≤ (base : Int) ∧ (base : Int) ≤ 36 := by omega
  have hw : written D num precision = if precision < 0 then roundTo D num precision else num := rfl
  unfold number
  rw [← hw, dif_pos hint]
  generalize written D num precision = v at hleast hrange
  refine ⟨_, ?_, digitsOfNat base v.natAbs, ofDigits_digitsOfNat _ _, fun d hd => lt_of_mem_digitsOfNat hbase.1 hd, rfl⟩
  by_cases hzero : v = 0
  · have hdigit : [48] = (digitsOfNat base 0).map (digitChar flags.large) := by
      cases flags.large <;> rfl
    rw [if_pos hzero, Option.bind_eq_bind, Option.bind_some]
    dsimp only
    rw [pad_eq flags hwidth hprecision (length_signChars v flags) (length_prefixChars base flags) (by decide), hzero,
      Int.natAbs_zero, ← hdigit]
    rfl
  · have habs : (if v < 0 then negate64 v else v) = (v.natAbs : Int) := by
      unfold negate64
      rw [if_neg hleast]
      split <;> omega
    have hlen : (Nat.digits base v.natAbs).length ≤ 64 := by
      rw [Nat.digits_length_le_iff (by omega)]
      calc v.natAbs < 2 ^ 64 := by omega
        _ ≤ base ^ 64 := Nat.pow_le_pow_left hbase.1 64
    rw [if_neg hzero, habs, digitLoop_eq flags.large hint.1 hbase.2 _ [] (by rw [List.length_nil]; omega),
      Option.bind_eq_bind, Option.bind_some, List.nil_append]
    dsimp only
    rw [pad_eq flags hwidth hprecision (length_signChars v flags) (length_prefixChars base flags) (by rw [List.length_map]; omega),
      digitsOfNat, if_neg (by omega), List.map_reverse]

/-! ## Directives of integers -/

/-- The conversions give an `int` and an `OS_INT`. -/
structure Arg.InRange (a : Arg F) : Prop where
  toInt : -2 ^ 31 ≤ a.toInt ∧ a.toInt < 2 ^ 31
  toInteger : -2 ^ 63 ≤ a.toInteger ∧ a.toInteger < 2 ^ 63

/-- The value of the loop does not drop and stays an `int`. -/
theorem simpleLoop_int {digit : Nat → Option Nat} {base : Int} : ∀ {s : List Nat} {val v : Int} {rest : List Nat},
    Compiler.Tokenizer.simpleLoop digit base wrapInt val s = some (v, rest) → val < 2 ^ 31 → val ≤ v ∧ v < 2 ^ 31
  | [], val, v, rest, h, hlt => by
    cases h
    exact ⟨Int.le_refl _, hlt⟩
  | c :: s, val, v, rest, h, hlt => by
    unfold Compiler.Tokenizer.simpleLoop at h
    split at h
    · cases h
      exact ⟨Int.le_refl _, hlt⟩
    · rename_i d _
      dsimp only at h
      split at h
      · cases h
      · have hnext : wrapInt (val * base + d) < 2 ^ 31 := by unfold wrapInt; omega
        have hrest := simpleLoop_int h hnext
        omega

theorem parseInt32_range (fmt : List Nat) : 0 ≤ (parseInt32 fmt).1 ∧ (parseInt32 fmt).1 < 2 ^ 31 := by
  unfold parseInt32
  cases h : parseSimpleDec wrapInt fmt with
  | none => exact (by decide : (0 : Int) ≤ 0 ∧ (0 : Int) < 2 ^ 31)
  | some r =>
    unfold parseSimpleDec Compiler.Tokenizer.parseSimple at h
    split at h
    · cases h
    · rename_i v rest hloop
      split at h <;> cases h
      exact simpleLoop_int hloop (by decide)

/-- A width is negative only where none is given, or where the least `int` is. -/
theorem parseWidth_spec (flags : Flags) (fmt : List Nat) {args : List (Arg F)} (hargs : ∀ a ∈ args, a.InRange) :
    ((parseWidth flags fmt args).fieldWidth ≠ -2 ^ 31 → -1 ≤ (parseWidth flags fmt args).fieldWidth) ∧
      (parseWidth flags fmt args).fieldWidth < 2 ^ 31 ∧ (parseWidth flags fmt args).args <:+ args := by
  unfold parseWidth
  split
  · have h := parseInt32_range fmt
    exact ⟨fun _ => Int.le_trans (by decide) h.1, h.2, List.suffix_refl _⟩
  · split
    · have hnext : -2 ^ 31 ≤ (nextInt args).1 ∧ (nextInt args).1 < 2 ^ 31 ∧ (nextInt args).2 <:+ args := by
        cases args with
        | nil => exact ⟨(by decide : (-2 ^ 31 : Int) ≤ 0), (by decide : (0 : Int) < 2 ^ 31), List.suffix_refl _⟩
        | cons a args => exact ⟨(hargs a List.mem_cons_self).toInt.1, (hargs a List.mem_cons_self).toInt.2, List.suffix_cons a args⟩
      split
      · rename_i hneg
        -- the least `int` is its own negation
        have hleast : wrapInt (-(nextInt args).1) < 2 ^ 31 ∧
            (wrapInt (-(nextInt args).1) ≠ -2 ^ 31 → -1 ≤ wrapInt (-(nextInt args).1)) := by
          unfold wrapInt
          omega
        exact ⟨hleast.2, hleast.1, hnext.2.2⟩
      · exact ⟨fun _ => by dsimp only; omega, hnext.2.1, hnext.2.2⟩
    · exact ⟨fun _ => Int.le_refl _, (by decide : (-1 : Int) < 2 ^ 31), List.suffix_refl _⟩

theorem parsePrecision_spec (d : Directive F) : (parsePrecision d).fieldWidth = d.fieldWidth ∧
    (parsePrecision d).args <:+ d.args := by
  have hnext : (nextInt d.args).2 <:+ d.args := by
    cases d.args with
    | nil => exact List.suffix_refl _
    | cons a args => exact List.suffix_cons a args
  unfold parsePrecision
  dsimp only
  split
  · split
    · exact ⟨rfl, List.suffix_refl _⟩
    · split
      · exact ⟨rfl, List.suffix_refl _⟩
      · split
        · exact ⟨rfl, hnext⟩
        · exact ⟨rfl, List.suffix_refl _⟩
  · exact ⟨rfl, List.suffix_refl _⟩

theorem directive_spec (fmt : List Nat) {args : List (Arg F)} (hargs : ∀ a ∈ args, a.InRange) :
    ((directive fmt args).fieldWidth ≠ -2 ^ 31 → -1 ≤ (directive fmt args).fieldWidth) ∧
      (directive fmt args).fieldWidth < 2 ^ 31 ∧ (directive fmt args).args <:+ args := by
  unfold directive
  dsimp only
  have hwidth := parseWidth_spec (parseFlags Flags.none fmt).1 (parseFlags Flags.none fmt).2 hargs
  have hprecision := parsePrecision_spec (parseWidth (parseFlags Flags.none fmt).1 (parseFlags Flags.none fmt).2 args)
  rw [hprecision.1]
  exact ⟨hwidth.1, hwidth.2.1, hprecision.2.trans hwidth.2.2⟩

theorem nextInteger_range {args : List (Arg F)} (hargs : ∀ a ∈ args, a.InRange) :
    -2 ^ 63 ≤ nextInteger args ∧ nextInteger args < 2 ^ 63 := by
  cases args with
  | nil => exact (by decide : (-2 ^ 63 : Int) ≤ 0 ∧ (0 : Int) < 2 ^ 63)
  | cons a args => exact (hargs a List.mem_cons_self).toInteger

theorem integerConversion_base {c : Nat} {base : Int} {large : Bool} (h : integerConversion c = some (base, large)) :
    ∃ b : Nat, base = b ∧ 2 ≤ b ∧ b ≤ 36 := by
  unfold integerConversion at h
  split at h <;> cases h
  · exact ⟨8, by decide⟩
  · exact ⟨2, by decide⟩
  · exact ⟨16, by decide⟩
  · exact ⟨16, by decide⟩
  · exact ⟨10, by decide⟩
  · exact ⟨10, by decide⟩

/-- **`number` writes every integer but the least one in every base, and so does each integer conversion of `sprintf`**: it
appends padding, the sign, the prefix and digits of its table that denote the number, rounded where the precision is
negative. -/
theorem integers_written (D : DoubleOps F) :
    (∀ (num width precision : Int) (base : Nat) (flags : Flags), -2 ^ 63 ≤ num ∧ num < 2 ^ 63 → 2 ≤ base ∧ base ≤ 36 →
      -1 ≤ width ∧ width < 2 ^ 31 → precision + 8 < 2 ^ 31 → written D num precision ≠ -2 ^ 63 →
      ∃ text, number D num base width precision flags = some text ∧
        IsText flags base width precision (written D num precision) text) ∧
    ∀ (fmt : List Nat) (args : List (Arg F)) (base : Int) (large : Bool), (∀ a ∈ args, a.InRange) →
      integerConversion (head (directive fmt args).fmt) = some (base, large) → (directive fmt args).fieldWidth ≠ -2 ^ 31 →
      (directive fmt args).precision + 8 < 2 ^ 31 →
      written D (nextInteger (directive fmt args).args) (directive fmt args).precision ≠ -2 ^ 63 →
      ∃ text, integerText D (directive fmt args) = some (some text) ∧
        IsText (if large then { (directive fmt args).flags with large := true } else (directive fmt args).flags) base.toNat
          (directive fmt args).fieldWidth (directive fmt args).precision
          (written D (nextInteger (directive fmt args).args) (directive fmt args).precision) text := by
  constructor
  · intro num width precision base flags hnum hbase hwidth hprecision hleast
    exact number_eq D flags hnum hbase hwidth hprecision hleast
  · intro fmt args base large hargs hconversion hgiven hprecision hleast
    obtain ⟨hwidth, hlt, hsuffix⟩ := directive_spec fmt hargs
    obtain ⟨b, rfl, hbase⟩ := integerConversion_base hconversion
    have hnum := nextInteger_range fun a ha => hargs a (hsuffix.subset ha)
    obtain ⟨text, hnumber, htext⟩ := number_eq D
      (if large then { (directive fmt args).flags with large := true } else (directive fmt args).flags)
      hnum hbase ⟨hwidth hgiven, hlt⟩ hprecision hleast
    refine ⟨text, ?_, htext⟩
    unfold integerText
    rw [hconversion, Option.map_some, hnumber]

/-- Operations without rounding; a quotient and a product of small numbers are the same as those of doubles. -/
def exactOps : DoubleOps Rat where
  ofInt i := i
  ten := 10
  half := 1 / 2
  mul := (· * ·)
  div := (· / ·)
  add := (· + ·)
  floor q := q.floor
  toInt q := if -2 ^ 63 ≤ q.floor ∧ q.floor < 2 ^ 63 then q.floor else -2 ^ 63
  toInt_range q := by split <;> omega

/-- `-255` by `number`, and by the directive `%#*.4X` with the width -10. -/
theorem integers_written_hex :
    (∃ text, number exactOps (-255) 16 10 4 { Flags.none with special := true, large := true } = some text ∧
      IsText { Flags.none with special := true, large := true } 16 10 4 (-255) text) ∧
    ∃ text, integerText exactOps (directive [35, 42, 46, 52, 88] [⟨-10, -10, -10⟩, ⟨-255, -255, -255⟩]) = some (some text) ∧
      IsText { Flags.none with left := true, special := true, large := true, precision := true } 16 10 4 (-255) text := by
  refine ⟨(integers_written exactOps).1 (-255) 10 4 16 { Flags.none with special := true, large := true } (by decide) (by decide)
    (by decide) (by decide) (by decide), ?_⟩
  refine (integers_written exactOps).2 [35, 42, 46, 52, 88] [⟨-10, -10, -10⟩, ⟨-255, -255, -255⟩] 16 true ?_ (by decide)
    (by decide) (by decide) (by decide)
  rintro a ha
  rcases List.mem_pair.1 ha with rfl | rfl <;> exact ⟨by decide, by decide⟩

/-- `%.-1d` writes five as `10`. -/
theorem number_rounds :
    integerText exactOps (directive [46, 45, 49, 100] [⟨5, 5, 5⟩]) = some (some [49, 48]) ∧
      ¬IsText { Flags.none with precision := true } 10 (-1) (-1) 5 [49, 48] := by
  refine ⟨by decide +kernel, ?_⟩
  rintro ⟨digits, hvalue, -, htext⟩
  have hdigits : [49, 48] = digits.map (digitChar false) := by
    rw [htext, layout, withPrecision, Int.toNat_of_nonpos (by omega), Int.toNat_of_nonpos (by omega)]
    rfl
  have hlen : digits.length = 2 := by rw [← List.length_map (f := digitChar false), ← hdigits]; rfl
  obtain ⟨a, b, rfl⟩ := List.length_eq_two.1 hlen
  -- the first digit would be zero, and is written as `1`
  have hsum : b + 10 * a = 5 := hvalue
  have ha : a = 0 := by omega
  rw [ha] at hdigits
  exact absurd (List.cons.inj hdigits).1 (by decide)

end Strings
end ObjectScript
