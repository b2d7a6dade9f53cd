import ObjectScript.Json.Decode
import ObjectScript.Lib.Utf8
/-!
# Texts of bytes

`utf8_to_utf16` reads UTF-8 into the units that the parser works on, and `jsonEscapeString` writes a string as a literal.

The reader goes by the first byte of a sequence and checks the bytes that follow, and a code point above `0xffff`
becomes two units.  Of well-formed UTF-8 it gives the UTF-16 of the same code points (`utf8ToUtf16_encodeChar`).
-/
namespace ObjectScript
namespace Json

def utf8Trail (c : Nat) : Prop := 0x80 ≤ c ∧ c ≤ 0xbf

instance (c : Nat) : Decidable (utf8Trail c) := inferInstanceAs (Decidable (_ ∧ _))

/-- `next_utf8_char`: a character and what is behind it, or a failure. -/
def nextUtf8Char : List Nat → Option (Nat × List Nat)
  | [] => none
  | c :: str =>
    if c < 0x80 then some (c, str)
    else if c < 0xc2 then none
    else if c < 0xe0 then
      match str with
      | c1 :: str =>
        if utf8Trail c1 then
          let thisChar := ((c &&& 0x1f) <<< 6) ||| (c1 &&& 0x3f)
          if thisChar < 0x80 then none else some (thisChar, str)
        else none
      | _ => none
    else if c < 0xf0 then
      match str with
      | c1 :: c2 :: str =>
        if utf8Trail c1 ∧ utf8Trail c2 then
          let thisChar := ((c &&& 0x0f) <<< 12) ||| ((c1 &&& 0x3f) <<< 6) ||| (c2 &&& 0x3f)
          if thisChar < 0x800 then none
          else if 0xd800 ≤ thisChar ∧ thisChar ≤ 0xdfff then none
          else some (thisChar, str)
        else none
      | _ => none
    else if c < 0xf5 then
      match str with
      | c1 :: c2 :: c3 :: str =>
        if utf8Trail c1 ∧ utf8Trail c2 ∧ utf8Trail c3 then
          let thisChar := ((c &&& 0x07) <<< 18) ||| ((c1 &&& 0x3f) <<< 12) ||| ((c2 &&& 0x3f) <<< 6) ||| (c3 &&& 0x3f)
          if thisChar < 0x10000 ∨ 0x10ffff < thisChar then none else some (thisChar, str)
        else none
      | _ => none
    else none

theorem nextUtf8Char_shorter {str rest : List Nat} {c : Nat} (h : nextUtf8Char str = some (c, rest)) :
    rest.length < str.length := by
  cases str with
  | nil => cases h
  | cons b str =>
    simp only [nextUtf8Char] at h
    repeat' split at h
    all_goals
      cases h
    all_goals
      simp only [List.length_cons]
      omega

/-- `utf8_to_utf16`; without a buffer the units are only counted. -/
def utf8ToUtf16 (utf8 : List Nat) : Option (List Nat) :=
  if utf8 = [] then some []
  else
    match h : nextUtf8Char utf8 with
    | none => none
    | some (us, rest) =>
      if 0x10000 ≤ us then
        (utf8ToUtf16 rest).map fun utf16 =>
          (((us - 0x10000) >>> 10) ||| 0xd800) :: (((us - 0x10000) &&& 0x3ff) ||| 0xdc00) :: utf16
      else (utf8ToUtf16 rest).map fun utf16 => us :: utf16
termination_by utf8.length
decreasing_by all_goals exact nextUtf8Char_shorter h

/-- The options of `jsonEscapeString`. -/
structure EscapeOptions where
  hexTag : Bool
  hexAmp : Bool
  hexApos : Bool
  hexQuot : Bool
  numericCheck : Bool
  unescapedSlashes : Bool
  unescapedUnicode : Bool

/-- The options of `strToJson`. -/
def EscapeOptions.strToJson : EscapeOptions :=
  { hexTag := true, hexAmp := true, hexApos := true, hexQuot := true, numericCheck := false, unescapedSlashes := true,
    unescapedUnicode := false }

/-- `digits` -/
def hexDigit (n : Nat) : Nat := if n < 10 then 48 + n else 87 + n

def escapeUnit (o : EscapeOptions) (us : Nat) : List Nat :=
  match us with
  | 34 => if o.hexQuot then [92, 117, 48, 48, 50, 50] else [92, 34]
  | 92 => [92, 92]
  | 47 => if o.unescapedSlashes then [47] else [92, 47]
  | 8 => [92, 98]
  | 12 => [92, 102]
  | 10 => [92, 110]
  | 13 => [92, 114]
  | 9 => [92, 116]
  | 60 => if o.hexTag then [92, 117, 48, 48, 51, 67] else [60]
  | 62 => if o.hexTag then [92, 117, 48, 48, 51, 69] else [62]
  | 38 => if o.hexAmp then [92, 117, 48, 48, 50, 54] else [38]
  | 39 => if o.hexApos then [92, 117, 48, 48, 50, 55] else [39]
  | us =>
    if 32 ≤ us ∧ (o.unescapedUnicode = true ∨ us &&& 127 = us) then [us % 256]
    else [92, 117, hexDigit ((us &&& 0xf000) >>> 12), hexDigit ((us &&& 0xf00) >>> 8), hexDigit ((us &&& 0xf0) >>> 4),
      hexDigit (us &&& 0x0f)]

/-- A `char` as an `unsigned short`: the sign goes along. -/
def charUnit (b : Nat) : Nat := if b < 0x80 then b else 0xff00 + b

/-- `jsonEscapeString`; `numericText` is what a text of digits is written as with `numericCheck`. -/
def jsonEscapeString (numericText : List Nat → Option (List Nat)) (o : EscapeOptions) (s : List Nat) : List Nat :=
  if s = [] then [34, 34]
  else
    match if o.numericCheck then numericText s else none with
    | some text => text
    | none =>
      match utf8ToUtf16 s with
      | none => [110, 117, 108, 108]
      | some [] => [34, 34]
      | some utf16 => 34 :: (if o.unescapedUnicode then s.map charUnit else utf16).flatMap (escapeUnit o) ++ [34]

/-- `jsonDecode` from the bytes on. -/
def jsonDecodeText (core : Core) (depth : Nat) (assoc : Bool) (text : List Nat) : Option (Option Ref × Core) :=
  match utf8ToUtf16 text with
  | none => some (none, core)
  | some [] => some (none, core)
  | some utf16 => jsonDecode core depth assoc utf16

/-! ## From UTF-8 to UTF-16 -/

open Utf8

theorem nextUtf8Char_encodeChar (c : Char) (rest : List Nat) :
    nextUtf8Char (encodeChar c.toNat ++ rest) = some (c.toNat, rest) := by
  have hc := valid c
  generalize c.toNat = c at hc
  unfold encodeChar
  by_cases h1 : c < 0x80
  · rw [if_pos h1]
    exact if_pos h1
  by_cases h2 : c < 0x800
  · rw [if_neg h1, if_pos h2]
    have hchar : ((0xc0 + c / 0x40) &&& 0x1f) <<< 6 ||| (0x80 + c % 0x40) &&& 0x3f = c := by
      rw [and_1f, and_3f, or_shift_6 (Nat.mod_lt _ (by decide))]
      omega
    show nextUtf8Char ((0xc0 + c / 0x40) :: (0x80 + c % 0x40) :: rest) = _
    unfold nextUtf8Char
    dsimp only
    rw [if_neg (by omega), if_neg (by omega), if_pos (by omega)]
    rw [if_pos ⟨by omega, by omega⟩, hchar, if_neg (by omega)]
  by_cases h3 : c < 0x10000
  · rw [if_neg h1, if_neg h2, if_pos h3]
    have hchar : ((0xe0 + c / 0x1000) &&& 0x0f) <<< 12 ||| ((0x80 + c / 0x40 % 0x40) &&& 0x3f) <<< 6 |||
        (0x80 + c % 0x40) &&& 0x3f = c := by
      rw [and_0f, and_3f, and_3f, Nat.or_assoc, or_shift_6 (Nat.mod_lt _ (by decide)), or_shift_12 (by omega)]
      omega
    show nextUtf8Char ((0xe0 + c / 0x1000) :: (0x80 + c / 0x40 % 0x40) :: (0x80 + c % 0x40) :: rest) = _
    unfold nextUtf8Char
    dsimp only
    rw [if_neg (by omega), if_neg (by omega), if_neg (by omega), if_pos (by omega)]
    rw [if_pos ⟨⟨by omega, by omega⟩, by omega, by omega⟩, hchar, if_neg (by omega), if_neg (by omega)]
  · rw [if_neg h1, if_neg h2, if_neg h3]
    have hchar : ((0xf0 + c / 0x40000) &&& 0x07) <<< 18 ||| ((0x80 + c / 0x1000 % 0x40) &&& 0x3f) <<< 12 |||
        ((0x80 + c / 0x40 % 0x40) &&& 0x3f) <<< 6 ||| (0x80 + c % 0x40) &&& 0x3f = c := by
      rw [and_07, and_3f, and_3f, and_3f, Nat.or_assoc, or_shift_6 (Nat.mod_lt _ (by decide)), Nat.or_assoc,
        or_shift_12 (by omega), or_shift_18 (by omega)]
      omega
    show nextUtf8Char
      ((0xf0 + c / 0x40000) :: (0x80 + c / 0x1000 % 0x40) :: (0x80 + c / 0x40 % 0x40) :: (0x80 + c % 0x40) :: rest) = _
    unfold nextUtf8Char
    dsimp only
    rw [if_neg (by omega), if_neg (by omega), if_neg (by omega), if_neg (by omega), if_pos (by omega)]
    rw [if_pos ⟨⟨by omega, by omega⟩, ⟨by omega, by omega⟩, by omega, by omega⟩, hchar, if_neg (by omega)]

theorem encodeChar_ne_nil (c : Nat) : encodeChar c ≠ [] := by
  unfold encodeChar
  split_ifs <;> exact List.cons_ne_nil _ _

/-- **UTF-8 becomes UTF-16, character by character.** -/
theorem utf8ToUtf16_encodeChar (c : Char) (rest : List Nat) :
    utf8ToUtf16 (encodeChar c.toNat ++ rest) = (utf8ToUtf16 rest).map (units c.toNat ++ ·) := by
  have hc := valid c
  have hnext := nextUtf8Char_encodeChar c rest
  have hne : encodeChar c.toNat ++ rest ≠ [] := fun h => encodeChar_ne_nil _ (List.append_eq_nil_iff.1 h).1
  rw [utf8ToUtf16, if_neg hne]
  split
  · rename_i h
    rw [hnext] at h
    cases h
  · rename_i h
    rw [hnext] at h
    cases h
    unfold units
    by_cases hbig : c.toNat < 0x10000
    · rw [if_neg (by omega), if_pos hbig]
      rfl
    · rw [if_pos (by omega), if_neg hbig, Nat.shiftRight_eq_div_pow, and_3ff, or_d800 (by omega), or_dc00 (by omega)]
      rfl

theorem utf8ToUtf16_ascii {b : Nat} (hb : b < 0x80) (rest : List Nat) :
    utf8ToUtf16 (b :: rest) = (utf8ToUtf16 rest).map (b :: ·) := by
  have hnext : nextUtf8Char (b :: rest) = some (b, rest) := if_pos hb
  rw [utf8ToUtf16, if_neg (List.cons_ne_nil _ _)]
  split
  · rename_i h
    rw [hnext] at h
    cases h
  · rename_i h
    rw [hnext] at h
    cases h
    exact if_neg (by omega)

theorem utf8ToUtf16_append_ascii : ∀ {bs : List Nat} (rest : List Nat), (∀ b ∈ bs, b < 0x80) →
    utf8ToUtf16 (bs ++ rest) = (utf8ToUtf16 rest).map (bs ++ ·)
  | [], rest, _ => by simp
  | b :: bs, rest, hbs => by
    rw [List.cons_append, utf8ToUtf16_ascii (hbs b List.mem_cons_self),
      utf8ToUtf16_append_ascii rest fun d hd => hbs d (List.mem_cons_of_mem _ hd)]
    simp [Function.comp_def]

end Json
end ObjectScript
