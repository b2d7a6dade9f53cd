import ObjectScript.Core.StringRefs
/-!
# url.encode and url.decode

The encoder writes a byte as itself, as `+` or as `%` and two digits.  The decoder looks two bytes ahead behind a `%`; it walks
over positions of the string, each read is checked against its end, and `decodeLoop_eq` says what is behind a position.

Encoding is a map over bytes.  For the decoder a position stands for the rest of the string, so that the loop becomes a
recursion over the rest, and `url_codec` an induction over the bytes that were encoded.
-/
namespace ObjectScript
namespace UrlOS

open ObjectScript.Core (Bytes)

/-- The digit a character stands for, zero for any other; a byte from 128 on is below all of them as an `OS_CHAR`. -/
def decodeHexChar (c : UInt8) : Nat :=
  if 48 ≤ c ∧ c ≤ 57 then c.toNat - 48
  else if 65 ≤ c ∧ c ≤ 70 then 10 + c.toNat - 65
  else if 97 ≤ c ∧ c ≤ 102 then 10 + c.toNat - 97
  else 0

def hexByte (hi lo : UInt8) : UInt8 := UInt8.ofNat (decodeHexChar hi * 16 + decodeHexChar lo)

/-- `decodeHexCode` of the bytes of `str` from `s` on, `none` for a read outside of the string. -/
def decodeHexCode (str : Bytes) (s : Nat) : Option UInt8 := do
  let hi ← str[s]?
  let lo ← str[s + 1]?
  return hexByte hi lo

/-- `"0123456789ABCDEF"` -/
def HEX_DIGITS : Bytes := [48, 49, 50, 51, 52, 53, 54, 55, 56, 57, 65, 66, 67, 68, 69, 70]

/-- The digits, the letters and `-_.~`. -/
def isLiteral (c : UInt8) : Bool :=
  (48 ≤ c && c ≤ 57) || (65 ≤ c && c ≤ 90) || (97 ≤ c && c ≤ 122) || c == 45 || c == 95 || c == 46 || c == 126

/-- What a turn of the loop of `encode` appends. -/
def encodeChar (c : UInt8) : Bytes :=
  if isLiteral c then [c]
  else if c = 32 then [43]
  else [37, HEX_DIGITS.getD ((c.toNat >>> 4) &&& 0xf) 0, HEX_DIGITS.getD ((c.toNat >>> 0) &&& 0xf) 0]

/-- `url.encode`: the values it returns. -/
def encode : List Bytes → List Bytes
  | str :: _ => [str.foldl (fun buf c => buf ++ encodeChar c) []]
  | [] => []

/-- A turn of the loop of `decode` at `s`: where it leaves `s`, and what it appends. -/
def decodeTurn (str : Bytes) (s : Nat) : Option (Nat × Bytes) := do
  let c ← str[s]?
  if c = 37 then
    -- a truncated escape is left out, and `s` passes the end
    if s + 3 ≤ str.length then return (s + 3, [← decodeHexCode str (s + 1)])
    else return (s + 3, [])
  else if c = 43 then return (s + 1, [32])
  else return (s + 1, [c])

/-- `for(; s < end;)`, `none` for a read outside of the string and where the turns do not suffice. -/
def decodeLoop (str : Bytes) : Nat → Nat → Bytes → Option Bytes
  | 0, s, buf => if s < str.length then none else some buf
  | turns + 1, s, buf =>
    if s < str.length then do
      let (s, bytes) ← decodeTurn str s
      decodeLoop str turns s (buf ++ bytes)
    else some buf

/-- `url.decode`: the values it returns. -/
def decode : List Bytes → Option (List Bytes)
  | str :: _ => (decodeLoop str str.length 0 []).map fun buf => [buf]
  | [] => some []

def decoded : Bytes → Bytes
  | [] => []
  | c :: rest =>
    if c = 37 then
      match rest with
      | hi :: lo :: rest => hexByte hi lo :: decoded rest
      | _ => []
    else if c = 43 then 32 :: decoded rest
    else c :: decoded rest

theorem decoded_plus (rest : Bytes) : decoded (43 :: rest) = 32 :: decoded rest := by
  rw [decoded.eq_def]
  rfl

theorem decoded_literal {c : UInt8} (hpercent : c ≠ 37) (hplus : c ≠ 43) (rest : Bytes) :
    decoded (c :: rest) = c :: decoded rest := by
  rw [decoded.eq_def]
  dsimp only
  rw [if_neg hpercent, if_neg hplus]

theorem decoded_escape (hi lo : UInt8) (rest : Bytes) : decoded (37 :: hi :: lo :: rest) = hexByte hi lo :: decoded rest := rfl

theorem decoded_truncated {rest : Bytes} (h : rest.length < 2) : decoded (37 :: rest) = [] := by
  match rest with
  | [] => rfl
  | [_] => rfl
  | _ :: _ :: rest => exact absurd h (by simp)

/-! ## The decoder -/

/-- Inside the string a turn has a result: it moves `s` on and takes what is behind `s` apart. -/
theorem decodeTurn_some {str : Bytes} {s : Nat} (h : s < str.length) :
    ∃ s' bytes, decodeTurn str s = some (s', bytes) ∧ s < s' ∧ decoded (str.drop s) = bytes ++ decoded (str.drop s') := by
  have hget : str[s]? = some str[s] := List.getElem?_eq_getElem h
  have hdrop : str.drop s = str[s] :: str.drop (s + 1) := List.drop_eq_getElem_cons h
  unfold decodeTurn
  rw [hget, hdrop]
  generalize str[s] = c
  by_cases hpercent : c = 37
  · subst hpercent
    by_cases hin : s + 3 ≤ str.length
    · have hhi : s + 1 < str.length := by omega
      have hlo : s + 1 + 1 < str.length := by omega
      have hcode : decodeHexCode str (s + 1) = some (hexByte str[s + 1] str[s + 1 + 1]) := by
        unfold decodeHexCode
        rw [List.getElem?_eq_getElem hhi, List.getElem?_eq_getElem hlo]
        rfl
      refine ⟨s + 3, [hexByte str[s + 1] str[s + 1 + 1]], ?_, by omega, ?_⟩
      · simp [hin, hcode]
      · rw [List.drop_eq_getElem_cons hhi, List.drop_eq_getElem_cons hlo, decoded_escape]
        rfl
    · refine ⟨s + 3, [], by simp [hin], by omega, ?_⟩
      have hshort : (str.drop (s + 1)).length < 2 := by
        rw [List.length_drop]
        omega
      rw [decoded_truncated hshort, List.drop_of_length_le (by omega)]
      rfl
  · by_cases hplus : c = 43
    · subst hplus
      exact ⟨s + 1, [32], by simp, Nat.lt_succ_self s, decoded_plus _⟩
    · exact ⟨s + 1, [c], by simp [hpercent, hplus], Nat.lt_succ_self s, decoded_literal hpercent hplus _⟩

/-- **The loop ends, reads inside the string only, and appends what the rest of the string is decoded to.** -/
theorem decodeLoop_eq (str : Bytes) {turns s : Nat} (h : str.length ≤ s + turns) (buf : Bytes) :
    decodeLoop str turns s buf = some (buf ++ decoded (str.drop s)) := by
  induction turns generalizing s buf with
  | zero =>
    have hend : str.length ≤ s := h
    rw [decodeLoop, if_neg (Nat.not_lt.2 hend), List.drop_of_length_le hend, decoded, List.append_nil]
  | succ turns ih =>
    rw [decodeLoop]
    split
    · rename_i hlt
      obtain ⟨s', bytes, hturn, hmove, hdecoded⟩ := decodeTurn_some hlt
      rw [hturn, hdecoded, ← List.append_assoc]
      exact ih (by omega) (buf ++ bytes)
    · rename_i hend
      rw [List.drop_of_length_le (Nat.not_lt.1 hend), decoded, List.append_nil]

theorem decode_cons (str : Bytes) (params : List Bytes) : decode (str :: params) = some [decoded str] := by
  rw [decode, decodeLoop_eq str (Nat.le_add_left _ _), List.drop_zero]
  rfl

/-! ## There and back -/

theorem decodeHexChar_digit : ∀ d < 16, decodeHexChar (HEX_DIGITS.getD d 0) = d := by decide

theorem hexByte_digits (c : UInt8) :
    hexByte (HEX_DIGITS.getD ((c.toNat >>> 4) &&& 0xf) 0) (HEX_DIGITS.getD ((c.toNat >>> 0) &&& 0xf) 0) = c := by
  have hlt := c.toNat_lt
  have hhi : (c.toNat >>> 4) &&& 0xf = c.toNat / 16 := by
    rw [Nat.shiftRight_eq_div_pow, show (0xf : Nat) = 2 ^ 4 - 1 from rfl, Nat.and_two_pow_sub_one_eq_mod]
    omega
  have hlo : (c.toNat >>> 0) &&& 0xf = c.toNat % 16 := by
    rw [Nat.shiftRight_zero, show (0xf : Nat) = 2 ^ 4 - 1 from rfl, Nat.and_two_pow_sub_one_eq_mod]
  have hsum : c.toNat / 16 * 16 + c.toNat % 16 = c.toNat := by omega
  unfold hexByte
  rw [hhi, hlo, decodeHexChar_digit _ (by omega), decodeHexChar_digit _ (by omega), hsum]
  exact UInt8.ofNat_toNat

theorem ne_of_isLiteral {c : UInt8} (h : isLiteral c = true) : c ≠ 37 ∧ c ≠ 43 := by
  constructor
  · rintro rfl
    exact absurd h (by decide)
  · rintro rfl
    exact absurd h (by decide)

theorem decoded_encodeChar (c : UInt8) (rest : Bytes) : decoded (encodeChar c ++ rest) = c :: decoded rest := by
  unfold encodeChar
  by_cases hliteral : isLiteral c = true
  · rw [if_pos hliteral]
    exact decoded_literal (ne_of_isLiteral hliteral).1 (ne_of_isLiteral hliteral).2 rest
  · rw [if_neg hliteral]
    by_cases hspace : c = 32
    · rw [if_pos hspace, hspace]
      exact decoded_plus rest
    · rw [if_neg hspace]
      apply (decoded_escape _ _ rest).trans
      rw [hexByte_digits]

theorem decoded_foldl (str : Bytes) : ∀ buf, ∃ text, str.foldl (fun buf c => buf ++ encodeChar c) buf = buf ++ text ∧
    decoded text = str := by
  induction str with
  | nil => exact fun buf => ⟨[], (List.append_nil buf).symm, rfl⟩
  | cons c str ih =>
    intro buf
    obtain ⟨text, hfold, htext⟩ := ih (buf ++ encodeChar c)
    refine ⟨encodeChar c ++ text, ?_, ?_⟩
    · rw [List.foldl_cons, hfold, List.append_assoc]
    · rw [decoded_encodeChar, htext]

theorem decode_encode (str : Bytes) : decode (encode [str]) = some [str] := by
  obtain ⟨text, hfold, htext⟩ := decoded_foldl str []
  rw [encode, hfold, decode_cons]
  exact congrArg (fun s => some [s]) htext

/-- **Decoding undoes encoding, and decodes any string with reads inside of it only.** -/
theorem url_codec : (∀ s : Bytes, decode (encode [s]) = some [s]) ∧ ∀ t : Bytes, ∃ bytes, decode [t] = some [bytes] :=
  ⟨decode_encode, fun t => ⟨decoded t, decode_cons t []⟩⟩

example : decode [[97, 43, 37, 52, 49, 37, 52]] = some [[97, 32, 65]] := by decide

end UrlOS
end ObjectScript
