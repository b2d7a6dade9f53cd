import ObjectScript.Lib.SelfDelimiting
import ObjectScript.Lib.Occurrences
import ObjectScript.Lib.Utf8
import ObjectScript.Strings.Sub
import ObjectScript.Strings.Split
/-!
# lenUtf8, subUtf8 and findUtf8

The functions count sequences: a byte, and behind one from `0xc0` on the bytes `0x80` to `0xbf` that follow.  Of a string that
is UTF-8 a sequence is a code point.

`words` are the sequences of a string as the functions see them.  That a string is UTF-8 is that its words are the
encodings of code points, and then counting, cutting and finding are those of lists of code points.
-/
namespace ObjectScript
namespace Strings

open Vm (StringBytes)
open SelfDelimiting (Code IsWord)
open Occurrences (At)

/-- A byte that is skipped behind the first of a sequence. -/
def continues (b : UInt8) : Bool := b &&& 0xc0 == 0x80

/-- `UTF8_SKIP_MULTI_BYTE_SEQUENCE` at the byte `b`, with `rest` between the next byte and the end. -/
def skipSequence (b : UInt8) (rest : List UInt8) : List UInt8 := if 0xc0 ≤ b then rest.dropWhile continues else rest

theorem length_skipSequence (b : UInt8) (rest : List UInt8) : (skipSequence b rest).length ≤ rest.length := by
  unfold skipSequence
  split
  · exact (List.dropWhile_suffix _).length_le
  · exact Nat.le_refl _

/-- The turns of a loop that skips sequences up to the end. -/
def countSequences : List UInt8 → Nat
  | [] => 0
  | b :: rest => countSequences (skipSequence b rest) + 1
termination_by string => string.length
decreasing_by
  have := length_skipSequence b rest
  simp only [List.length_cons]
  omega

def lengthUtf8 (str : StringBytes) : Nat := countSequences str.bytes

/-- The bytes left behind `n` sequences; there is no result past the end. -/
def skipSequences : Nat → List UInt8 → Option (List UInt8)
  | 0, string => some string
  | _ + 1, [] => none
  | n + 1, b :: rest => skipSequences n (skipSequence b rest)

def subUtf8 (str : StringBytes) (params : List Int32) : Option (List UInt8) :=
  (subParams (lengthUtf8 str) params).bind fun
    | .empty => some []
    | .whole => some str.bytes
    | .part start len => do
      let string ← skipSequences start str.bytes
      let curEnd ← skipSequences len string
      return string.take (string.length - curEnd.length)

/-- The first place from `i` on. -/
def findLoop (subject search : List UInt8) (i : Nat) : Option Nat :=
  if i + search.length ≤ subject.length then
    if matchesAt subject search i then some i else findLoop subject search (i + 1)
  else none
termination_by subject.length + 1 - i

/-- `none` is a call without a place to start at. -/
def find (subject search : StringBytes) (start : Option Int32) : Option Nat :=
  let i := (start.map Int32.toInt).getD 0
  if search.bytes ≠ [] ∧ search.bytes.length ≤ subject.bytes.length ∧ 0 ≤ i then
    findLoop subject.bytes search.bytes i.toNat
  else none

/-- The place that was found in sequences.  The loop skips no byte at or behind the place, so it ends there. -/
def findUtf8 (subject search : StringBytes) (start : Option Int32) : Option Nat :=
  (find subject search start).map fun pos => countSequences (subject.bytes.take pos)

/-! ## Code points are words of a code -/

/-- The bytes of a string are the encoding of code points. -/
def IsUtf8 (str : StringBytes) : Prop := ∃ cs : List Char, str.bytes.map UInt8.toNat = Utf8.encode cs

def utf8 : Code UInt8 where
  tail := continues
  tails b := if b.toNat < 0xc0 then 0 else if b.toNat < 0xe0 then 1 else if b.toNat < 0xf0 then 2 else 3

def sequence (c : Char) : List UInt8 := (Utf8.encodeChar c.toNat).map UInt8.ofNat

theorem continues_iff (b : UInt8) : continues b = true ↔ 0x80 ≤ b.toNat ∧ b.toNat < 0xc0 := by
  have hb := b.toNat_lt
  unfold continues
  rw [beq_iff_eq, ← UInt8.toNat_inj, UInt8.toNat_and]
  show b.toNat &&& 0xc0 = 0x80 ↔ _
  rw [Utf8.and_c0]
  omega

theorem continues_ofNat {n : Nat} (hge : 0x80 ≤ n) (hlt : n < 0xc0) : continues (UInt8.ofNat n) = true := by
  rw [continues_iff, UInt8.toNat_ofNat']
  omega

theorem isWord_sequence (c : Char) : IsWord utf8 (sequence c) := by
  have hc := Utf8.valid c
  have hword : ∀ (n k : Nat) (tail : List Nat), n < 256 → (n < 0x80 ∨ 0xc0 ≤ n) →
      (k = if n < 0xc0 then 0 else if n < 0xe0 then 1 else if n < 0xf0 then 2 else 3) → tail.length = k →
      (∀ m ∈ tail, 0x80 ≤ m ∧ m < 0xc0) → IsWord utf8 (UInt8.ofNat n :: tail.map UInt8.ofNat) := by
    intro n k tail hn hfirst hk hlen htail
    have hval : (UInt8.ofNat n).toNat = n := by rw [UInt8.toNat_ofNat']; omega
    refine IsWord.mk ?_ ?_ ?_
    · rw [← Bool.not_eq_true, show utf8.tail = continues from rfl, continues_iff, hval]
      omega
    · intro b hb
      obtain ⟨m, hm, rfl⟩ := List.mem_map.1 hb
      exact continues_ofNat (htail m hm).1 (htail m hm).2
    · rw [List.length_map, hlen, hk]
      show _ = if (UInt8.ofNat n).toNat < 0xc0 then 0 else _
      rw [hval]
  unfold sequence Utf8.encodeChar
  split
  · exact hword c.toNat 0 [] (by omega) (by omega) (by rw [if_pos (by omega)]) rfl (by simp)
  · split
    · exact hword _ 1 [_] (by omega) (by omega) (by rw [if_neg (by omega), if_pos (by omega)]) rfl (by simp; omega)
    · split
      · exact hword _ 2 [_, _] (by omega) (by omega)
          (by rw [if_neg (by omega), if_neg (by omega), if_pos (by omega)]) rfl (by simp; omega)
      · exact hword _ 3 [_, _, _] (by omega) (by omega)
          (by rw [if_neg (by omega), if_neg (by omega), if_neg (by omega)]) rfl (by simp; omega)

theorem IsUtf8.words {str : StringBytes} (h : IsUtf8 str) : ∃ ws : List (List UInt8), (∀ w ∈ ws, IsWord utf8 w) ∧
    str.bytes = ws.flatten := by
  obtain ⟨cs, hcs⟩ := h
  refine ⟨cs.map sequence, ?_, ?_⟩
  · intro w hw
    obtain ⟨c, -, rfl⟩ := List.mem_map.1 hw
    exact isWord_sequence c
  · have hback : (str.bytes.map UInt8.toNat).map UInt8.ofNat = str.bytes := by
      rw [List.map_map]
      exact (List.map_congr_left fun b _ => UInt8.ofNat_toNat).trans (List.map_id _)
    rw [← hback, hcs, Utf8.encode, List.map_flatMap, List.flatMap_def]
    rfl

/-! ## Skipping -/

variable {ws : List (List UInt8)} {w : List UInt8}

theorem skipSequence_word {b : UInt8} {bs rest : List UInt8} (hw : IsWord utf8 (b :: bs))
    (hrest : ∀ c ∈ rest.head?, utf8.tail c = false) : skipSequence b (bs ++ rest) = rest := by
  cases hw with
  | mk hb hbs hlen =>
    unfold skipSequence
    split
    · exact SelfDelimiting.dropWhile_tail hbs hrest
    · rename_i hlow
      have hzero : bs.length = 0 := by
        rw [hlen]
        exact if_pos (by rw [UInt8.le_iff_toNat_le] at hlow; simpa using hlow)
      rw [List.length_eq_zero_iff.1 hzero]
      rfl

theorem countSequences_flatten : ∀ {ws : List (List UInt8)}, (∀ w ∈ ws, IsWord utf8 w) →
    countSequences ws.flatten = ws.length
  | [], _ => by rw [List.flatten_nil, countSequences]; rfl
  | [] :: ws, h => absurd rfl (h [] List.mem_cons_self).ne_nil
  | (b :: bs) :: ws, h => by
    have hws : ∀ w ∈ ws, IsWord utf8 w := fun w hw => h w (List.mem_cons_of_mem _ hw)
    rw [List.flatten_cons, List.cons_append, countSequences,
      skipSequence_word (h _ List.mem_cons_self) (SelfDelimiting.head_flatten hws), countSequences_flatten hws,
      List.length_cons]

theorem skipSequences_flatten : ∀ {n : Nat} {ws : List (List UInt8)}, (∀ w ∈ ws, IsWord utf8 w) → n ≤ ws.length →
    skipSequences n ws.flatten = some (ws.drop n).flatten
  | 0, _, _, _ => by rw [skipSequences, List.drop_zero]
  | n + 1, [], _, hn => absurd hn (Nat.not_succ_le_zero n)
  | n + 1, [] :: ws, h, _ => absurd rfl (h [] List.mem_cons_self).ne_nil
  | n + 1, (b :: bs) :: ws, h, hn => by
    have hws : ∀ w ∈ ws, IsWord utf8 w := fun w hw => h w (List.mem_cons_of_mem _ hw)
    rw [List.flatten_cons, List.cons_append, skipSequences,
      skipSequence_word (h _ List.mem_cons_self) (SelfDelimiting.head_flatten hws),
      skipSequences_flatten hws (Nat.le_of_succ_le_succ hn), List.drop_succ_cons]

/-- **`subUtf8` takes a part of the code points.** -/
theorem subUtf8_flatten {str : StringBytes} (hws : ∀ w ∈ ws, IsWord utf8 w) (hstr : str.bytes = ws.flatten)
    (params : List Int32) :
    subUtf8 str params = (subParams ws.length params).map fun part => (part.elements ws).flatten := by
  unfold subUtf8 lengthUtf8
  rw [hstr, countSequences_flatten hws]
  cases hpart : subParams (ws.length : Int) params with
  | none => rfl
  | some part =>
    cases part with
    | empty | whole => rfl
    | part start len =>
      have hle := le_of_subParams hpart
      have hdrop : ∀ w ∈ ws.drop start, IsWord utf8 w := fun w hw => hws w (List.mem_of_mem_drop hw)
      have hlen : len ≤ (ws.drop start).length := by rw [List.length_drop]; omega
      have hsplit : (ws.drop start).flatten = ((ws.drop start).take len).flatten ++ ((ws.drop start).drop len).flatten := by
        rw [← List.flatten_append, List.take_append_drop]
      rw [Option.bind_some]
      dsimp only
      rw [skipSequences_flatten hws (by omega), Option.bind_eq_bind, Option.bind_some, skipSequences_flatten hdrop hlen,
        Option.bind_some, Option.map_some]
      congr 1
      rw [hsplit, List.length_append, Nat.add_sub_cancel, List.take_left]
      rfl

/-- From a place on, no further than the first sequence behind it. -/
theorem subUtf8_part {str : StringBytes} (hws : ∀ w ∈ ws, IsWord utf8 w) (hstr : str.bytes = ws.flatten) {i n : Nat}
    (hle : i + n ≤ ws.length) :
    subUtf8 str [Int32.ofNat i, Int32.ofNat n] = some ((ws.drop i).take n).flatten := by
  have hshort : ws.length < 2 ^ 31 := by
    have hcount := SelfDelimiting.length_le_flatten hws
    have hbytes := str.length_lt
    rw [hstr] at hbytes
    omega
  have hi : (Int32.ofNat i).toInt = i := Int32.toInt_ofNat_of_lt (by omega)
  have hn : (Int32.ofNat n).toInt = n := Int32.toInt_ofNat_of_lt (by omega)
  have hpart := subPart_eq ws i n hshort (by omega) (by omega)
  have hin : sliceStart (ws.length : Int) i = i := by
    unfold sliceStart
    rw [if_neg (by omega)]
  have hover : ¬EndOverflows (ws.length : Int) i n := by
    intro h
    have h2 := h.2
    rw [hin] at h2
    omega
  have hslice : slice ws i n = (ws.drop i).take n := by
    rw [slice_eq, sliceEnd, hin, if_pos (by omega), window, Int.toNat_natCast]
    congr 1
    omega
  rw [if_neg hover, hslice] at hpart
  obtain ⟨part, hpart, hpartelems⟩ := Option.map_eq_some_iff.1 hpart
  rw [subUtf8_flatten hws hstr, subParams, hi, hn, hpart, Option.map_some, hpartelems]

theorem findLoop_some (subject search : List UInt8) (i : Nat) : ∀ {pos : Nat}, findLoop subject search i = some pos →
    At subject search pos := by
  fun_induction findLoop subject search i with
  | case1 i hin hmatch =>
    intro pos h
    cases h
    exact matchesAt_iff.1 hmatch
  | case2 i hin hno ih => exact ih
  | case3 i hout =>
    intro pos h
    cases h

theorem findLoop_isSome (subject search : List UInt8) (i : Nat) : ∀ {j : Nat}, i ≤ j → At subject search j →
    j + search.length ≤ subject.length → ∃ pos, findLoop subject search i = some pos := by
  fun_induction findLoop subject search i with
  | case1 i hin hmatch => exact fun _ _ _ => ⟨i, rfl⟩
  | case2 i hin hno ih =>
    intro j hle hat hj
    rcases Nat.eq_or_lt_of_le hle with rfl | hlt
    · exact absurd (matchesAt_iff.2 hat) hno
    · exact ih hlt hat hj
  | case3 i hout =>
    intro j hle hat hj
    omega

/-- **What is found of code points stands at a code point.** -/
theorem findUtf8_some {s t : StringBytes} {ws vs : List (List UInt8)} (hws : ∀ w ∈ ws, IsWord utf8 w)
    (hvs : ∀ v ∈ vs, IsWord utf8 v) (hs : s.bytes = ws.flatten) (ht : t.bytes = vs.flatten) (hne : t.bytes ≠ [])
    (hin : t.bytes <:+: s.bytes) :
    ∃ pre post, ws = pre ++ vs ++ post ∧ findUtf8 s t none = some pre.length := by
  obtain ⟨j, hj⟩ := Occurrences.infix_iff_at.1 hin
  have hjle := hj.le_length hne
  obtain ⟨pos, hfound⟩ := findLoop_isSome s.bytes t.bytes 0 (Nat.zero_le j) hj hjle
  have hdrop := (findLoop_some s.bytes t.bytes 0 hfound).drop_eq
  -- the first byte of `t` is no continuation, so `pos` is where a code point of `s` starts
  obtain ⟨b, rest, hb⟩ := List.exists_cons_of_ne_nil hne
  have hfirst : utf8.tail b = false := by
    refine SelfDelimiting.head_flatten hvs b ?_
    rw [← ht, hb]
    rfl
  rw [hs] at hdrop
  obtain ⟨pre, tailWords, rfl, hpos⟩ := SelfDelimiting.boundary hws (by rw [hdrop, hb]; rfl) hfirst
  rw [List.flatten_append, ← hpos, List.drop_left, ht] at hdrop
  obtain ⟨post, rfl⟩ := SelfDelimiting.words_prefix hvs (fun w hw => hws w (List.mem_append_right pre hw)) hdrop.symm
  refine ⟨pre, post, (List.append_assoc _ _ _).symm, ?_⟩
  have hfind : find s t none = some pos := by
    unfold find
    rw [if_pos ⟨hne, by omega, Int.le_refl 0⟩]
    exact hfound
  have htake : s.bytes.take pos = pre.flatten := by rw [hs, List.flatten_append, ← hpos, List.take_left]
  rw [findUtf8, hfind, Option.map_some, htake, countSequences_flatten fun w hw => hws w (List.mem_append_left _ hw)]

/-- **The code points of a string, taken one by one, make up the string; and what `findUtf8` finds is taken by `subUtf8`.** -/
theorem subUtf8_laws (s : StringBytes) (hs : IsUtf8 s) :
    (∃ parts : List (List UInt8), parts.flatten = s.bytes ∧
      (List.range (lengthUtf8 s)).map (fun i => subUtf8 s [Int32.ofNat i, 1]) = parts.map some) ∧
    ∀ t : StringBytes, IsUtf8 t → t.bytes ≠ [] → t.bytes <:+: s.bytes →
      ∃ pos, findUtf8 s t none = some pos ∧
        subUtf8 s [Int32.ofNat pos, Int32.ofNat (lengthUtf8 t)] = some t.bytes := by
  obtain ⟨ws, hws, hsbytes⟩ := hs.words
  have hlen : lengthUtf8 s = ws.length := by rw [lengthUtf8, hsbytes, countSequences_flatten hws]
  constructor
  · refine ⟨ws, hsbytes.symm, List.ext_getElem (by simp [hlen]) ?_⟩
    intro i hi hi'
    have hiw : i < ws.length := by simpa using hi'
    rw [List.getElem_map, List.getElem_map, List.getElem_range]
    show subUtf8 s [Int32.ofNat i, Int32.ofNat 1] = _
    rw [subUtf8_part hws hsbytes (by omega), List.drop_eq_getElem_cons hiw, List.take_succ_cons, List.take_zero,
      List.flatten_cons, List.flatten_nil, List.append_nil]
  · intro t ht hne hin
    obtain ⟨vs, hvs, htbytes⟩ := ht.words
    obtain ⟨pre, post, rfl, hfind⟩ := findUtf8_some hws hvs hsbytes htbytes hne hin
    refine ⟨pre.length, hfind, ?_⟩
    have hlent : lengthUtf8 t = vs.length := by rw [lengthUtf8, htbytes, countSequences_flatten hvs]
    rw [hlent, subUtf8_part hws hsbytes (by simp), List.append_assoc, List.drop_left, List.take_left, htbytes]

/-- `"бв"` in `"aбв"`. -/
theorem subUtf8_laws_letters :
    ∃ pos, findUtf8 ⟨[0x61, 0xd0, 0xb1, 0xd0, 0xb2], by decide⟩ ⟨[0xd0, 0xb1, 0xd0, 0xb2], by decide⟩ none = some pos ∧
      subUtf8 ⟨[0x61, 0xd0, 0xb1, 0xd0, 0xb2], by decide⟩
        [Int32.ofNat pos, Int32.ofNat (lengthUtf8 ⟨[0xd0, 0xb1, 0xd0, 0xb2], by decide⟩)] =
          some [0xd0, 0xb1, 0xd0, 0xb2] := by
  have hs : IsUtf8 ⟨[0x61, 0xd0, 0xb1, 0xd0, 0xb2], by decide⟩ := ⟨['a', 'б', 'в'], by decide⟩
  have ht : IsUtf8 ⟨[0xd0, 0xb1, 0xd0, 0xb2], by decide⟩ := ⟨['б', 'в'], by decide⟩
  exact (subUtf8_laws _ hs).2 _ ht (List.cons_ne_nil _ _) (List.suffix_cons _ _).isInfix

end Strings
end ObjectScript
