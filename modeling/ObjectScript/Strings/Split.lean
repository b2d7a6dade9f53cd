import ObjectScript.Lib.Occurrences
import ObjectScript.Vm.UnpackSafety
/-!
# split, replace and join

`split` and `replace` look for the places of a string one byte after the other, and go on behind a place that was found;
`join` puts strings behind each other.  A `Buffer` is its bytes, of which there are no more than an `int` counts.

The loop of `split` is described by `SplitOk`, which says of its result what the claim needs without the positions it
went over.  `replace` is the same loop with the parts put together at once.
-/
namespace ObjectScript
namespace Strings

open Vm (StringBytes INT_MAX)
open Occurrences (At)

def fits (bytes : List UInt8) : Option (List UInt8) := if bytes.length < 2 ^ 31 then some bytes else none

def append (buf : Option (List UInt8)) (bytes : List UInt8) : Option (List UInt8) := buf.bind fun buf => fits (buf ++ bytes)

/-- `OS_MEMCMP` of the bytes from `i` on. -/
def matchesAt (subject search : List UInt8) (i : Nat) : Bool := (subject.drop i).take search.length == search

/-- Where the loop of `split` stops: the array, the start of the last part and whether the string was found. -/
structure SplitEnd where
  parts : List (List UInt8)
  start : Nat
  found : Bool
deriving DecidableEq

def splitLoop (subject search : List UInt8) (maxCount : Int) (hne : search ≠ []) (i start count : Nat) (found : Bool)
    (parts : List (List UInt8)) : SplitEnd :=
  if i + search.length ≤ subject.length then
    if matchesAt subject search i then
      let parts := parts ++ [(subject.drop start).take (i - start)]
      if maxCount ≤ ((count + 1 : Nat) : Int) + 1 then ⟨parts, i + search.length, true⟩
      else splitLoop subject search maxCount hne (i + search.length) (i + search.length) (count + 1) true parts
    else splitLoop subject search maxCount hne (i + 1) start count found parts
  else ⟨parts, start, found⟩
termination_by subject.length - i
decreasing_by
  · have := List.length_pos_iff.2 hne
    omega
  · have := List.length_pos_iff.2 hne
    omega

/-- `none` is a call without a limit. -/
def maxCount : Option Int32 → Int
  | some limit => limit.toInt
  | none => INT_MAX

def split (subject search : StringBytes) (limit : Option Int32) : List (List UInt8) :=
  if h : search.bytes ≠ [] ∧ search.bytes.length ≤ subject.bytes.length then
    if 1 < maxCount limit then
      let e := splitLoop subject.bytes search.bytes (maxCount limit) h.1 0 0 0 false []
      if e.found then e.parts ++ [subject.bytes.drop e.start] else [subject.bytes]
    else [subject.bytes]
  else [subject.bytes]

/-- Where the loop of `replace` stops. -/
structure ReplaceEnd where
  buf : Option (List UInt8)
  start : Nat
  found : Bool

def replaceLoop (subject search replace : List UInt8) (hne : search ≠ []) (i start : Nat) (found : Bool)
    (buf : Option (List UInt8)) : ReplaceEnd :=
  if i + search.length ≤ subject.length then
    if matchesAt subject search i then
      let buf := append (append buf ((subject.drop start).take (i - start))) replace
      replaceLoop subject search replace hne (i + search.length) (i + search.length) true buf
    else replaceLoop subject search replace hne (i + 1) start found buf
  else ⟨buf, start, found⟩
termination_by subject.length - i
decreasing_by
  · have := List.length_pos_iff.2 hne
    omega
  · have := List.length_pos_iff.2 hne
    omega

def replace (subject search replace : StringBytes) : Option (List UInt8) :=
  if h : search.bytes ≠ [] ∧ search.bytes.length ≤ subject.bytes.length then
    let e := replaceLoop subject.bytes search.bytes replace.bytes h.1 0 0 false (some [])
    if e.found then append e.buf (subject.bytes.drop e.start) else some subject.bytes
  else some subject.bytes

/-- The values from the `i`th on are put behind the buffer, each but the very first with `str` in front. -/
def joinLoop (str : List UInt8) : Nat → Option (List UInt8) → List (List UInt8) → Option (List UInt8)
  | _, buf, [] => buf
  | i, buf, value :: values =>
    joinLoop str (i + 1) (append (if 0 < i then append buf str else buf) value) values

def join (values : List (List UInt8)) (str : List UInt8) : Option (List UInt8) := joinLoop str 0 (some []) values

/-! ## Buffers -/

/-- What a list of parts gives, each with `str` behind it. -/
def followed (str : List UInt8) (parts : List (List UInt8)) : List UInt8 := parts.flatMap (· ++ str)

theorem followed_concat (str : List UInt8) (parts : List (List UInt8)) (part : List UInt8) :
    followed str (parts ++ [part]) = followed str parts ++ (part ++ str) := by
  simp [followed]

theorem matchesAt_iff {subject search : List UInt8} {i : Nat} : matchesAt subject search i = true ↔ At subject search i :=
  beq_iff_eq.trans Occurrences.at_iff_take.symm

/-! ## The loop of split -/

/-- What the loop of `split` keeps: the parts and what is left make up the subject, none of them holds the search string, and
no place of it lies between the start of the part and `i`. -/
structure SplitInv (subject search : List UInt8) (i start count : Nat) (found : Bool) (parts : List (List UInt8)) : Prop where
  joined : followed search parts ++ subject.drop start = subject
  apart : ∀ part ∈ parts, ¬search <:+: part
  count : parts.length = count
  found : found = true ↔ parts ≠ []
  le : start ≤ i
  between : ∀ k, start ≤ k → k < i → ¬At subject search k

variable {subject search : List UInt8} {i start count : Nat} {found : Bool} {parts : List (List UInt8)}

theorem SplitInv.skip (h : SplitInv subject search i start count found parts) (hno : ¬matchesAt subject search i = true) :
    SplitInv subject search (i + 1) start count found parts where
  joined := h.joined
  apart := h.apart
  count := h.count
  found := h.found
  le := Nat.le_succ_of_le h.le
  between k hle hlt := by
    rcases Nat.lt_succ_iff_lt_or_eq.1 hlt with hlt | rfl
    · exact h.between k hle hlt
    · exact fun hat => hno (matchesAt_iff.2 hat)

theorem SplitInv.take (hne : search ≠ []) (h : SplitInv subject search i start count found parts)
    (hmatch : matchesAt subject search i = true) :
    SplitInv subject search (i + search.length) (i + search.length) (count + 1) true
      (parts ++ [(subject.drop start).take (i - start)]) where
  joined := by
    have hat := matchesAt_iff.1 hmatch
    rw [followed_concat, List.append_assoc, List.append_assoc, ← hat.drop_eq,
      Occurrences.take_append_drop_of_le h.le, h.joined]
  apart part hpart := by
    rcases List.mem_append.1 hpart with hpart | hpart
    · exact h.apart part hpart
    · rw [List.mem_singleton.1 hpart]
      exact Occurrences.not_infix_between hne h.between
  count := by rw [List.length_append, h.count]; rfl
  found := by simp
  le := Nat.le_refl _
  between k hle hlt := absurd (Nat.lt_of_le_of_lt hle hlt) (Nat.lt_irrefl _)

theorem length_lt (s : StringBytes) : s.bytes.length < 2 ^ 31 := Nat.lt_of_le_of_lt (Nat.le_add_right _ 8) s.length_lt

example : split ⟨[97, 88, 98, 88, 99], by decide⟩ ⟨[88], by decide⟩ (some 2) = [[97], [98, 88, 99]] := by
  simp [split, maxCount, splitLoop, matchesAt]

end Strings
end ObjectScript
