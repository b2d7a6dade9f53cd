import Mathlib.Data.List.Perm.Lattice
import Mathlib.Tactic.Common
import ObjectScript.Core.Value
/-!
# Interned strings

Two strings are compared by their addresses, so there may be one string only for each content.  `pushStringValue` looks the
content up in the table `string_refs` before it makes a string, and clearing a string takes it out of the table.  The content
comes in one buffer, in two or in three, and its hash is computed over the buffers as they are; `keyToHash_append` says that
the way it is split does not matter.

Nothing reads a chain of the table out of its order, so the chains are lists.  A collection is not part of
`pushStringValue` here: the strings it clears are operations before it.  Sizes have no bound here; the hash with the `int`
sizes of the buffers is in `SplitHash`.
-/
namespace ObjectScript
namespace Core

abbrev Bytes := List UInt8

/-! ## Hashes -/

/-- `OS_STR_HASH_START_VALUE` -/
def strHashStart : Nat := 5381

/-- `OS_ADD_STR_HASH_VALUE`, the hash as the bits of its `int`. -/
def addStrHash (hash : Nat) (b : UInt8) : Nat := (hash * 2 ^ 5 + hash + b.toNat) % 2 ^ 32

/-- `for(; buf < end; buf += step)` from `pos` on: where the loop leaves `buf`, and the hash. -/
def hashLoop (step : Nat) (buf : Bytes) : Nat → Nat → Nat → Nat × Nat
  | 0, pos, hash => (pos, hash)
  | fuel + 1, pos, hash =>
    match buf[pos]? with
    | some b => hashLoop step buf fuel (pos + step) (addStrHash hash b)
    | none => (pos, hash)

def hashStep (size : Nat) : Nat := (size >>> 5) + 1

/-- `keyToHash` of one buffer. -/
def keyToHash (buf : Bytes) : Nat := (hashLoop (hashStep buf.length) buf buf.length 0 strHashStart).2

/-- `keyToHash` of two buffers. -/
def keyToHash2 (buf1 buf2 : Bytes) : Nat :=
  if 0 < buf2.length then
    let step := hashStep (buf1.length + buf2.length)
    let (pos, hash) := hashLoop step buf1 buf1.length 0 strHashStart
    (hashLoop step buf2 buf2.length (pos - buf1.length) hash).2
  else keyToHash buf1

/-! ## The table -/

structure GCStringValue where
  hash : Nat
  data : Bytes
deriving DecidableEq, Repr

/-- `isEqual` of two buffers. -/
def GCStringValue.isEqual (s : GCStringValue) (hash : Nat) (buf1 buf2 : Bytes) : Bool :=
  s.hash == hash && s.data.length == buf1.length + buf2.length && s.data.take buf1.length == buf1 &&
    (buf2.isEmpty || s.data.drop buf1.length == buf2)

structure StringRefs where
  /-- No heads are the null pointer. -/
  heads : List (List Ref)
  headMask : Nat
  count : Nat
deriving DecidableEq, Repr

structure Strings where
  string : Ref → Option GCStringValue
  nextId : Nat
  refs : StringRefs

namespace Strings

def link (string : Ref → Option GCStringValue) (headMask : Nat) (heads : List (List Ref)) (r : Ref) :
    Option (List (List Ref)) := do
  let str ← string r
  some (heads.modify (str.hash &&& headMask) (r :: ·))

/-- The growth of `registerStringRef`: every string goes to its new chain. -/
def grow (s : Strings) : Option StringRefs :=
  if s.refs.headMask ≤ s.refs.count then do
    let newSize := if s.refs.heads.isEmpty then 32 else (s.refs.headMask + 1) * 2
    let heads ← s.refs.heads.flatten.foldlM (link s.string (newSize - 1)) (List.replicate newSize [])
    some { s.refs with heads := heads, headMask := newSize - 1 }
  else some s.refs

def registerStringRef (s : Strings) (r : Ref) : Option Strings := do
  let refs ← s.grow
  let heads ← link s.string refs.headMask refs.heads r
  some { s with refs := { refs with heads := heads, count := refs.count + 1 } }

def unregisterStringRef (s : Strings) (r : Ref) : Option Strings := do
  let str ← s.string r
  let slot := str.hash &&& s.refs.headMask
  let chain ← s.refs.heads[slot]?
  if r ∈ chain then
    some { s with refs := { s.refs with heads := s.refs.heads.set slot (chain.erase r), count := s.refs.count - 1 } }
  else none

/-- `clearValue` of a string. -/
def clearValue (s : Strings) (r : Ref) : Option Strings := do
  let s ← s.unregisterStringRef r
  some { s with string := Function.update s.string r none }

/-- `allocAndPush` of two buffers. -/
def allocAndPush (s : Strings) (hash : Nat) (buf1 buf2 : Bytes) : Option (Strings × Ref) := do
  let data := buf1 ++ buf2
  let str : GCStringValue := { hash := if hash = 0 then keyToHash data else hash, data := data }
  let s' ← registerStringRef
    { s with string := Function.update s.string s.nextId (some str), nextId := s.nextId + 1 } s.nextId
  some (s', s.nextId)

def find (s : Strings) (hash : Nat) (buf1 buf2 : Bytes) : List Ref → Option (Option Ref)
  | [] => some none
  | r :: chain => do
    let str ← s.string r
    if str.isEqual hash buf1 buf2 then some (some r) else find s hash buf1 buf2 chain

/-- `pushStringValue` of two buffers. -/
def pushStringValue2 (s : Strings) (buf1 buf2 : Bytes) : Option (Strings × Ref) :=
  if 0 < s.refs.count then do
    let hash := keyToHash2 buf1 buf2
    let chain ← s.refs.heads[hash &&& s.refs.headMask]?
    match ← s.find hash buf1 buf2 chain with
    | some r => some (s, r)
    | none => s.allocAndPush hash buf1 buf2
  else s.allocAndPush 0 buf1 buf2

/-- `pushStringValue` of one buffer. -/
def pushStringValue (s : Strings) (buf : Bytes) : Option (Strings × Ref) := s.pushStringValue2 buf []

/-- `pushStringValue` of three buffers; up to 512 bytes they are put together on the stack and else in a `Buffer`. -/
def pushStringValue3 (s : Strings) (buf1 buf2 buf3 : Bytes) : Option (Strings × Ref) :=
  if buf1.length = 0 then s.pushStringValue2 buf2 buf3
  else if buf2.length = 0 then s.pushStringValue2 buf1 buf3
  else if buf3.length = 0 then s.pushStringValue2 buf1 buf2
  else s.pushStringValue (buf1 ++ buf2 ++ buf3)

/-- `OS_IS_SPACE` -/
def isSpace (c : UInt8) : Bool := 0 < c && c ≤ 32

def trim (str : Bytes) (trimLeft trimRight : Bool) : Bytes :=
  let str := if trimLeft then str.dropWhile isSpace else str
  if trimRight then (str.reverse.dropWhile isSpace).reverse else str

/-- `pushStringValue` of a range of characters. -/
def pushStringValueTrim (s : Strings) (str : Bytes) (trimLeft trimRight : Bool) : Option (Strings × Ref) :=
  s.pushStringValue (trim str trimLeft trimRight)

/-- `pushStringValue` of a string that is there already: it is pushed itself when nothing is cut off. -/
def pushStringTrim (s : Strings) (r : Ref) (trimLeft trimRight : Bool) : Option (Strings × Ref) := do
  let str ← s.string r
  let trimmed := trim str.data trimLeft trimRight
  if trimmed.length ≠ str.data.length then s.pushStringValue trimmed else some (s, r)

/-- `pushStringValue` of two strings. -/
def pushStrings (s : Strings) (a b : Ref) : Option (Strings × Ref) := do
  let strA ← s.string a
  let strB ← s.string b
  if strA.data.length = 0 then some (s, b)
  else if strB.data.length = 0 then some (s, a)
  else s.pushStringValue2 strA.data strB.data

end Strings

inductive StringOp where
  | push2 (buf1 buf2 : Bytes)
  | push (buf : Bytes)
  /-- Up to its zero. -/
  | pushChars (str : Bytes)
  | push3 (buf1 buf2 buf3 : Bytes)
  | pushTrim (str : Bytes) (trimLeft trimRight : Bool)
  | pushStringTrim (r : Ref) (trimLeft trimRight : Bool)
  | pushStrings (a b : Ref)
  /-- By the collector. -/
  | clear (r : Ref)
deriving Repr

namespace Strings

def step (s : Strings) : StringOp → Option (Strings × Option Ref)
  | .push2 buf1 buf2 => (s.pushStringValue2 buf1 buf2).map fun p => (p.1, some p.2)
  | .push buf => (s.pushStringValue buf).map fun p => (p.1, some p.2)
  | .pushChars str => (s.pushStringValue (str.takeWhile (· ≠ 0))).map fun p => (p.1, some p.2)
  | .push3 buf1 buf2 buf3 => (s.pushStringValue3 buf1 buf2 buf3).map fun p => (p.1, some p.2)
  | .pushTrim str trimLeft trimRight => (s.pushStringValueTrim str trimLeft trimRight).map fun p => (p.1, some p.2)
  | .pushStringTrim r trimLeft trimRight => (s.pushStringTrim r trimLeft trimRight).map fun p => (p.1, some p.2)
  | .pushStrings a b => (s.pushStrings a b).map fun p => (p.1, some p.2)
  | .clear r => (s.clearValue r).map fun s => (s, none)

def run : Strings → List StringOp → Option Strings
  | s, [] => some s
  | s, op :: ops => (s.step op).bind fun p => run p.1 ops

def start : Strings where
  string _ := none
  nextId := 0
  refs := { heads := [], headMask := 0, count := 0 }

def content (s : Strings) : StringOp → Option Bytes
  | .push2 buf1 buf2 => some (buf1 ++ buf2)
  | .push buf => some buf
  | .pushChars str => some (str.takeWhile (· ≠ 0))
  | .push3 buf1 buf2 buf3 => some (buf1 ++ buf2 ++ buf3)
  | .pushTrim str trimLeft trimRight => some (trim str trimLeft trimRight)
  | .pushStringTrim r trimLeft trimRight => (s.string r).map fun str => trim str.data trimLeft trimRight
  | .pushStrings a b => (s.string a).bind fun strA => (s.string b).map fun strB => strA.data ++ strB.data
  | .clear _ => none

end Strings

/-! ## The hash of split content -/

theorem hashLoop_past {step : Nat} {buf : Bytes} {pos : Nat} (h : buf.length ≤ pos) (fuel hash : Nat) :
    hashLoop step buf fuel pos hash = (pos, hash) := by
  cases fuel with
  | zero => rfl
  | succ fuel =>
    unfold hashLoop
    rw [List.getElem?_eq_none h]

theorem hashLoop_succ {step : Nat} {buf : Bytes} {pos : Nat} {b : UInt8} (h : buf[pos]? = some b) {fuel hash : Nat} :
    hashLoop step buf (fuel + 1) pos hash = hashLoop step buf fuel (pos + step) (addStrHash hash b) := by
  rw [hashLoop, h]

theorem hashLoop_fuel {step : Nat} (hstep : 0 < step) {buf : Bytes} {fuel pos : Nat} (h : buf.length ≤ pos + fuel)
    (k hash : Nat) : hashLoop step buf (fuel + k) pos hash = hashLoop step buf fuel pos hash := by
  induction fuel generalizing pos hash with
  | zero =>
    have hpast : buf.length ≤ pos := h
    rw [hashLoop_past hpast, hashLoop_past hpast]
  | succ fuel ih =>
    rw [Nat.succ_add_eq_add_succ, Nat.add_succ]
    unfold hashLoop
    cases buf[pos]? with
    | none => rfl
    | some b => exact ih (by omega) _

/-- The loop ends at the end of the buffer or behind it. -/
theorem length_le_hashLoop {step : Nat} (hstep : 0 < step) {buf : Bytes} {fuel pos : Nat} (h : buf.length ≤ pos + fuel)
    (hash : Nat) : buf.length ≤ (hashLoop step buf fuel pos hash).1 := by
  induction fuel generalizing pos hash with
  | zero => exact h
  | succ fuel ih =>
    unfold hashLoop
    cases hb : buf[pos]? with
    | none => exact List.getElem?_eq_none_iff.1 hb
    | some b => exact ih (by omega) _

theorem hashLoop_shift (step : Nat) (buf1 buf2 : Bytes) (fuel : Nat) {pos : Nat} (h : buf1.length ≤ pos) (hash : Nat) :
    (hashLoop step (buf1 ++ buf2) fuel pos hash).2 = (hashLoop step buf2 fuel (pos - buf1.length) hash).2 := by
  induction fuel generalizing pos hash with
  | zero => rfl
  | succ fuel ih =>
    unfold hashLoop
    rw [List.getElem?_append_right h]
    cases buf2[pos - buf1.length]? with
    | none => rfl
    | some b =>
      have hsub : pos - buf1.length + step = pos + step - buf1.length := by omega
      dsimp only
      rw [hsub]
      exact ih (by omega) _

/-- A loop over two buffers is one over the first and then one over the second. -/
theorem hashLoop_append {step : Nat} (hstep : 0 < step) (buf1 buf2 : Bytes) {fuel pos : Nat}
    (h : buf1.length ≤ pos + fuel) (hash : Nat) :
    (hashLoop step (buf1 ++ buf2) (fuel + buf2.length) pos hash).2 =
      (hashLoop step buf2 buf2.length ((hashLoop step buf1 fuel pos hash).1 - buf1.length)
        (hashLoop step buf1 fuel pos hash).2).2 := by
  induction fuel generalizing pos hash with
  | zero =>
    have hpast : buf1.length ≤ pos := h
    rw [hashLoop_past hpast, Nat.zero_add]
    exact hashLoop_shift step buf1 buf2 buf2.length h hash
  | succ fuel ih =>
    rcases Nat.lt_or_ge pos buf1.length with hlt | hge
    · have hget : (buf1 ++ buf2)[pos]? = buf1[pos]? := List.getElem?_append_left hlt
      rw [Nat.succ_add, hashLoop_succ (hget.trans (List.getElem?_eq_getElem hlt)),
        hashLoop_succ (List.getElem?_eq_getElem hlt)]
      exact ih (by omega) _
    · rw [hashLoop_past hge, hashLoop_shift step buf1 buf2 _ hge, Nat.add_comm]
      exact congrArg Prod.snd (hashLoop_fuel hstep (by omega) _ _)

/-- **The hash does not depend on where the content is split.** -/
theorem keyToHash_append (buf1 buf2 : Bytes) : keyToHash2 buf1 buf2 = keyToHash (buf1 ++ buf2) := by
  unfold keyToHash2
  split
  · unfold keyToHash
    rw [List.length_append]
    exact (hashLoop_append (Nat.succ_pos _) buf1 buf2 (by omega) strHashStart).symm
  · rename_i h
    have hnil : buf2 = [] := List.eq_nil_of_length_eq_zero (by omega)
    rw [hnil, List.append_nil]

/-- A string is equal to two buffers when its content is both, one after the other. -/
theorem GCStringValue.isEqual_iff (s : GCStringValue) (hash : Nat) (buf1 buf2 : Bytes) :
    s.isEqual hash buf1 buf2 = true ↔ s.hash = hash ∧ s.data = buf1 ++ buf2 := by
  unfold GCStringValue.isEqual
  simp only [Bool.and_eq_true, Bool.or_eq_true, beq_iff_eq, List.isEmpty_iff]
  constructor
  · rintro ⟨⟨⟨hhash, hlen⟩, htake⟩, hdrop⟩
    refine ⟨hhash, ?_⟩
    rw [← List.take_append_drop buf1.length s.data, htake]
    congr 1
    rcases hdrop with rfl | hdrop
    · exact List.drop_eq_nil_of_le (Nat.le_of_eq hlen)
    · exact hdrop
  · rintro ⟨hhash, hdata⟩
    rw [hdata]
    exact ⟨⟨⟨hhash, List.length_append⟩, List.take_left⟩, .inr List.drop_left⟩

namespace Strings

/-! ## The chains -/

/-- The chains of `heads` hold the strings `rs`, each in the chain of its hash. -/
structure Filed (string : Ref → Option GCStringValue) (headMask : Nat) (heads : List (List Ref)) (rs : List Ref) : Prop where
  length : heads.length = headMask + 1
  perm : heads.flatten.Perm rs
  live : ∀ r ∈ rs, (string r).isSome
  slots : ∀ i chain, heads[i]? = some chain → ∀ r ∈ chain, ∀ str, string r = some str → str.hash &&& headMask = i

theorem flatten_modify_cons {heads : List (List Ref)} {i : Nat} (h : i < heads.length) (r : Ref) :
    (heads.modify i (r :: ·)).flatten.Perm (r :: heads.flatten) := by
  induction heads generalizing i with
  | nil => cases h
  | cons chain heads ih =>
    cases i with
    | zero => exact .refl _
    | succ i =>
      rw [List.modify_succ_cons, List.flatten_cons, List.flatten_cons]
      exact ((ih (Nat.lt_of_succ_lt_succ h)).append_left chain).trans List.perm_middle

theorem flatten_set_erase {heads : List (List Ref)} {i : Nat} {chain : List Ref} (h : heads[i]? = some chain) {r : Ref}
    (hr : r ∈ chain) : heads.flatten.Perm (r :: (heads.set i (chain.erase r)).flatten) := by
  induction heads generalizing i with
  | nil => cases h
  | cons first heads ih =>
    cases i with
    | zero =>
      cases h
      rw [List.set_cons_zero, List.flatten_cons, List.flatten_cons, ← List.cons_append]
      exact (List.perm_cons_erase hr).append_right _
    | succ i =>
      rw [List.set_cons_succ, List.flatten_cons, List.flatten_cons]
      exact ((ih h).append_left first).trans List.perm_middle

variable {string : Ref → Option GCStringValue} {headMask : Nat} {heads : List (List Ref)} {rs : List Ref}

theorem Filed.slot_lt (h : Filed string headMask heads rs) (hash : Nat) : hash &&& headMask < heads.length := by
  rw [h.length]
  exact Nat.lt_succ_of_le Nat.and_le_right

/-- A string that is held is in the chain of its hash. -/
theorem Filed.mem_chain (h : Filed string headMask heads rs) {r : Ref} (hr : r ∈ rs) {str : GCStringValue}
    (hs : string r = some str) {chain : List Ref} (hc : heads[str.hash &&& headMask]? = some chain) : r ∈ chain := by
  obtain ⟨chain', hmem, hrc⟩ := List.mem_flatten.1 (h.perm.mem_iff.2 hr)
  obtain ⟨i, hi⟩ := List.mem_iff_getElem?.1 hmem
  have hslot := h.slots i chain' hi r hrc str hs
  rw [hslot, hi] at hc
  cases hc
  exact hrc

theorem Filed.chain_subset (h : Filed string headMask heads rs) {i : Nat} {chain : List Ref} (hc : heads[i]? = some chain)
    {r : Ref} (hr : r ∈ chain) : r ∈ rs :=
  h.perm.mem_iff.1 (List.mem_flatten.2 ⟨chain, List.mem_of_getElem? hc, hr⟩)

theorem Filed.link (h : Filed string headMask heads rs) {r : Ref} {str : GCStringValue} (hs : string r = some str) :
    ∃ heads', Strings.link string headMask heads r = some heads' ∧ Filed string headMask heads' (r :: rs) := by
  refine ⟨heads.modify (str.hash &&& headMask) (r :: ·), by simp [Strings.link, hs], ?_, ?_, ?_, ?_⟩
  · rw [List.length_modify, h.length]
  · exact (flatten_modify_cons (h.slot_lt str.hash) r).trans (h.perm.cons r)
  · intro q hq
    rcases List.mem_cons.1 hq with rfl | hq
    · exact Option.isSome_of_eq_some hs
    · exact h.live q hq
  · intro i chain hc q hq strq hsq
    rw [List.getElem?_modify] at hc
    obtain ⟨old, hold, rfl⟩ := Option.map_eq_some_iff.1 hc
    by_cases hi : str.hash &&& headMask = i
    · rw [if_pos hi] at hq
      rcases List.mem_cons.1 hq with rfl | hq
      · rw [hs] at hsq
        cases hsq
        exact hi
      · exact h.slots i old hold q hq strq hsq
    · rw [if_neg hi] at hq
      exact h.slots i old hold q hq strq hsq

theorem Filed.foldlM_link (h : Filed string headMask heads rs) {olds : List Ref} (hl : ∀ r ∈ olds, (string r).isSome) :
    ∃ heads', olds.foldlM (Strings.link string headMask) heads = some heads' ∧
      Filed string headMask heads' (olds.reverse ++ rs) := by
  induction olds generalizing heads rs with
  | nil => exact ⟨heads, rfl, h⟩
  | cons r olds ih =>
    obtain ⟨str, hs⟩ := Option.isSome_iff_exists.1 (hl r List.mem_cons_self)
    obtain ⟨mid, hmid, hfiled⟩ := h.link hs
    obtain ⟨heads', hfold, hfiled'⟩ := ih hfiled fun q hq => hl q (List.mem_cons_of_mem r hq)
    refine ⟨heads', ?_, ?_⟩
    · rw [List.foldlM_cons, hmid]
      exact hfold
    · rw [List.reverse_cons, List.append_assoc]
      exact hfiled'

theorem filed_replicate (string : Ref → Option GCStringValue) (headMask : Nat) :
    Filed string headMask (List.replicate (headMask + 1) []) [] := by
  refine ⟨List.length_replicate, by simp, fun r hr => (nomatch hr), fun i chain hc r hr => ?_⟩
  obtain ⟨-, rfl⟩ := List.mem_replicate.1 (List.mem_of_getElem? hc)
  cases hr

theorem Filed.congr (h : Filed string headMask heads rs) {string' : Ref → Option GCStringValue}
    (hs : ∀ r ∈ rs, string' r = string r) : Filed string' headMask heads rs := by
  refine ⟨h.length, h.perm, fun r hr => ?_, fun i chain hc r hr str hstr => ?_⟩
  · rw [hs r hr]
    exact h.live r hr
  · rw [hs r (h.chain_subset hc hr)] at hstr
    exact h.slots i chain hc r hr str hstr

/-! ## The table -/

/-- **Every string is filed once, under the hash of its content, and no two have the same content.** -/
structure Interned (s : Strings) (rs : List Ref) : Prop where
  filed : Filed s.string s.refs.headMask s.refs.heads rs ∨ s.refs.heads = [] ∧ s.refs.headMask = 0 ∧ rs = []
  nodup : rs.Nodup
  count : rs.length = s.refs.count
  mem : ∀ r, r ∈ rs ↔ (s.string r).isSome
  hash : ∀ r str, s.string r = some str → str.hash = keyToHash str.data
  unique : ∀ r q str str', s.string r = some str → s.string q = some str' → str.data = str'.data → r = q
  fresh : ∀ r, (s.string r).isSome → r < s.nextId

variable {s s' : Strings}

theorem start_interned : Interned start [] where
  filed := .inr ⟨rfl, rfl, rfl⟩
  nodup := List.nodup_nil
  count := rfl
  mem _ := ⟨fun h => (nomatch h), fun h => (nomatch h)⟩
  hash _ _ h := nomatch h
  unique _ _ _ _ h := nomatch h
  fresh _ h := nomatch h

/-- Growing files the same strings, in a table that is there. -/
theorem grow_some
    (hf : Filed s.string s.refs.headMask s.refs.heads rs ∨ s.refs.heads = [] ∧ s.refs.headMask = 0 ∧ rs = []) :
    ∃ refs rs', s.grow = some refs ∧ Filed s.string refs.headMask refs.heads rs' ∧ rs'.Perm rs ∧ refs.count = s.refs.count := by
  unfold grow
  split
  · have hlive : ∀ r ∈ s.refs.heads.flatten, (s.string r).isSome := by
      intro r hr
      rcases hf with hf | ⟨hnil, -, -⟩
      · exact hf.live r (hf.perm.mem_iff.1 hr)
      · rw [hnil] at hr
        cases hr
    obtain ⟨k, hk⟩ : ∃ k, (if s.refs.heads.isEmpty then 32 else (s.refs.headMask + 1) * 2) = k + 1 := by
      split
      · exact ⟨31, rfl⟩
      · exact ⟨(s.refs.headMask + 1) * 2 - 1, by omega⟩
    obtain ⟨heads', hfold, hfiled⟩ := (filed_replicate s.string k).foldlM_link hlive
    refine ⟨{ s.refs with heads := heads', headMask := k }, _, ?_, hfiled, ?_, rfl⟩
    · simp only [hk, Nat.add_sub_cancel, hfold]
      rfl
    · rw [List.append_nil]
      refine (List.reverse_perm _).trans ?_
      rcases hf with hf | ⟨hnil, -, rfl⟩
      · exact hf.perm
      · rw [hnil]
        exact .refl _
  · rename_i hroom
    rcases hf with hf | ⟨-, hmask, -⟩
    · exact ⟨s.refs, rs, rfl, hf, .refl _, rfl⟩
    · rw [hmask] at hroom
      exact absurd (Nat.zero_le _) hroom

/-- **A new string with new content.** -/
theorem allocAndPush_some (h : Interned s rs) {hash : Nat} {buf1 buf2 : Bytes}
    (hnew : ∀ q str, s.string q = some str → str.data ≠ buf1 ++ buf2) (hhash : hash = 0 ∨ hash = keyToHash (buf1 ++ buf2)) :
    ∃ s' rs', s.allocAndPush hash buf1 buf2 = some (s', s.nextId) ∧ Interned s' rs' ∧
      s'.string = Function.update s.string s.nextId (some ⟨keyToHash (buf1 ++ buf2), buf1 ++ buf2⟩) := by
  have hstr : (if hash = 0 then keyToHash (buf1 ++ buf2) else hash) = keyToHash (buf1 ++ buf2) := by
    rcases hhash with rfl | rfl
    · rfl
    · split <;> rfl
  have hfresh : ∀ r, (s.string r).isSome → r ≠ s.nextId := fun r hr => Nat.ne_of_lt (h.fresh r hr)
  have hnone : s.string s.nextId = none := by
    rw [← Option.not_isSome_iff_eq_none]
    exact fun hl => hfresh _ hl rfl
  obtain ⟨string, hstring⟩ : ∃ string, string = Function.update s.string s.nextId (some (GCStringValue.mk
    (keyToHash (buf1 ++ buf2)) (buf1 ++ buf2))) := ⟨_, rfl⟩
  have hself : string s.nextId = some ⟨keyToHash (buf1 ++ buf2), buf1 ++ buf2⟩ := by
    rw [hstring, Function.update_self]
  have hother : ∀ r, r ≠ s.nextId → string r = s.string r := by
    intro r hr
    rw [hstring, Function.update_of_ne hr]
  have hkeep : ∀ r ∈ rs, string r = s.string r := fun r hr => hother r (hfresh r ((h.mem r).1 hr))
  have hfiled : Filed string s.refs.headMask s.refs.heads rs ∨ s.refs.heads = [] ∧ s.refs.headMask = 0 ∧ rs = [] :=
    h.filed.imp_left fun hf => hf.congr hkeep
  obtain ⟨refs, rs', hgrow, hf', hperm, hcount⟩ :=
    grow_some (s := { s with string := string, nextId := s.nextId + 1 }) hfiled
  obtain ⟨heads', hlink, hf''⟩ := hf'.link hself
  have hmem : ∀ r, r ∈ rs' ↔ (s.string r).isSome := fun r => hperm.mem_iff.trans (h.mem r)
  have hmem' : ∀ r, r ∈ s.nextId :: rs' ↔ (string r).isSome := by
    intro r
    by_cases hr : r = s.nextId
    · subst hr
      simp [hself]
    · rw [List.mem_cons, hmem, hother r hr, or_iff_right hr]
  have hhash' : ∀ r str, string r = some str → str.hash = keyToHash str.data := by
    intro r str hr
    by_cases hrn : r = s.nextId
    · subst hrn
      rw [hself] at hr
      cases hr
      rfl
    · rw [hother r hrn] at hr
      exact h.hash r str hr
  have hunique : ∀ r q str str', string r = some str → string q = some str' → str.data = str'.data → r = q := by
    intro r q str str' hr hq heq
    by_cases hrn : r = s.nextId <;> by_cases hqn : q = s.nextId
    · rw [hrn, hqn]
    · subst hrn
      rw [hself] at hr
      rw [hother q hqn] at hq
      cases hr
      exact absurd heq.symm (hnew q str' hq)
    · subst hqn
      rw [hself] at hq
      rw [hother r hrn] at hr
      cases hq
      exact absurd heq (hnew r str hr)
    · rw [hother r hrn] at hr
      rw [hother q hqn] at hq
      exact h.unique r q str str' hr hq heq
  have hfresh' : ∀ r, (string r).isSome → r < s.nextId + 1 := by
    intro r hr
    by_cases hrn : r = s.nextId
    · rw [hrn]
      exact Nat.lt_succ_self _
    · rw [hother r hrn] at hr
      exact Nat.lt_succ_of_lt (h.fresh r hr)
  refine ⟨{ string := string, nextId := s.nextId + 1, refs := { refs with heads := heads', count := refs.count + 1 } },
    s.nextId :: rs', ?_, ⟨.inl hf'', ?_, ?_, hmem', hhash', hunique, hfresh'⟩, hstring⟩
  · unfold allocAndPush registerStringRef
    simp only [hstr, ← hstring, hgrow, hlink, Option.bind_eq_bind, Option.bind_some]
  · refine List.nodup_cons.2 ⟨fun hin => ?_, hperm.nodup_iff.2 h.nodup⟩
    exact hfresh _ ((hmem _).1 hin) rfl
  · rw [List.length_cons, hperm.length_eq, h.count, hcount]

theorem find_some (hash : Nat) (buf1 buf2 : Bytes) {chain : List Ref} (hl : ∀ r ∈ chain, (s.string r).isSome) :
    (∃ r ∈ chain, ∃ str, s.string r = some str ∧ str.isEqual hash buf1 buf2 = true ∧
      s.find hash buf1 buf2 chain = some (some r)) ∨
    s.find hash buf1 buf2 chain = some none ∧
      ∀ r ∈ chain, ∀ str, s.string r = some str → str.isEqual hash buf1 buf2 = false := by
  induction chain with
  | nil => exact .inr ⟨rfl, fun r hr => nomatch hr⟩
  | cons r chain ih =>
    obtain ⟨str, hs⟩ := Option.isSome_iff_exists.1 (hl r List.mem_cons_self)
    cases heq : str.isEqual hash buf1 buf2 with
    | true =>
      refine .inl ⟨r, List.mem_cons_self, str, hs, heq, ?_⟩
      simp [find, hs, heq]
    | false =>
      have hfind : s.find hash buf1 buf2 (r :: chain) = s.find hash buf1 buf2 chain := by simp [find, hs, heq]
      rw [hfind]
      rcases ih fun q hq => hl q (List.mem_cons_of_mem r hq) with ⟨q, hq, hfound⟩ | ⟨hnone, hne⟩
      · exact .inl ⟨q, List.mem_cons_of_mem r hq, hfound⟩
      · refine .inr ⟨hnone, fun q hq strq hsq => ?_⟩
        rcases List.mem_cons.1 hq with rfl | hq
        · rw [hs] at hsq
          cases hsq
          exact heq
        · exact hne q hq strq hsq

/-- What a push of `data` leaves: the string that it returns has this content, and every string is still there. -/
def Pushes (s : Strings) (data : Bytes) (p : Strings × Ref) : Prop :=
  (∃ rs, Interned p.1 rs) ∧ (∃ str, p.1.string p.2 = some str ∧ str.data = data) ∧
    ∀ q str, s.string q = some str → p.1.string q = some str

theorem pushes_self (h : Interned s rs) {r : Ref} {str : GCStringValue} (hs : s.string r = some str) :
    Pushes s str.data (s, r) := ⟨⟨rs, h⟩, ⟨str, hs, rfl⟩, fun _ _ hq => hq⟩

/-- **Pushing two buffers interns what they hold together.** -/
theorem pushStringValue2_some (h : Interned s rs) (buf1 buf2 : Bytes) :
    ∃ p, s.pushStringValue2 buf1 buf2 = some p ∧ Pushes s (buf1 ++ buf2) p := by
  have halloc : ∀ hash, (∀ q str, s.string q = some str → str.data ≠ buf1 ++ buf2) →
      hash = 0 ∨ hash = keyToHash (buf1 ++ buf2) →
      ∃ p, s.allocAndPush hash buf1 buf2 = some p ∧ Pushes s (buf1 ++ buf2) p := by
    intro hash hnew hhash
    obtain ⟨s', rs', hs', hint, hstring⟩ := allocAndPush_some h hnew hhash
    refine ⟨_, hs', ⟨rs', hint⟩, ⟨_, by rw [hstring, Function.update_self], rfl⟩, fun q str hq => ?_⟩
    rw [hstring, Function.update_of_ne (Nat.ne_of_lt (h.fresh q (Option.isSome_of_eq_some hq)))]
    exact hq
  unfold pushStringValue2
  split
  · rename_i hpos
    rcases h.filed with hf | ⟨-, -, hnil⟩
    · obtain ⟨chain, hchain⟩ : ∃ chain, s.refs.heads[keyToHash2 buf1 buf2 &&& s.refs.headMask]? = some chain :=
        ⟨_, List.getElem?_eq_getElem (hf.slot_lt _)⟩
      have hl : ∀ r ∈ chain, (s.string r).isSome := fun r hr => hf.live r (hf.chain_subset hchain hr)
      simp only [hchain, Option.bind_eq_bind, Option.bind_some]
      rcases find_some (keyToHash2 buf1 buf2) buf1 buf2 hl with ⟨r, -, str, hs, heq, hfind⟩ | ⟨hfind, hne⟩
      · rw [hfind]
        obtain ⟨-, hdata⟩ := (str.isEqual_iff _ _ _).1 heq
        exact ⟨(s, r), rfl, hdata ▸ pushes_self h hs⟩
      · rw [hfind]
        refine halloc _ (fun q str hq hdata => ?_) (.inr (keyToHash_append buf1 buf2))
        have hhash : str.hash = keyToHash2 buf1 buf2 := by
          rw [h.hash q str hq, hdata, keyToHash_append]
        have hin : q ∈ chain := by
          refine hf.mem_chain ((h.mem q).2 (Option.isSome_of_eq_some hq)) hq ?_
          rw [hhash]
          exact hchain
        have hfalse := hne q hin str hq
        rw [(str.isEqual_iff _ _ _).2 ⟨hhash, hdata⟩] at hfalse
        cases hfalse
    · rw [← h.count, hnil] at hpos
      exact absurd hpos (Nat.lt_irrefl 0)
  · rename_i hzero
    refine halloc 0 (fun q str hq => ?_) (.inl rfl)
    have hnil : rs = [] := List.eq_nil_of_length_eq_zero (h.count.trans (Nat.eq_zero_of_not_pos hzero))
    have hin := (h.mem q).2 (Option.isSome_of_eq_some hq)
    rw [hnil] at hin
    cases hin

theorem pushStringValue_some (h : Interned s rs) (buf : Bytes) :
    ∃ p, s.pushStringValue buf = some p ∧ Pushes s buf p := by
  obtain ⟨p, hp, hpush⟩ := pushStringValue2_some h buf []
  rw [List.append_nil] at hpush
  exact ⟨p, hp, hpush⟩

theorem pushStringValue3_some (h : Interned s rs) (buf1 buf2 buf3 : Bytes) :
    ∃ p, s.pushStringValue3 buf1 buf2 buf3 = some p ∧ Pushes s (buf1 ++ buf2 ++ buf3) p := by
  unfold pushStringValue3
  split
  · rename_i h1
    rw [List.eq_nil_of_length_eq_zero h1, List.nil_append]
    exact pushStringValue2_some h buf2 buf3
  · split
    · rename_i h2
      rw [List.eq_nil_of_length_eq_zero h2, List.append_nil]
      exact pushStringValue2_some h buf1 buf3
    · split
      · rename_i h3
        rw [List.eq_nil_of_length_eq_zero h3, List.append_nil]
        exact pushStringValue2_some h buf1 buf2
      · exact pushStringValue_some h _

theorem trim_sublist (str : Bytes) (trimLeft trimRight : Bool) : (trim str trimLeft trimRight).Sublist str := by
  have hright : ∀ t : Bytes, (t.reverse.dropWhile isSpace).reverse.Sublist t := by
    intro t
    have hdrop := (t.reverse.dropWhile_suffix isSpace).sublist.reverse
    rwa [List.reverse_reverse] at hdrop
  unfold trim
  cases trimLeft <;> cases trimRight
  · exact .refl _
  · exact hright str
  · exact (str.dropWhile_suffix isSpace).sublist
  · exact (hright _).trans (str.dropWhile_suffix isSpace).sublist

/-- **Clearing a string takes it out of the table.** -/
theorem clearValue_some (h : Interned s rs) {r : Ref} {str : GCStringValue} (hs : s.string r = some str) :
    ∃ s', s.clearValue r = some s' ∧ Interned s' (rs.erase r) ∧ s'.string = Function.update s.string r none := by
  have hr : r ∈ rs := (h.mem r).2 (Option.isSome_of_eq_some hs)
  rcases h.filed with hf | ⟨-, -, hnil⟩
  · obtain ⟨chain, hchain⟩ : ∃ chain, s.refs.heads[str.hash &&& s.refs.headMask]? = some chain :=
      ⟨_, List.getElem?_eq_getElem (hf.slot_lt _)⟩
    have hin := hf.mem_chain hr hs hchain
    have hperm : (s.refs.heads.set (str.hash &&& s.refs.headMask) (chain.erase r)).flatten.Perm (rs.erase r) := by
      have hcons := ((flatten_set_erase hchain hin).symm.trans hf.perm).trans (List.perm_cons_erase hr)
      exact hcons.cons_inv
    have hne : ∀ q ∈ rs.erase r, q ≠ r := fun q hq => ((h.nodup.mem_erase_iff).1 hq).1
    have hkeep : ∀ q, q ≠ r → Function.update s.string r none q = s.string q := fun q hq => Function.update_of_ne hq _ _
    have hgone : ∀ q strq, Function.update s.string r none q = some strq → s.string q = some strq := by
      intro q strq hq
      by_cases hqr : q = r
      · subst hqr
        rw [Function.update_self] at hq
        cases hq
      · rwa [hkeep q hqr] at hq
    refine ⟨{ s with
      string := Function.update s.string r none
      refs := { s.refs with
        heads := s.refs.heads.set (str.hash &&& s.refs.headMask) (chain.erase r)
        count := s.refs.count - 1 } }, ?_, ?_, rfl⟩
    · unfold clearValue unregisterStringRef
      simp only [hs, hchain, hin, if_true, Option.bind_eq_bind, Option.bind_some]
    · refine ⟨.inl ⟨?_, hperm, fun q hq => ?_, fun i c hc q hq strq hsq => ?_⟩, h.nodup.erase r, ?_, fun q => ?_,
        fun q strq hsq => h.hash q strq (hgone q strq hsq),
        fun q q' strq strq' hsq hsq' heq => h.unique q q' strq strq' (hgone q strq hsq) (hgone q' strq' hsq') heq,
        fun q hq => ?_⟩
      · rw [List.length_set, hf.length]
      · exact (congrArg Option.isSome (hkeep q (hne q hq))).trans (hf.live q (List.mem_of_mem_erase hq))
      · have hsq' := hgone q strq hsq
        rw [List.getElem?_set] at hc
        split at hc
        · rename_i hi
          split at hc
          · cases hc
            subst hi
            exact hf.slots _ chain hchain q (List.mem_of_mem_erase hq) strq hsq'
          · cases hc
        · exact hf.slots i c hc q hq strq hsq'
      · rw [List.length_erase_of_mem hr, h.count]
      · rw [h.nodup.mem_erase_iff, h.mem]
        by_cases hq : q = r
        · subst hq
          simp
        · rw [and_iff_right hq]
          exact (Bool.eq_iff_iff.1 (congrArg Option.isSome (hkeep q hq))).symm
      · obtain ⟨strq, hsq⟩ := Option.isSome_iff_exists.1 hq
        exact h.fresh q (Option.isSome_of_eq_some (hgone q strq hsq))
  · rw [hnil] at hr
    cases hr

/-! ## Runs -/

def Allows (s : Strings) : StringOp → Prop
  | .pushStringTrim r _ _ => (s.string r).isSome
  | .pushStrings a b => (s.string a).isSome ∧ (s.string b).isSome
  | .clear r => (s.string r).isSome
  | _ => True

theorem pushes_step {data : Bytes} {x : Option (Strings × Ref)} (h : ∃ p, x = some p ∧ Pushes s data p) :
    ∃ s' r, x.map (fun p => (p.1, some p.2)) = some (s', some r) ∧ Pushes s data (s', r) := by
  obtain ⟨p, rfl, hp⟩ := h
  exact ⟨p.1, p.2, rfl, hp⟩

/-- **Every overload pushes the bytes it is given.** -/
theorem step_pushes (h : Interned s rs) {op : StringOp} (ha : s.Allows op) {data : Bytes} (hd : s.content op = some data) :
    ∃ s' r, s.step op = some (s', some r) ∧ Pushes s data (s', r) := by
  cases op with
  | push2 buf1 buf2 =>
    cases hd
    exact pushes_step (pushStringValue2_some h buf1 buf2)
  | push buf =>
    cases hd
    exact pushes_step (pushStringValue_some h _)
  | pushChars str =>
    cases hd
    exact pushes_step (pushStringValue_some h _)
  | push3 buf1 buf2 buf3 =>
    cases hd
    exact pushes_step (pushStringValue3_some h buf1 buf2 buf3)
  | pushTrim str trimLeft trimRight =>
    cases hd
    exact pushes_step (pushStringValue_some h _)
  | pushStringTrim r trimLeft trimRight =>
    obtain ⟨str, hs, rfl⟩ := Option.map_eq_some_iff.1 hd
    refine pushes_step ?_
    unfold pushStringTrim
    simp only [hs, Option.bind_eq_bind, Option.bind_some]
    split
    · exact pushStringValue_some h _
    · rename_i hlen
      have hsame := (trim_sublist str.data trimLeft trimRight).eq_of_length (not_not.1 hlen)
      rw [hsame]
      exact ⟨_, rfl, pushes_self h hs⟩
  | pushStrings a b =>
    obtain ⟨strA, hsa, hd⟩ := Option.bind_eq_some_iff.1 hd
    obtain ⟨strB, hsb, rfl⟩ := Option.map_eq_some_iff.1 hd
    refine pushes_step ?_
    unfold pushStrings
    simp only [hsa, hsb, Option.bind_eq_bind, Option.bind_some]
    split
    · rename_i hA
      rw [List.eq_nil_of_length_eq_zero hA, List.nil_append]
      exact ⟨_, rfl, pushes_self h hsb⟩
    · split
      · rename_i hB
        rw [List.eq_nil_of_length_eq_zero hB, List.append_nil]
        exact ⟨_, rfl, pushes_self h hsa⟩
      · exact pushStringValue2_some h _ _
  | clear r => cases hd

theorem step_interned (h : Interned s rs) {op : StringOp} {x : Option Ref} (hs : s.step op = some (s', x)) :
    ∃ rs', Interned s' rs' := by
  have hpush : ∀ op data, s.Allows op → s.content op = some data → s.step op = some (s', x) → ∃ rs', Interned s' rs' := by
    intro op data ha hd hs
    obtain ⟨t, q, ht, hpush⟩ := step_pushes h ha hd
    rw [hs] at ht
    cases ht
    exact hpush.1
  cases op with
  | clear r =>
    obtain ⟨t, ht, heq⟩ := Option.map_eq_some_iff.1 hs
    cases heq
    obtain ⟨u, hu, -⟩ := Option.bind_eq_some_iff.1 ht
    obtain ⟨str, hstr, -⟩ := Option.bind_eq_some_iff.1 hu
    obtain ⟨t', ht', hint, -⟩ := clearValue_some h hstr
    rw [ht] at ht'
    cases ht'
    exact ⟨_, hint⟩
  | pushStringTrim r trimLeft trimRight =>
    obtain ⟨p, hp, -⟩ := Option.map_eq_some_iff.1 hs
    obtain ⟨str, hstr, -⟩ := Option.bind_eq_some_iff.1 hp
    exact hpush (.pushStringTrim r trimLeft trimRight) _ (Option.isSome_of_eq_some hstr) (by simp [content, hstr]; rfl) hs
  | pushStrings a b =>
    obtain ⟨p, hp, -⟩ := Option.map_eq_some_iff.1 hs
    obtain ⟨strA, hsa, hp⟩ := Option.bind_eq_some_iff.1 hp
    obtain ⟨strB, hsb, -⟩ := Option.bind_eq_some_iff.1 hp
    exact hpush (.pushStrings a b) (strA.data ++ strB.data) ⟨Option.isSome_of_eq_some hsa, Option.isSome_of_eq_some hsb⟩
      (by simp [content, hsa, hsb]) hs
  | push2 buf1 buf2 => exact hpush (.push2 buf1 buf2) _ trivial rfl hs
  | push buf => exact hpush (.push buf) _ trivial rfl hs
  | pushChars str => exact hpush (.pushChars str) _ trivial rfl hs
  | push3 buf1 buf2 buf3 => exact hpush (.push3 buf1 buf2 buf3) _ trivial rfl hs
  | pushTrim str trimLeft trimRight => exact hpush (.pushTrim str trimLeft trimRight) _ trivial rfl hs

theorem run_interned {ops : List StringOp} (h : Interned s rs) (hr : s.run ops = some s') : ∃ rs', Interned s' rs' := by
  induction ops generalizing s rs with
  | nil =>
    cases hr
    exact ⟨rs, h⟩
  | cons op ops ih =>
    obtain ⟨⟨t, x⟩, hs, hr⟩ := Option.bind_eq_some_iff.1 hr
    obtain ⟨rs', ht⟩ := step_interned h hs
    exact ih ht hr

/-- **Interning.**  After any operations, two strings are one exactly when they have the same content; and every overload
returns the one string with the bytes it is given. -/
theorem strings_interned (ops : List StringOp) (s : Strings) (hr : run start ops = some s) :
    (∀ r q str str', s.string r = some str → s.string q = some str' → (str.data = str'.data ↔ r = q)) ∧
    ∀ op data, s.Allows op → s.content op = some data →
      ∃ s' r str, s.step op = some (s', some r) ∧ s'.string r = some str ∧ str.data = data ∧
        ∀ q str', s'.string q = some str' → str'.data = data → q = r := by
  obtain ⟨rs, h⟩ := run_interned start_interned hr
  refine ⟨fun r q str str' hs hs' => ⟨h.unique r q str str' hs hs', fun heq => ?_⟩, fun op data ha hd => ?_⟩
  · subst heq
    rw [hs] at hs'
    cases hs'
    rfl
  · obtain ⟨s', r, hs', ⟨⟨rs', hint⟩, ⟨str, hstr, hdata⟩, -⟩⟩ := step_pushes h ha hd
    exact ⟨s', r, str, hs', hstr, hdata, fun q str' hq hq' => hint.unique q r str' str hq hstr (hq'.trans hdata.symm)⟩

/-- The same three bytes in one buffer, and then in three. -/
theorem abc_interned : ∃ s s' r str, run start [.push [97, 98, 99]] = some s ∧
    s.step (.push3 [97] [98] [99]) = some (s', some r) ∧ s'.string r = some str ∧ str.data = [97, 98, 99] := by
  obtain ⟨s, hr⟩ : ∃ s, run start [.push [97, 98, 99]] = some s := ⟨_, rfl⟩
  obtain ⟨s', r, str, hs, hstr, hdata, -⟩ := (strings_interned [.push [97, 98, 99]] s hr).2 (.push3 [97] [98] [99])
    [97, 98, 99] trivial rfl
  exact ⟨s, s', r, str, hr, hs, hstr, hdata⟩

end Strings

end Core
end ObjectScript
