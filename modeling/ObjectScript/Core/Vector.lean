import Mathlib.Algebra.GroupWithZero.Nat
import Mathlib.Algebra.Ring.Int.Defs
import Mathlib.Data.List.GetD
import Mathlib.Tactic.Common
/-!
# Vectors of values

`vectorAddItem` doubles the capacity when there is no room.  The size of the new buffer goes to `malloc` as an `int`: from
2^31 bytes on it is negative, `malloc` returns NULL, and the elements are copied there.  So an index can be stored at exactly
if the capacity, doubled until the index fits, is less than 2^31 bytes (`store_isSome_iff`); every index below 2^26 can
(`fits_of_lt`).
-/
namespace ObjectScript
namespace Core

/-- `sizeof(Value)` -/
def valueSize : Nat := 16

/-- `Vector<Value>`: there is memory for its capacity. -/
structure ValueVector (α : Type) where
  items : List α
  capacity : Nat
  length_le : items.length ≤ capacity
  allocated : valueSize * capacity < 2 ^ 31

namespace ValueVector

variable {α : Type}

def empty : ValueVector α := ⟨[], 0, Nat.le_refl _, by decide⟩

/-- `vectorReserveCapacity`: the capacity after it, or none where `malloc` has no memory of that size. -/
def reserveCapacity (capacity newCapacity : Nat) : Option Nat :=
  if capacity < newCapacity then
    let grown := max (if 0 < capacity then capacity * 2 else 4) newCapacity
    if valueSize * grown < 2 ^ 31 then some grown else none
  else some capacity

theorem reserveCapacity_spec {capacity newCapacity c : Nat} (h : reserveCapacity capacity newCapacity = some c) :
    newCapacity ≤ c ∧ (valueSize * capacity < 2 ^ 31 → valueSize * c < 2 ^ 31) := by
  by_cases hroom : capacity < newCapacity
  · rw [reserveCapacity, if_pos hroom] at h
    by_cases hsize : valueSize * max (if 0 < capacity then capacity * 2 else 4) newCapacity < 2 ^ 31
    · cases (if_pos hsize).symm.trans h
      exact ⟨Nat.le_max_right _ _, fun _ => hsize⟩
    · cases (if_neg hsize).symm.trans h
  · cases (if_neg hroom).symm.trans h
    exact ⟨Nat.le_of_not_lt hroom, id⟩

/-- `vectorAddItem` -/
def addItem (v : ValueVector α) (x : α) : Option (ValueVector α) :=
  match h : reserveCapacity v.capacity (v.items.length + 1) with
  | some c =>
    some ⟨v.items ++ [x], c, by simpa using (reserveCapacity_spec h).1, (reserveCapacity_spec h).2 v.allocated⟩
  | none => none

/-- `vectorRemoveAtIndex` -/
def removeAtIndex (v : ValueVector α) (i : Nat) : ValueVector α :=
  ⟨v.items.eraseIdx i, v.capacity, Nat.le_trans (List.length_eraseIdx_le _ _) v.length_le, v.allocated⟩

/-- The elements in a vector made by `pushArrayValue` for as many. -/
def copy (v : ValueVector α) : ValueVector α :=
  ⟨v.items, if v.items.length = 0 then 0 else max 4 v.items.length, by split <;> omega, by
    have := v.length_le
    have := v.allocated
    unfold valueSize at *
    split <;> omega⟩

def set (v : ValueVector α) (i : Nat) (x : α) : ValueVector α :=
  ⟨v.items.set i x, v.capacity, by rw [List.length_set]; exact v.length_le, v.allocated⟩

theorem addItem_items {v w : ValueVector α} {x : α} (h : v.addItem x = some w) : w.items = v.items ++ [x] := by
  unfold addItem at h
  split at h
  · cases h
    rfl
  · cases h

/-- The loop that adds nulls as long as the index is not inside. -/
def fill (null : α) (i : Nat) (v : ValueVector α) : Option (ValueVector α) :=
  if v.items.length ≤ i then
    match _hadd : v.addItem null with
    | some w => fill null i w
    | none => none
  else some v
termination_by i + 1 - v.items.length
decreasing_by
  rw [addItem_items _hadd, List.length_append, List.length_singleton]
  omega

/-- What the setters do at an index that is not negative. -/
def store (null : α) (i : Nat) (x : α) (v : ValueVector α) : Option (ValueVector α) :=
  if i = v.items.length then v.addItem x else (fill null i v).map fun w => w.set i x

/-! ## Room for an index -/

def firstCapacity (capacity : Nat) : Nat := if capacity = 0 then 4 else capacity

/-- The capacity, doubled until the index is inside, has less than 2^31 bytes. -/
def Fits (capacity i : Nat) : Prop :=
  ∃ k, i < firstCapacity capacity * 2 ^ k ∧ valueSize * (firstCapacity capacity * 2 ^ k) < 2 ^ 31

theorem firstCapacity_pos (capacity : Nat) : 0 < firstCapacity capacity := by
  unfold firstCapacity
  split <;> omega

theorem Fits.mono {capacity i j : Nat} (h : Fits capacity i) (hj : j ≤ i) : Fits capacity j := by
  obtain ⟨k, hi, hk⟩ := h
  exact ⟨k, Nat.lt_of_le_of_lt hj hi, hk⟩

theorem fits_of_lt_length {v : ValueVector α} {i : Nat} (h : i < v.items.length) : Fits v.capacity i := by
  have hcap := Nat.lt_of_lt_of_le h v.length_le
  have hfirst : firstCapacity v.capacity = v.capacity := if_neg (by omega)
  refine ⟨0, ?_, ?_⟩ <;> rw [hfirst, Nat.pow_zero, Nat.mul_one]
  · exact hcap
  · exact v.allocated

/-- A capacity that is doubled leaves room for the same indexes from it on. -/
theorem fits_double {capacity i : Nat} (hpos : 0 < capacity) (hi : capacity ≤ i) : Fits (capacity * 2) i ↔ Fits capacity i := by
  have h1 : firstCapacity (capacity * 2) = capacity * 2 := if_neg (by omega)
  have h2 : firstCapacity capacity = capacity := if_neg (by omega)
  have hpow : ∀ k, capacity * 2 * 2 ^ k = capacity * 2 ^ (k + 1) := fun k => by rw [Nat.pow_succ', Nat.mul_assoc]
  unfold Fits
  rw [h1, h2]
  constructor
  · rintro ⟨k, hk⟩
    rw [hpow] at hk
    exact ⟨k + 1, hk⟩
  · rintro ⟨k, hk⟩
    cases k with
    | zero =>
      rw [Nat.pow_zero, Nat.mul_one] at hk
      omega
    | succ k =>
      rw [← hpow] at hk
      exact ⟨k, hk⟩

theorem not_fits_full {capacity : Nat} (hpos : 0 < capacity) (hsize : ¬ valueSize * (capacity * 2) < 2 ^ 31) :
    ¬ Fits capacity capacity := by
  have hfirst : firstCapacity capacity = capacity := if_neg (by omega)
  rintro ⟨k, hk, hlt⟩
  rw [hfirst] at hk hlt
  cases k with
  | zero =>
    rw [Nat.pow_zero, Nat.mul_one] at hk
    omega
  | succ k =>
    have hone : 1 ≤ 2 ^ k := Nat.one_le_two_pow
    have hle : capacity * 2 ≤ capacity * 2 ^ (k + 1) := by
      rw [Nat.pow_succ']
      exact Nat.mul_le_mul_left _ (by omega)
    have hle' := Nat.mul_le_mul_left valueSize hle
    omega

/-- **One more element has its place exactly if there is room for its index**, and afterwards there is room for the same
indexes behind it. -/
theorem addItem_cases (v : ValueVector α) (x : α) :
    (∃ w, v.addItem x = some w ∧ Fits v.capacity v.items.length ∧
      ∀ i, v.items.length ≤ i → (Fits w.capacity i ↔ Fits v.capacity i)) ∨
    (v.addItem x = none ∧ ¬ Fits v.capacity v.items.length) := by
  have hle := v.length_le
  have hadd : ∀ c, reserveCapacity v.capacity (v.items.length + 1) = some c → ∃ w, v.addItem x = some w ∧ w.capacity = c := by
    intro c hc
    unfold addItem
    split
    · rename_i c' hc'
      rw [hc] at hc'
      cases hc'
      exact ⟨_, rfl, rfl⟩
    · rename_i hnone
      rw [hc] at hnone
      cases hnone
  have hnone : reserveCapacity v.capacity (v.items.length + 1) = none → v.addItem x = none := by
    intro hc
    unfold addItem
    split
    · rename_i c' hc'
      rw [hc] at hc'
      cases hc'
    · rfl
  by_cases hroom : v.items.length < v.capacity
  · obtain ⟨w, hw, hc⟩ := hadd v.capacity (if_neg (by omega))
    have hfirst : firstCapacity v.capacity = v.capacity := if_neg (by omega)
    refine .inl ⟨w, hw, ⟨0, ?_, ?_⟩, fun i _ => by rw [hc]⟩ <;> rw [hfirst, Nat.pow_zero, Nat.mul_one]
    · exact hroom
    · exact v.allocated
  · have hfull : v.items.length = v.capacity := by omega
    rw [hfull] at hadd hnone ⊢
    by_cases hpos : 0 < v.capacity
    · have hgrown : max (if 0 < v.capacity then v.capacity * 2 else 4) (v.capacity + 1) = v.capacity * 2 := by
        rw [if_pos hpos]
        omega
      by_cases hsize : valueSize * (v.capacity * 2) < 2 ^ 31
      · obtain ⟨w, hw, hc⟩ := hadd (v.capacity * 2) (by
          unfold reserveCapacity
          rw [if_pos (Nat.lt_succ_self _), hgrown]
          exact if_pos hsize)
        refine .inl ⟨w, hw, (fits_double hpos (Nat.le_refl _)).1 ⟨0, ?_, ?_⟩, fun i hi => by rw [hc, fits_double hpos hi]⟩
        · rw [Nat.pow_zero, Nat.mul_one, firstCapacity, if_neg (by omega)]
          omega
        · rw [Nat.pow_zero, Nat.mul_one, firstCapacity, if_neg (by omega)]
          exact hsize
      · refine .inr ⟨hnone ?_, not_fits_full hpos hsize⟩
        unfold reserveCapacity
        rw [if_pos (Nat.lt_succ_self _), hgrown]
        exact if_neg hsize
    · have hzero : v.capacity = 0 := by omega
      rw [hzero] at hadd ⊢
      obtain ⟨w, hw, hc⟩ := hadd 4 rfl
      exact .inl ⟨w, hw, ⟨0, by decide, by decide⟩, fun i _ => by rw [hc]; rfl⟩

/-- The loop fills the gap, or comes to an element there is no room for. -/
theorem fill_cases (null : α) (i : Nat) (v : ValueVector α) :
    (∃ w, fill null i v = some w ∧ Fits v.capacity i ∧ w.items = v.items ++ List.replicate (i + 1 - v.items.length) null) ∨
    (fill null i v = none ∧ ¬ Fits v.capacity i) := by
  induction v using fill.induct null i with
  | case1 v hle w hw ih =>
    have hitems := addItem_items hw
    have hlen : w.items.length = v.items.length + 1 := by rw [hitems, List.length_append, List.length_singleton]
    have hfits : Fits w.capacity i ↔ Fits v.capacity i := by
      rcases addItem_cases v null with ⟨w', hw', -, hiff⟩ | ⟨hnone, -⟩
      · rw [hw] at hw'
        cases hw'
        exact hiff i hle
      · rw [hw] at hnone
        cases hnone
    have hfill : fill null i v = fill null i w := by
      rw [fill, if_pos hle]
      split
      · rename_i w' hw'
        rw [hw] at hw'
        cases hw'
        rfl
      · rename_i hnone
        rw [hw] at hnone
        cases hnone
    rw [hfill]
    rcases ih with ⟨u, hu, hfit, hitems'⟩ | ⟨hnone, hnot⟩
    · refine .inl ⟨u, hu, hfits.1 hfit, ?_⟩
      have hsucc : i + 1 - v.items.length = i + 1 - w.items.length + 1 := by omega
      rw [hitems', hitems, hsucc, List.replicate_succ, List.append_assoc, List.singleton_append, ← hitems]
    · exact .inr ⟨hnone, fun h => hnot (hfits.2 h)⟩
  | case2 v hle hnone =>
    refine .inr ⟨?_, fun h => ?_⟩
    · rw [fill, if_pos hle]
      split
      · rename_i w hw
        rw [hw] at hnone
        cases hnone
      · rfl
    · rcases addItem_cases v null with ⟨w, hw, -⟩ | ⟨-, hnot⟩
      · rw [hw] at hnone
        cases hnone
      · exact hnot (h.mono hle)
  | case3 v hlt =>
    have hlt' : i < v.items.length := Nat.lt_of_not_le hlt
    refine .inl ⟨v, by rw [fill, if_neg hlt], fits_of_lt_length hlt', ?_⟩
    rw [show i + 1 - v.items.length = 0 by omega, List.replicate_zero, List.append_nil]

/-- What a setter makes of the elements: one is replaced, or one is added behind nulls. -/
def written (null : α) (items : List α) (i : Nat) (x : α) : List α :=
  if i < items.length then items.set i x else items ++ List.replicate (i - items.length) null ++ [x]

theorem length_written {null : α} {items : List α} {i : Nat} (hi : i < items.length) (x : α) :
    (written null items i x).length = items.length := by
  rw [written, if_pos hi, List.length_set]

theorem getD_written (null : α) (items : List α) (i : Nat) (x : α) : (written null items i x).getD i null = x := by
  rw [written]
  split
  · rename_i hlt
    rw [List.getD_eq_getElem _ _ (by rw [List.length_set]; exact hlt), List.getElem_set_self]
  · have hlen : (items ++ List.replicate (i - items.length) null).length = i := by
      rw [List.length_append, List.length_replicate]
      omega
    rw [List.getD_append_right _ _ _ _ (Nat.le_of_eq hlen), hlen, Nat.sub_self]
    rfl

/-- **A value is stored at an index exactly if there is room for it**. -/
theorem store_cases (null : α) (i : Nat) (x : α) (v : ValueVector α) :
    (∃ w, store null i x v = some w ∧ Fits v.capacity i ∧ w.items = written null v.items i x) ∨
    (store null i x v = none ∧ ¬ Fits v.capacity i) := by
  unfold store written
  by_cases hi : i = v.items.length
  · rw [if_pos hi]
    rcases addItem_cases v x with ⟨w, hw, hfits, -⟩ | ⟨hnone, hnot⟩
    · refine .inl ⟨w, hw, hi ▸ hfits, ?_⟩
      rw [if_neg (by omega), addItem_items hw, hi, Nat.sub_self, List.replicate_zero, List.append_nil]
    · exact .inr ⟨hnone, hi ▸ hnot⟩
  · rw [if_neg hi]
    rcases fill_cases null i v with ⟨w, hw, hfits, hitems⟩ | ⟨hnone, hnot⟩
    · refine .inl ⟨w.set i x, by rw [hw, Option.map_some], hfits, ?_⟩
      show w.items.set i x = _
      rw [hitems]
      by_cases hlt : i < v.items.length
      · rw [if_pos hlt, show i + 1 - v.items.length = 0 by omega, List.replicate_zero, List.append_nil]
      · have hsucc : i + 1 - v.items.length = i - v.items.length + 1 := by omega
        have hlen : (v.items ++ List.replicate (i - v.items.length) null).length = i := by
          rw [List.length_append, List.length_replicate]
          omega
        rw [if_neg hlt, hsucc, List.replicate_succ', ← List.append_assoc, List.set_append_right i _ (Nat.le_of_eq hlen), hlen,
          Nat.sub_self, List.set_cons_zero]
    · exact .inr ⟨by rw [hnone, Option.map_none], hnot⟩

theorem store_isSome_iff (null : α) (i : Nat) (x : α) (v : ValueVector α) :
    (store null i x v).isSome ↔ Fits v.capacity i := by
  rcases store_cases null i x v with ⟨w, hw, hfits, -⟩ | ⟨hnone, hnot⟩
  · simp [hw, hfits]
  · simp [hnone, hnot]

theorem fits_of_lt (v : ValueVector α) {i : Nat} (hi : i < 2 ^ 26) : Fits v.capacity i := by
  have hdouble : ∀ n c, 0 < c → c < 2 ^ 27 → i + 1 - c ≤ n → ∃ k, i < c * 2 ^ k ∧ c * 2 ^ k < 2 ^ 27 := by
    intro n
    induction n with
    | zero => exact fun c hpos hc hn => ⟨0, by omega, by omega⟩
    | succ n ih =>
      intro c hpos hc hn
      by_cases hlt : i < c
      · exact ⟨0, by omega, by omega⟩
      · obtain ⟨k, hk⟩ := ih (c * 2) (by omega) (by omega) (by omega)
        rw [Nat.mul_assoc, ← Nat.pow_succ'] at hk
        exact ⟨k + 1, hk⟩
  have hcap : v.capacity < 2 ^ 27 := by
    have := v.allocated
    unfold valueSize at this
    omega
  have hfirst : firstCapacity v.capacity < 2 ^ 27 := by
    unfold firstCapacity
    split <;> omega
  obtain ⟨k, hk, hlt⟩ := hdouble _ _ (firstCapacity_pos _) hfirst (Nat.le_refl _)
  refine ⟨k, hk, ?_⟩
  unfold valueSize
  omega

/-- Of an array that was made empty there is none for others. -/
theorem fits_zero_iff {i : Nat} : Fits 0 i ↔ i < 2 ^ 26 := by
  constructor
  · rintro ⟨k, hk, hlt⟩
    have hfour : firstCapacity 0 * 2 ^ k = 2 ^ (k + 2) := by
      rw [Nat.pow_add, Nat.mul_comm]
      rfl
    rw [hfour] at hk hlt
    have hk26 : k + 2 ≤ 26 := by
      by_contra hgt
      have hle := Nat.pow_le_pow_right (n := 2) (by decide) (show 27 ≤ k + 2 by omega)
      unfold valueSize at hlt
      omega
    exact Nat.lt_of_lt_of_le hk (Nat.pow_le_pow_right (by decide) hk26)
  · exact fun h => fits_of_lt (empty : ValueVector Unit) h

end ValueVector
end Core
end ObjectScript
