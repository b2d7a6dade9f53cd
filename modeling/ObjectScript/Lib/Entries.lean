import Mathlib.Data.List.Basic
import Mathlib.Tactic.Common
/-!
# Entries

A map as the list of its keys and values in the order they came.  Keys are compared by an equality that need not be
reflexive: a key that does not equal itself is put in, and never found again.  What is found after an entry was put in or
removed is what was found before, but for the keys that equal its key (`find_put`, `find_remove`).
-/
namespace Entries

variable {κ α : Type*} [BEq κ]

def find : List (κ × α) → κ → Option α
  | [], _ => none
  | (k', a) :: l, k => if k' == k then some a else find l k

/-- The first entry of the key is given the value; where there is none, an entry is added to the end. -/
def put : List (κ × α) → κ → α → List (κ × α)
  | [], k, a => [(k, a)]
  | (k', a') :: l, k, a => if k' == k then (k', a) :: l else (k', a') :: put l k a

def remove : List (κ × α) → κ → List (κ × α)
  | [], _ => []
  | (k', a) :: l, k => if k' == k then l else (k', a) :: remove l k

def Distinct (l : List (κ × α)) : Prop := l.Pairwise fun p q => ¬ (p.1 == q.1) = true

theorem mem_of_find : ∀ {l : List (κ × α)} {k : κ} {a : α}, find l k = some a → ∃ k', (k', a) ∈ l ∧ (k' == k) = true
  | (k', b) :: l, k, a, h => by
    rw [find] at h
    split at h
    · rename_i hk
      obtain rfl := Option.some.inj h
      exact ⟨k', List.mem_cons_self, hk⟩
    · obtain ⟨k'', hmem, hk⟩ := mem_of_find h
      exact ⟨k'', List.mem_cons_of_mem _ hmem, hk⟩

theorem find_eq_none : ∀ {l : List (κ × α)} {k : κ}, find l k = none ↔ ∀ p ∈ l, ¬ (p.1 == k) = true
  | [], _ => by simp [find]
  | (k', a) :: l, k => by
    rw [find, List.forall_mem_cons]
    split
    · rename_i hk
      simp [hk]
    · rename_i hk
      rw [find_eq_none]
      exact ⟨fun h => ⟨hk, h⟩, fun h => h.2⟩

theorem mem_put : ∀ {l : List (κ × α)} {k : κ} {a : α} {p : κ × α}, p ∈ put l k a →
    p ∈ l ∨ p.2 = a ∧ (p.1 = k ∨ ∃ q ∈ l, p.1 = q.1)
  | [], k, a, p, h => by
    obtain rfl := List.mem_singleton.1 h
    exact .inr ⟨rfl, .inl rfl⟩
  | (k', a') :: l, k, a, p, h => by
    rw [put] at h
    split at h
    · rcases List.mem_cons.1 h with rfl | h
      · exact .inr ⟨rfl, .inr ⟨_, List.mem_cons_self, rfl⟩⟩
      · exact .inl (List.mem_cons_of_mem _ h)
    · rcases List.mem_cons.1 h with rfl | h
      · exact .inl List.mem_cons_self
      · rcases mem_put h with hl | ⟨ha, hk | ⟨q, hq, hk⟩⟩
        · exact .inl (List.mem_cons_of_mem _ hl)
        · exact .inr ⟨ha, .inl hk⟩
        · exact .inr ⟨ha, .inr ⟨q, List.mem_cons_of_mem _ hq, hk⟩⟩

theorem put_ne_nil (l : List (κ × α)) (k : κ) (a : α) : put l k a ≠ [] := by
  cases l with
  | nil => exact List.cons_ne_nil _ _
  | cons p l =>
    rw [put]
    split <;> exact List.cons_ne_nil _ _

theorem remove_subset : ∀ {l : List (κ × α)} {k : κ} {p : κ × α}, p ∈ remove l k → p ∈ l
  | (k', a) :: l, k, p, h => by
    rw [remove] at h
    split at h
    · exact List.mem_cons_of_mem _ h
    · rcases List.mem_cons.1 h with rfl | h
      · exact List.mem_cons_self
      · exact List.mem_cons_of_mem _ (remove_subset h)

theorem length_remove : ∀ {l : List (κ × α)} {k : κ} {a : α}, find l k = some a → (remove l k).length + 1 = l.length
  | (k', b) :: l, k, a, h => by
    rw [find] at h
    rw [remove]
    split at h
    · rename_i hk
      rw [if_pos hk, List.length_cons]
    · rename_i hk
      rw [if_neg hk, List.length_cons, List.length_cons, length_remove h]

theorem Distinct.remove : ∀ {l : List (κ × α)}, Distinct l → ∀ k, Distinct (remove l k)
  | [], h, _ => h
  | (k', a) :: l, h, k => by
    obtain ⟨hhead, htail⟩ := List.pairwise_cons.1 h
    rw [Entries.remove]
    split
    · exact htail
    · exact List.pairwise_cons.2 ⟨fun p hp => hhead p (remove_subset hp), Distinct.remove htail k⟩

theorem Distinct.put : ∀ {l : List (κ × α)}, Distinct l → ∀ (k : κ) (a : α), Distinct (put l k a)
  | [], _, k, a => List.pairwise_singleton _ _
  | (k', a') :: l, h, k, a => by
    obtain ⟨hhead, htail⟩ := List.pairwise_cons.1 h
    rw [Entries.put]
    by_cases hk : (k' == k) = true
    · rw [if_pos hk]
      exact List.pairwise_cons.2 ⟨hhead, htail⟩
    · rw [if_neg hk]
      refine List.pairwise_cons.2 ⟨fun p hp => ?_, Distinct.put htail k a⟩
      rcases mem_put hp with hl | ⟨-, hpk | ⟨q, hq, hpq⟩⟩
      · exact hhead p hl
      · rw [hpk]
        exact hk
      · rw [hpq]
        exact hhead q hq

/-- An entry of a map without equal keys is found by its key, if that equals itself. -/
theorem find_of_mem : ∀ {l : List (κ × α)}, Distinct l → ∀ {k : κ} {a : α}, (k, a) ∈ l → (k == k) = true → find l k = some a
  | (k', a') :: l, h, k, a, hmem, hrefl => by
    obtain ⟨hhead, htail⟩ := List.pairwise_cons.1 h
    rw [find]
    rcases List.mem_cons.1 hmem with heq | hmem
    · obtain ⟨rfl, rfl⟩ := Prod.mk.inj heq
      rw [if_pos hrefl]
    · rw [if_neg (hhead _ hmem), find_of_mem htail hmem hrefl]

variable [PartialEquivBEq κ]

theorem beq_congr_left {k k' : κ} (h : (k == k') = true) (c : κ) : (k == c) = (k' == c) :=
  Bool.eq_iff_iff.2 ⟨fun h' => PartialEquivBEq.trans (PartialEquivBEq.symm h) h', fun h' => PartialEquivBEq.trans h h'⟩

theorem beq_congr_right {k k' : κ} (h : (k == k') = true) (c : κ) : (c == k) = (c == k') :=
  Bool.eq_iff_iff.2 ⟨fun h' => PartialEquivBEq.trans h' h, fun h' => PartialEquivBEq.trans h' (PartialEquivBEq.symm h)⟩

theorem find_put : ∀ (l : List (κ × α)) (k : κ) (a : α) (c : κ),
    find (put l k a) c = if k == c then some a else find l c
  | [], k, a, c => by simp only [put, find]
  | (k', a') :: l, k, a, c => by
    rw [put]
    by_cases hk : (k' == k) = true
    · rw [if_pos hk, find, beq_congr_left hk c, find, beq_congr_left hk c]
      split
      · rfl
      · rfl
    · rw [if_neg hk, find, find_put l k a c, find]
      by_cases hc : (k' == c) = true
      · have hkc : ¬ (k == c) = true := fun h => hk (PartialEquivBEq.trans hc (PartialEquivBEq.symm h))
        rw [if_pos hc, if_neg hkc, if_pos hc]
      · rw [if_neg hc, if_neg hc]

theorem find_remove : ∀ {l : List (κ × α)}, Distinct l → ∀ k c : κ,
    find (remove l k) c = if k == c then none else find l c
  | [], _, k, c => by
    rw [remove, find]
    split <;> rfl
  | (k', a) :: l, h, k, c => by
    obtain ⟨hhead, htail⟩ := List.pairwise_cons.1 h
    rw [remove, find]
    by_cases hk : (k' == k) = true
    · rw [if_pos hk, ← beq_congr_left hk c]
      split
      · rename_i hc
        exact find_eq_none.2 fun p hp hpc => hhead p hp (PartialEquivBEq.trans hc (PartialEquivBEq.symm hpc))
      · rfl
    · rw [if_neg hk, find, find_remove htail k c]
      by_cases hc : (k' == c) = true
      · have hkc : ¬ (k == c) = true := fun h => hk (PartialEquivBEq.trans hc (PartialEquivBEq.symm h))
        rw [if_pos hc, if_neg hkc, if_pos hc]
      · rw [if_neg hc, if_neg hc]

end Entries
