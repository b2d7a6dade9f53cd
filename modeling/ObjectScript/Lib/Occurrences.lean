import Mathlib.Data.List.Infix
import Mathlib.Tactic.Common
/-!
# Occurrences

The places at which one list stands in another.

`At` says that a list stands at a position of another.  Splitting and searching are stated with it, whatever the elements
are.
-/
namespace Occurrences

variable {α : Type*}

/-- `pat` stands in `l` from `i` on. -/
def At (l pat : List α) (i : Nat) : Prop := pat <+: l.drop i

instance [DecidableEq α] (l pat : List α) (i : Nat) : Decidable (At l pat i) := inferInstanceAs (Decidable (_ <+: _))

theorem at_iff_take {l pat : List α} {i : Nat} : At l pat i ↔ (l.drop i).take pat.length = pat :=
  List.prefix_iff_eq_take.trans eq_comm

theorem At.drop_eq {l pat : List α} {i : Nat} (h : At l pat i) : l.drop i = pat ++ l.drop (i + pat.length) := by
  obtain ⟨rest, hrest⟩ := h
  rw [← List.drop_drop, ← hrest, List.drop_left]

theorem At.le_length {l pat : List α} {i : Nat} (h : At l pat i) (hne : pat ≠ []) : i + pat.length ≤ l.length := by
  have hlen := List.IsPrefix.length_le h
  have hpos := List.length_pos_iff.2 hne
  rw [List.length_drop] at hlen
  omega

/-- What stands between two places is what stands behind the first without what stands behind the second. -/
theorem take_append_drop_of_le {l : List α} {i j : Nat} (h : i ≤ j) : (l.drop i).take (j - i) ++ l.drop j = l.drop i := by
  have hdrop : l.drop j = (l.drop i).drop (j - i) := by rw [List.drop_drop, Nat.add_sub_cancel' h]
  rw [hdrop, List.take_append_drop]

theorem infix_iff_at {l pat : List α} : pat <:+: l ↔ ∃ i, At l pat i := by
  constructor
  · rintro ⟨s, t, rfl⟩
    exact ⟨s.length, t, by rw [List.append_assoc, List.drop_left]⟩
  · rintro ⟨i, h⟩
    exact h.isInfix.trans (List.drop_suffix i l).isInfix

/-- A list that stands nowhere from `i` up to `j` is not in what lies between. -/
theorem not_infix_between {l pat : List α} {i j : Nat} (hne : pat ≠ []) (h : ∀ k, i ≤ k → k < j → ¬At l pat k) :
    ¬pat <:+: (l.drop i).take (j - i) := by
  intro hin
  obtain ⟨k, hk⟩ := infix_iff_at.1 hin
  have hlen := hk.le_length hne
  have hpos := List.length_pos_iff.2 hne
  have htake := List.length_take_le (j - i) (l.drop i)
  refine h (i + k) (Nat.le_add_right _ _) (by omega) ?_
  have hpre : ((l.drop i).take (j - i)).drop k <+: (l.drop i).drop k := (List.take_prefix _ _).drop k
  rw [List.drop_drop] at hpre
  exact List.IsPrefix.trans hk hpre

end Occurrences
