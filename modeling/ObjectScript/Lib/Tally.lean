import Mathlib.Data.List.Count
import Mathlib.Data.List.Nodup
import Mathlib.Logic.Function.Basic
import Mathlib.Tactic.Common
/-!
# Tallies

Some holders hold things, each a list of them, and `tally` says how often a thing is held.  When one holder lets go of
what it has and takes something else, the tally changes by the difference (`tally_update`).  A reference count is right
when it is the tally.

Holders and things may be of any types, and a holder may hold a thing more than once.  Only finitely many holders hold
anything.
-/
namespace Tally

variable {ι κ : Type*} [DecidableEq κ]

/-- How often `k` is held by the holders `hs`. -/
def tally (hs : List ι) (f : ι → List κ) (k : κ) : Nat := (hs.flatMap f).count k

theorem tally_cons (h : ι) (hs : List ι) (f : ι → List κ) (k : κ) :
    tally (h :: hs) f k = (f h).count k + tally hs f k := by
  rw [tally, List.flatMap_cons, List.count_append]
  rfl

theorem tally_append (hs hs' : List ι) (f : ι → List κ) (k : κ) :
    tally (hs ++ hs') f k = tally hs f k + tally hs' f k := by
  rw [tally, List.flatMap_append, List.count_append]
  rfl

theorem tally_congr {hs : List ι} {f g : ι → List κ} (h : ∀ i ∈ hs, f i = g i) (k : κ) :
    tally hs f k = tally hs g k := by
  induction hs with
  | nil => rfl
  | cons i hs ih =>
    rw [tally_cons, tally_cons, h i List.mem_cons_self, ih fun j hj => h j (List.mem_cons_of_mem _ hj)]

theorem tally_mono {hs : List ι} {f g : ι → List κ} {k : κ} (h : ∀ i ∈ hs, (f i).count k ≤ (g i).count k) :
    tally hs f k ≤ tally hs g k := by
  induction hs with
  | nil => exact Nat.le_refl _
  | cons i hs ih =>
    rw [tally_cons, tally_cons]
    exact Nat.add_le_add (h i List.mem_cons_self) (ih fun j hj => h j (List.mem_cons_of_mem _ hj))

theorem tally_pos {hs : List ι} {f : ι → List κ} {k : κ} : 0 < tally hs f k ↔ ∃ h ∈ hs, k ∈ f h := by
  rw [tally, List.count_pos_iff, List.mem_flatMap]

variable [DecidableEq ι]

theorem tally_update_of_not_mem {hs : List ι} {h : ι} (hh : h ∉ hs) (f : ι → List κ) (new : List κ) (k : κ) :
    tally hs (Function.update f h new) k = tally hs f k := by
  refine tally_congr (fun i hi => ?_) k
  have hne : i ≠ h := by
    rintro rfl
    exact hh hi
  rw [Function.update_of_ne hne]

/-- **One holder lets go of what it has and takes something else.** -/
theorem tally_update {hs : List ι} (hnd : hs.Nodup) {h : ι} (hh : h ∈ hs) (f : ι → List κ) (new : List κ) (k : κ) :
    tally hs (Function.update f h new) k + (f h).count k = tally hs f k + new.count k := by
  obtain ⟨xs, ys, rfl⟩ := List.append_of_mem hh
  obtain ⟨hx, hy⟩ : h ∉ xs ∧ h ∉ ys := by
    rw [List.nodup_middle, List.nodup_cons, List.mem_append] at hnd
    grind
  rw [tally_append, tally_append, tally_cons, tally_cons, tally_update_of_not_mem hx, tally_update_of_not_mem hy,
    Function.update_self]
  omega

end Tally
