import Mathlib.Logic.Function.Basic
import Mathlib.Logic.Relation
import Mathlib.Tactic.Common
/-!
# Marking

`mark` walks a graph depth first and stamps with `now` every node it meets; a node that already has the stamp is left
alone.  A node without a list of successors is one that is not there, and reading it has no result.  What a walk from
some roots stamps is what can be reached from them (`markAll_iff`), and all of it is there (`Marks.closed`).
-/
namespace Marking

variable {ν : Type*} [DecidableEq ν] (succ : ν → Option (List ν)) (now : Nat)

/-- `n` bounds the depth of the recursion. -/
def mark : Nat → (ν → Nat) → ν → Option (ν → Nat)
  | 0, _, _ => none
  | n + 1, st, v =>
    if st v = now then some st
    else do
      let cs ← succ v
      cs.foldlM (fun st c => mark n st c) (Function.update st v now)

def markAll (n : Nat) (st : ν → Nat) (vs : List ν) : Option (ν → Nat) :=
  vs.foldlM (fun st v => mark succ now n st v) st

omit [DecidableEq ν] in
/-- `w` is a successor of `v`. -/
def Edge (v w : ν) : Prop := ∃ cs, succ v = some cs ∧ w ∈ cs

omit [DecidableEq ν] in
/-- **`x` can be reached from one of `vs`.** -/
def Reached (vs : List ν) (x : ν) : Prop := ∃ v ∈ vs, Relation.ReflTransGen (Edge succ) v x

variable {succ now}

omit [DecidableEq ν] in
theorem reached_root {vs : List ν} {v : ν} (h : v ∈ vs) : Reached succ vs v := ⟨v, h, .refl⟩

omit [DecidableEq ν] in
theorem Reached.step {vs cs : List ν} {v c : ν} (h : Reached succ vs v) (hv : succ v = some cs) (hc : c ∈ cs) :
    Reached succ vs c := by
  obtain ⟨r, hr, hrv⟩ := h
  exact ⟨r, hr, hrv.tail ⟨cs, hv, hc⟩⟩

/-- What a walk from `vs` does to the stamps. -/
structure Marks (succ : ν → Option (List ν)) (now : Nat) (vs : List ν) (st st' : ν → Nat) : Prop where
  keeps : ∀ x, st x = now → st' x = now
  other : ∀ x, st' x ≠ now → st' x = st x
  hits : ∀ v ∈ vs, st' v = now
  closed : ∀ x, st x ≠ now → st' x = now → ∃ cs, succ x = some cs ∧ ∀ c ∈ cs, st' c = now
  reached : ∀ x, st x ≠ now → st' x = now → Reached succ vs x

omit [DecidableEq ν] in
theorem Marks.refl {v : ν} {st : ν → Nat} (h : st v = now) : Marks succ now [v] st st :=
  ⟨fun _ h => h, fun _ _ => rfl, by simpa using h, fun _ h h' => absurd h' h, fun _ h h' => absurd h' h⟩

omit [DecidableEq ν] in
theorem Marks.nil (st : ν → Nat) : Marks succ now [] st st :=
  ⟨fun _ h => h, fun _ _ => rfl, by simp, fun _ h h' => absurd h' h, fun _ h h' => absurd h' h⟩

omit [DecidableEq ν] in
theorem Marks.cons {v : ν} {vs : List ν} {st st' st'' : ν → Nat} (h : Marks succ now [v] st st')
    (h' : Marks succ now vs st' st'') : Marks succ now (v :: vs) st st'' := by
  refine ⟨fun x hx => h'.keeps x (h.keeps x hx), fun x hx => ?_, fun w hw => ?_, fun x hx hx' => ?_, fun x hx hx' => ?_⟩
  · have hx1 := h'.other x hx
    rw [hx1]
    exact h.other x (hx1 ▸ hx)
  · rcases List.mem_cons.1 hw with rfl | hw
    · exact h'.keeps w (h.hits w (by simp))
    · exact h'.hits w hw
  · by_cases hx1 : st' x = now
    · obtain ⟨cs, hs, hcs⟩ := h.closed x hx hx1
      exact ⟨cs, hs, fun c hc => h'.keeps c (hcs c hc)⟩
    · exact h'.closed x hx1 hx'
  · by_cases hx1 : st' x = now
    · obtain ⟨w, hw, hwx⟩ := h.reached x hx hx1
      exact ⟨w, List.mem_cons.2 (Or.inl (by simpa using hw)), hwx⟩
    · obtain ⟨w, hw, hwx⟩ := h'.reached x hx1 hx'
      exact ⟨w, List.mem_cons_of_mem _ hw, hwx⟩

/-- The walk from a list, given what the walk from one node does. -/
theorem foldlM_marks {n : Nat} (ih : ∀ (st st' : ν → Nat) (v : ν), mark succ now n st v = some st' →
    Marks succ now [v] st st') : ∀ (vs : List ν) (st st' : ν → Nat),
    vs.foldlM (fun st v => mark succ now n st v) st = some st' → Marks succ now vs st st'
  | [], st, st', h => by
    obtain rfl : st = st' := Option.some.inj h
    exact Marks.nil st
  | v :: vs, st, st', h => by
    rw [List.foldlM_cons] at h
    obtain ⟨st1, h1, h2⟩ := Option.bind_eq_some_iff.1 h
    exact (ih st st1 v h1).cons (foldlM_marks ih vs st1 st' h2)

theorem mark_marks : ∀ (n : Nat) (st st' : ν → Nat) (v : ν), mark succ now n st v = some st' →
    Marks succ now [v] st st'
  | 0, _, _, _, h => by cases h
  | n + 1, st, st', v, h => by
    unfold mark at h
    split at h
    · rename_i hv
      obtain rfl : st = st' := Option.some.inj h
      exact Marks.refl hv
    · rename_i hv
      obtain ⟨cs, hcs, hfold⟩ := Option.bind_eq_some_iff.1 h
      have hm := foldlM_marks (mark_marks n) cs _ _ hfold
      have hst : ∀ x, x ≠ v → Function.update st v now x = st x := fun x hx => Function.update_of_ne hx _ _
      have hroot : st' v = now := hm.keeps v (Function.update_self ..)
      refine ⟨fun x hx => ?_, fun x hx => ?_, by simpa using hroot, fun x hx hx' => ?_, fun x hx hx' => ?_⟩
      · by_cases hxv : x = v
        · rw [hxv, hroot]
        · exact hm.keeps x (by rw [hst x hxv]; exact hx)
      · have hxv : x ≠ v := by rintro rfl; exact hx hroot
        rw [hm.other x hx, hst x hxv]
      · by_cases hxv : x = v
        · subst hxv
          exact ⟨cs, hcs, hm.hits⟩
        · exact hm.closed x (by rw [hst x hxv]; exact hx) hx'
      · by_cases hxv : x = v
        · exact ⟨v, by simp, by rw [hxv]⟩
        · obtain ⟨c, hc, hcx⟩ := hm.reached x (by rw [hst x hxv]; exact hx) hx'
          exact ⟨v, by simp, Relation.ReflTransGen.head ⟨cs, hcs, hc⟩ hcx⟩

theorem markAll_marks {n : Nat} {vs : List ν} {st st' : ν → Nat} (h : markAll succ now n st vs = some st') :
    Marks succ now vs st st' := foldlM_marks (mark_marks n) vs st st' h

/-- **When no node has the stamp yet, the nodes stamped are the nodes reached.** -/
theorem markAll_iff {n : Nat} {vs : List ν} {st st' : ν → Nat} (h : markAll succ now n st vs = some st')
    (hst : ∀ x, st x ≠ now) (x : ν) : st' x = now ↔ Reached succ vs x := by
  have hm := markAll_marks h
  refine ⟨hm.reached x (hst x), ?_⟩
  rintro ⟨v, hv, hvx⟩
  induction hvx with
  | refl => exact hm.hits v hv
  | tail _ hedge ih =>
    obtain ⟨cs, hs, hc⟩ := hedge
    obtain ⟨ds, hs', hds⟩ := hm.closed _ (hst _) ih
    rw [hs] at hs'
    exact hds _ ((Option.some.inj hs') ▸ hc)

end Marking
