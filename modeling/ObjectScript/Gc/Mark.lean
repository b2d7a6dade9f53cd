import ObjectScript.Gc.CandidateLoop
/-!
# From the candidate loop to the marks

`freeCandidates_steps` puts the first part of a collection together: the stack is stamped, then the candidate loop runs.
`markAll_iff` says what the marks mean: an object is marked exactly when it can be reached from the roots, the stack, the
call frames and the candidates.

`Reached` is stated by paths and knows nothing of marks, stamps or candidates.  The later modules use it only: what the
sweep keeps, what the collection frees and what running functions need are all said with it.
-/
namespace ObjectScript
namespace Gc

open Links
open ObjectScript.Core (Ref)

variable {s t : State} {E : Obj → Prop} {c : Obj → Int} {cs ds : List Ref}

theorem Sound.nextStep (h : Sound s E c cs) : Sound { s with gcStepType := s.gcStepType + 1 } E c cs :=
  ⟨h.bounded, h.bounded_locals, h.bounded_program, h.nodup, h.ordered, h.lineage, h.balanced, h.exact, h.exact_others,
    h.credit, h.rooted, h.positive, h.candidates, h.candidates_live, fun o => Nat.le_succ_of_le (h.steps o)⟩

namespace State

/-! ## The stack -/

theorem markStackCandidate_sound {v : Slot} (h : Sound s E c cs) (hv : s.markStackCandidate v = some t) :
    t = { s with gcStep := t.gcStep } ∧ Sound t E c cs ∧ (∀ o, t.gcStep o = s.gcStep o ∨ t.gcStep o = s.gcStepType) ∧
      ∀ r ∈ cs, v = some r → t.gcStep (.value r) = s.gcStepType := by
  unfold markStackCandidate at hv
  cases v with
  | none =>
    obtain rfl := Option.some.inj hv
    exact ⟨rfl, h, fun _ => Or.inl rfl, fun r _ hr => by cases hr⟩
  | some r =>
    simp only at hv
    split at hv
    · rw [FreeCandidateValues.get_eq h.candidates r] at hv
      by_cases hr : r ∈ cs
      · rw [if_pos hr] at hv
        obtain rfl := Option.some.inj hv
        have hstep : ∀ o, Function.update s.gcStep (.value r) s.gcStepType o = s.gcStep o ∨
            Function.update s.gcStep (.value r) s.gcStepType o = s.gcStepType := by
          intro o
          by_cases ho : o = .value r
          · subst ho
            exact Or.inr (Function.update_self ..)
          · exact Or.inl (Function.update_of_ne ho _ _)
        refine ⟨rfl, h.retable rfl h.candidates h.candidates_live fun o => ?_, hstep, fun q _ hq => ?_⟩
        · rcases hstep o with ho | ho
          · exact Nat.le_trans (Nat.le_of_eq ho) (h.steps o)
          · exact Nat.le_of_eq ho
        · cases hq
          exact Function.update_self ..
      · rw [if_neg hr] at hv
        obtain rfl := Option.some.inj hv
        refine ⟨rfl, h, fun _ => Or.inl rfl, fun q hq hq' => ?_⟩
        cases hq'
        exact absurd hq hr
    · cases hv

theorem markStack_sound : ∀ (vs : List Slot) (s t : State), Sound s E c cs → vs.foldlM markStackCandidate s = some t →
    t = { s with gcStep := t.gcStep } ∧ Sound t E c cs ∧ (∀ o, t.gcStep o = s.gcStep o ∨ t.gcStep o = s.gcStepType) ∧
      ∀ r ∈ cs, some r ∈ vs → t.gcStep (.value r) = s.gcStepType
  | [], s, t, h, ht => by
    obtain rfl := Option.some.inj ht
    exact ⟨rfl, h, fun _ => Or.inl rfl, fun _ _ hr => by cases hr⟩
  | v :: vs, s, t, h, ht => by
    rw [List.foldlM_cons] at ht
    obtain ⟨u, hu, ht⟩ := Option.bind_eq_some_iff.1 ht
    obtain ⟨hframe, hsu, hstep, hhit⟩ := markStackCandidate_sound h hu
    obtain ⟨hframe', hst, hstep', hhit'⟩ := markStack_sound vs u t hsu ht
    have htype : u.gcStepType = s.gcStepType := by rw [hframe]
    refine ⟨by rw [hframe', hframe], hst, fun o => ?_, fun r hr hmem => ?_⟩
    · rcases hstep' o with h1 | h1
      · rw [h1]
        exact hstep o
      · exact Or.inr (h1.trans htype)
    · rcases List.mem_cons.1 hmem with heq | hmem
      · rcases hstep' (.value r) with h1 | h1
        · rw [h1]
          exact hhit r hr heq.symm
        · exact h1.trans htype
      · exact (hhit' r hr hmem).trans htype

/-- **The first part of a collection.** -/
theorem freeCandidates_steps {unlink : Unlink} {check : Check} (hunlink : Unlinks unlink check) (h : Sound s E 0 cs)
    (hf : s.gcFixInProgress = false) (ht : s.freeCandidates unlink = some t) :
    ∃ u ds, u = { s with gcStepType := s.gcStepType + 1, gcStep := u.gcStep } ∧ Sound u E 0 cs ∧ Stamped u cs ∧
      LoopSteps check E (u, cs) (t, ds) ∧ Sound t E 0 ds ∧ t.gcFixInProgress = false := by
  unfold freeCandidates at ht
  obtain ⟨u, hu, ht⟩ := Option.bind_eq_some_iff.1 ht
  obtain ⟨hframe, hsu, -, hhit⟩ := markStack_sound s.stack _ u h.nextStep hu
  have hstack : u.stack = s.stack := by rw [hframe]
  have htype : u.gcStepType = s.gcStepType + 1 := by rw [hframe]
  have hfix : u.gcFixInProgress = false := by
    rw [hframe]
    exact hf
  obtain ⟨ds, hsteps, hst, hfix'⟩ := candidateLoop_steps hunlink _ 0 u t cs hsu hfix ht
  refine ⟨u, ds, by rw [hframe], hsu, fun r hr hrs => ?_, hsteps, hst, hfix'⟩
  rw [htype]
  rw [hstack] at hrs
  exact hhit r hr hrs

/-! ## The candidates as roots -/

theorem chainCells_eq {f : LinkField Ref} : ∀ (ds : List Ref) (n : Nat) (p : Option Ref), Chain f p ds → ds.length < n →
    chainCells f n p = some ds
  | [], n + 1, _, rfl, _ => rfl
  | d :: ds, n + 1, _, ⟨rfl, h⟩, hn => by
    have ih := chainCells_eq ds n (f d) h (by simpa using hn)
    simp only [chainCells, ih, Option.bind_eq_bind, Option.bind_some, Option.pure_def]

theorem mapM_chainCells {f : LinkField Ref} {n : Nat} : ∀ (ps : List (Option Ref)) (css : List (List Ref)),
    List.Forall₂ (Chain f) ps css → (∀ ds ∈ css, ds.length < n) → ps.mapM (chainCells f n) = some css
  | [], _, .nil, _ => rfl
  | p :: ps, cs :: css, .cons hp hps, hn => by
    have h1 := chainCells_eq cs n p hp (hn cs List.mem_cons_self)
    have h2 := mapM_chainCells ps css hps fun ds hds => hn ds (List.mem_cons_of_mem _ hds)
    simp only [List.mapM_cons, h1, h2, Option.bind_eq_bind, Option.bind_some, Option.pure_def]

theorem candidateCells_some (h : s.candidates.Holds cs) (hh : s.candidates.heads.isSome) :
    ∃ cells, s.candidateCells = some cells ∧ ∀ r, r ∈ cells ↔ r ∈ cs := by
  obtain ⟨heads, hh⟩ := Option.isSome_iff_exists.1 hh
  obtain ⟨css, hcss, -, hmem, hlen⟩ := h.all_chains hh
  refine ⟨css.flatten, ?_, hmem⟩
  have := mapM_chainCells heads css hcss fun ds hds => Nat.lt_succ_of_le (hlen ds hds)
  simp only [candidateCells, hh, this, Option.bind_eq_bind, Option.bind_some, Option.pure_def]

/-! ## The marks -/

/-- **`o` can be reached** from the roots, the stack, the call frames and the candidates. -/
def Reached (s : State) (candidates : List Ref) (o : Obj) : Prop := Marking.Reached s.fields (s.markRoots candidates) o

structure MarkedAll (s t : State) (candidates : List Ref) : Prop where
  frame : t = { s with gcStepType := s.gcStepType + 1, gcStep := t.gcStep }
  marks : ∀ o, t.gcStep o = t.gcStepType ↔ s.Reached candidates o
  fields : ∀ o, s.Reached candidates o → (s.fields o).isSome

theorem markAll_marked {cells : List Ref} (h : Sound s E c cs) (ht : s.markAll cells = some t) :
    MarkedAll s t cells ∧ Sound t E c cs := by
  unfold markAll at ht
  obtain ⟨gcStep, hm, ht⟩ := Option.bind_eq_some_iff.1 ht
  obtain rfl := Option.some.inj ht
  have hnew : ∀ o, s.gcStep o ≠ s.gcStepType + 1 := fun o => Nat.ne_of_lt (Nat.lt_succ_of_le (h.steps o))
  have hmarks := Marking.markAll_marks hm
  have hiff := Marking.markAll_iff hm hnew
  refine ⟨⟨rfl, hiff, fun o ho => ?_⟩, ?_⟩
  · obtain ⟨os, hos, -⟩ := hmarks.closed o (hnew o) ((hiff o).2 ho)
    exact Option.isSome_of_eq_some hos
  refine h.nextStep.retable (t := { s with gcStepType := s.gcStepType + 1, gcStep := gcStep }) rfl h.candidates
    h.candidates_live fun o => ?_
  by_cases ho : gcStep o = s.gcStepType + 1
  · exact Nat.le_of_eq ho
  · have := hmarks.other o ho
    exact Nat.le_trans (Nat.le_of_eq this) (Nat.le_succ_of_le (h.steps o))

theorem Reached.step {cells : List Ref} {o p : Obj} {os : List Obj} (h : s.Reached cells o) (ho : s.fields o = some os)
    (hp : p ∈ os) : s.Reached cells p := Marking.Reached.step h ho hp

theorem reached_of_root {cells : List Ref} {o : Obj} (h : o ∈ s.markRoots cells) : s.Reached cells o :=
  Marking.reached_root h

theorem reached_running {f : StackFunction} (hf : f ∈ s.callStack) (cells : List Ref) : s.Reached cells (.value f.func) := by
  refine reached_of_root ?_
  have hmem : Obj.value f.func ∈ s.callStack.flatMap StackFunction.fields := List.mem_flatMap.2 ⟨f, hf, List.mem_cons_self⟩
  unfold markRoots
  simp only [List.mem_append]
  grind

end State

end Gc
end ObjectScript
