import ObjectScript.Gc.Release
/-!
# The candidate loop

What the candidate loop does is a run of two steps (`LoopStep`): a candidate that is counted leaves the table, and one
that is not is cleared and freed.  `candidateLoop_steps` says so for the code's way to unlink a candidate and for the
checked ones (`Check`); every fact about the loop is then a fact about one step.

The candidate to be unlinked has the predecessor the loop remembers, but what `clearValue` has pushed since stands in
front of both.  With a predecessor it stays there; without one it is lost (`Unlinked`), and the check of `unlinkHead`
is that there is none of it.
-/
namespace ObjectScript
namespace Gc

open Links
open ObjectScript.Core (Ref)

inductive Check where
  /-- Nothing, as in the code. -/
  | code
  /-- Without a predecessor it is the head of its chain. -/
  | head
  /-- If it is to be freed, no call runs it. -/
  | idle

/-- A function that unlinks as the code does, and only what meets the check. -/
def Unlinks (unlink : Unlink) (check : Check) : Prop := ∀ s i prev r c', unlink s i prev r = some c' →
  s.candidates.unlink i prev r = some c' ∧
    (check = .head → prev = none → (s.candidates.heads.getD [])[i]? = some (some r)) ∧
    (check = .idle → s.refCount (.value r) = 0 → s.refCount (.external r) = 0 → ∀ f ∈ s.callStack, f.func ≠ r)

theorem unlinks_unlink : Unlinks State.unlink .code :=
  fun _ _ _ _ _ h => ⟨h, fun hc => Check.noConfusion hc, fun hc => Check.noConfusion hc⟩

theorem unlinks_unlinkHead : Unlinks State.unlinkHead .head := by
  intro s i prev r c' h
  unfold State.unlinkHead at h
  split at h
  · cases h
  · rename_i hn
    refine ⟨h, fun _ hp => ?_, fun hc => Check.noConfusion hc⟩
    by_contra hne
    exact hn ⟨hp, hne⟩

theorem unlinks_unlinkIdle : Unlinks State.unlinkIdle .idle := by
  intro s i prev r c' h
  unfold State.unlinkIdle at h
  split at h
  · cases h
  · rename_i hn
    refine ⟨h, fun hc => Check.noConfusion hc, fun _ hv hx f hf hfr => hn ⟨⟨hv, hx⟩, ?_⟩⟩
    exact List.any_eq_true.2 ⟨f, hf, beq_iff_eq.2 hfr⟩

abbrev Config := State × List Ref

open State in
/-- **One step of the candidate loop.** -/
inductive LoopStep (check : Check) (E : Obj → Prop) : Config → Config → Prop
  /-- A candidate that is counted is no candidate any more. -/
  | drop {s : State} {c : FreeCandidateValues} {cs : List Ref} {i : Nat} {pre xs ys : List Ref} {r : Ref} :
      Sound s E 0 cs → s.refCount (.value r) ≠ 0 ∨ s.refCount (.external r) ≠ 0 → r ∈ cs →
      FreeCandidateValues.Unlinked s.candidates c cs i pre xs ys r → (check = .head → xs = [] → pre = []) →
      LoopStep check E (s, cs) ({ s with candidates := c }, cs.filter fun d => d ≠ r ∧ (xs = [] → d ∉ pre))
  /-- A candidate that is neither counted nor marked is cleared and freed. -/
  | free {s t : State} {c : FreeCandidateValues} {cs ds : List Ref} {i : Nat} {pre xs ys : List Ref} {r : Ref} {g : GCValue} :
      Sound s E 0 cs → s.refCount (.value r) = 0 → s.refCount (.external r) = 0 →
      s.gcStep (.value r) ≠ s.gcStepType → r ∈ cs →
      FreeCandidateValues.Unlinked s.candidates c cs i pre xs ys r → (check = .head → xs = [] → pre = []) →
      (check = .idle → ∀ f ∈ s.callStack, f.func ≠ r) → s.value r = some g →
      Effect ({ s with candidates := c }.setValueAt r (some .cleared)) t
        (cs.filter fun d => d ≠ r ∧ (xs = [] → d ∉ pre)) ds →
      Sound t E 0 ds → r ∉ ds →
      LoopStep check E (s, cs) (t.deleteValue r, ds)

abbrev LoopSteps (check : Check) (E : Obj → Prop) : Config → Config → Prop :=
  Relation.ReflTransGen (LoopStep check E)

variable {s t : State} {E : Obj → Prop} {c : Obj → Int} {cs ds : List Ref}

theorem Sound.unlink (h : Sound s E c cs) {c' : FreeCandidateValues} {i : Nat} {pre xs ys : List Ref} {r : Ref}
    (hu : FreeCandidateValues.Unlinked s.candidates c' cs i pre xs ys r) :
    Sound { s with candidates := c' } E c (cs.filter fun d => d ≠ r ∧ (xs = [] → d ∉ pre)) :=
  h.retable (t := { s with candidates := c' }) rfl hu.holds (fun q hq => h.candidates_live q (List.mem_of_mem_filter hq))
    h.steps

theorem Sound.owned_eq_zero (h : Sound s E c cs) {o : Obj} (hl : s.Live o) (hz : s.refCount o ≤ 0) : s.owned o = 0 := by
  have h1 := h.balanced o hl
  have h2 := h.credit o
  omega

namespace State

theorem not_skipped_of_not_fix (hf : s.gcFixInProgress = false) (o : Obj) : ¬ s.Skipped o := by
  rintro ⟨r, rfl, hr⟩
  unfold skips at hr
  rw [hf] at hr
  cases hr

/-- What is left of the chain after a candidate was taken out. -/
theorem chain_free {ns pre xs ys : List Ref} {i : Nat} {c : FreeCandidateValues}
    (h : c.ChainAt i (ns ++ (pre ++ (xs ++ ys)))) : c.ChainAt i ((ns ++ pre) ++ (xs ++ ys)) := by
  rw [List.append_assoc]
  exact h

variable {unlink : Unlink} {check : Check}

/-- What `unlink` does in a chain whose rest and whose predecessor the loop knows. -/
theorem unlinked_of (hunlink : Unlinks unlink check) (h : Sound s E c cs) {i : Nat} {pre xs ys : List Ref} {r : Ref}
    {c' : FreeCandidateValues} (hchain : s.candidates.ChainAt i (pre ++ (xs ++ r :: ys)))
    (hc : unlink s i xs.getLast? r = some c') : FreeCandidateValues.Unlinked s.candidates c' cs i pre xs ys r ∧
      (check = .head → xs = [] → pre = []) ∧
      (check = .idle → s.refCount (.value r) = 0 → s.refCount (.external r) = 0 → ∀ f ∈ s.callStack, f.func ≠ r) := by
  obtain ⟨hc, hhead, hidle⟩ := hunlink _ _ _ _ _ hc
  obtain ⟨c1, hc1, hu⟩ := FreeCandidateValues.unlink_some h.candidates hchain
  obtain rfl : c1 = c' := Option.some.inj (hc1.symm.trans hc)
  refine ⟨hu, fun hch hxs => ?_, hidle⟩
  subst hxs
  obtain ⟨heads, p, hh, hp, hchain⟩ := hchain
  have hp' := hhead hch rfl
  rw [hh, Option.getD_some, hp] at hp'
  obtain rfl : p = some r := Option.some.inj hp'
  -- the chain starts with `r`, and meets it once
  cases pre with
  | nil => rfl
  | cons q pre =>
    have hnd := chain_nodup hchain
    obtain ⟨rfl, -⟩ : r = q ∧ _ := ⟨Option.some.inj hchain.1, trivial⟩
    simp at hnd

theorem freed_step (hunlink : Unlinks unlink check) (hs : Sound s E 0 cs) (hf : s.gcFixInProgress = false) {i : Nat}
    {pre xs ys : List Ref} {r : Ref} (hchain : s.candidates.ChainAt i (pre ++ (xs ++ r :: ys)))
    (hcount : s.refCount (.value r) = 0 ∧ s.refCount (.external r) = 0) (hstep : s.gcStep (.value r) ≠ s.gcStepType)
    {c' : FreeCandidateValues} (hc' : unlink s i xs.getLast? r = some c') {u : State}
    (hclear : clearValue { s with candidates := c' } r = some u) :
    ∃ ds, LoopStep check E (s, cs) (u.deleteValue r, ds) ∧ Sound (u.deleteValue r) E 0 ds ∧
      (u.deleteValue r).gcFixInProgress = false ∧
      ((u.deleteValue r).candidates.headMask = s.candidates.headMask →
        ∃ ns, (u.deleteValue r).candidates.ChainAt i (ns ++ (xs ++ ys))) := by
  have hr : r ∈ cs := ((FreeCandidateValues.cells_subset hs.candidates hchain r).1 (by simp)).1
  obtain ⟨hu, hch, hidle⟩ := unlinked_of hunlink hs hchain hc'
  have hs1 := hs.unlink hu
  obtain ⟨g, hg, ds, heff, hsound⟩ := hs1.clearValue hclear
  rw [spend_earn] at hsound
  have hsound' : Sound u E 0 ds := hsound.weaken
    (fun o ho => ⟨ho, fun hsk => not_skipped_of_not_fix hf o hsk.1⟩) hs.exact_others
  -- `r` itself was not counted, so nothing has registered it
  have hrds : r ∉ ds := by
    intro hmem
    have hnot : r ∉ cs.filter fun d => d ≠ r ∧ (xs = [] → d ∉ pre) := by simp
    obtain ⟨-, -, hpos⟩ := heff.registered r hmem hnot
    rcases hpos with hpos | hpos
    · exact absurd hcount.1 (Int.ne_of_gt hpos.2)
    · exact absurd hcount.2 (Int.ne_of_gt hpos)
  have hval : u.value r = some .cleared := by
    rw [heff.value]
    exact Function.update_self ..
  have hown : u.owned (.external r) = 0 := by
    refine hsound'.owned_eq_zero (live_external.2 (by rw [hval]; rfl)) ?_
    have hle : u.refCount (.external r) ≤ s.refCount (.external r) := heff.refCount (.external r)
    omega
  refine ⟨ds, .free hs hcount.1 hcount.2 hstep hr hu hch (fun hc => hidle hc hcount.1 hcount.2) hg heff hsound' hrds,
    hsound'.deleteValue hval hown hrds, heff.gcFixInProgress.trans hf, fun hmask => ?_⟩
  obtain ⟨pre', hchain', -⟩ := hu.chain
  have hmask' : u.candidates.headMask = c'.headMask := hmask.trans hu.mask.symm
  obtain ⟨ns, hns⟩ := heff.grown.chains hmask' i _ hchain'
  exact ⟨ns ++ pre', chain_free hns⟩

theorem candidateChain_steps (hunlink : Unlinks unlink check) (i : Nat) : ∀ (n : Nat) (s t : State) (cs : List Ref)
    (pre xs ys : List Ref), Sound s E 0 cs → s.gcFixInProgress = false → s.candidates.ChainAt i (pre ++ (xs ++ ys)) →
    candidateChain unlink i n s xs.getLast? ys.head? = some t →
    ∃ ds, LoopSteps check E (s, cs) (t, ds) ∧ Sound t E 0 ds ∧ t.gcFixInProgress = false
  | 0, _, _, _, _, _, _, _, _, _, h => by cases h
  | n + 1, s, t, cs, pre, xs, [], hs, hf, _, h => by
    obtain rfl := Option.some.inj h
    exact ⟨cs, .refl, hs, hf⟩
  | n + 1, s, t, cs, pre, xs, r :: ys, hs, hf, hchain, h => by
    have hr : r ∈ cs := ((FreeCandidateValues.cells_subset hs.candidates hchain r).1 (by simp)).1
    have hnext : s.candidates.hashNext r = ys.head? := by
      obtain ⟨heads, p, -, -, hch⟩ := hchain
      rw [← List.append_assoc] at hch
      exact chain_get hch
    simp only [List.head?_cons, candidateChain, hnext] at h
    split at h
    · rename_i hcount
      obtain ⟨c', hc', h⟩ := Option.bind_eq_some_iff.1 h
      obtain ⟨hu, hch, -⟩ := unlinked_of hunlink hs hchain hc'
      obtain ⟨pre', hchain', -⟩ := hu.chain
      obtain ⟨ds, hsteps, hsound, hfix⟩ := candidateChain_steps hunlink i n _ t _ pre' xs ys (hs.unlink hu) hf hchain' h
      exact ⟨ds, .head (.drop hs hcount hr hu hch) hsteps, hsound, hfix⟩
    · rename_i hcount
      rw [not_or, not_not, not_not] at hcount
      split at h
      · rw [← List.getLast?_concat (l := xs)] at h
        exact candidateChain_steps hunlink i n s t cs pre (xs ++ [r]) ys hs hf (by simpa using hchain) h
      · rename_i hstep
        obtain ⟨c', hc', h⟩ := Option.bind_eq_some_iff.1 h
        obtain ⟨u, hclear, h⟩ := Option.bind_eq_some_iff.1 h
        obtain ⟨ds, hone, hdel, hfix, hrest⟩ := freed_step hunlink hs hf hchain hcount hstep hc' hclear
        split at h
        · obtain rfl := Option.some.inj h
          exact ⟨ds, .single hone, hdel, hfix⟩
        · rename_i hmask
          rw [not_not] at hmask
          obtain ⟨ns, hns⟩ := hrest hmask.symm
          obtain ⟨es, hsteps, hsound2, hfix2⟩ := candidateChain_steps hunlink i n _ t ds ns xs ys hdel hfix hns h
          exact ⟨es, .head hone hsteps, hsound2, hfix2⟩

/-- **The candidate loop is a run of its steps.** -/
theorem candidateLoop_steps (hunlink : Unlinks unlink check) : ∀ (n i : Nat) (s t : State) (cs : List Ref),
    Sound s E 0 cs → s.gcFixInProgress = false → candidateLoop unlink n i s = some t →
    ∃ ds, LoopSteps check E (s, cs) (t, ds) ∧ Sound t E 0 ds ∧ t.gcFixInProgress = false
  | 0, _, _, _, _, _, _, h => by cases h
  | n + 1, i, s, t, cs, hs, hf, h => by
    unfold candidateLoop at h
    split at h
    · obtain ⟨heads, hh, h⟩ := Option.bind_eq_some_iff.1 h
      obtain ⟨head, hp, h⟩ := Option.bind_eq_some_iff.1 h
      obtain ⟨u, hchain, h⟩ := Option.bind_eq_some_iff.1 h
      obtain ⟨ys, hys, -⟩ := (hs.candidates.buckets heads hh).chains i head hp
      rw [chain_head hys] at hchain
      obtain ⟨ds, hsteps, hsound, hfix⟩ := candidateChain_steps hunlink i _ s u cs [] [] ys hs hf
        ⟨heads, head, hh, hp, hys⟩ hchain
      obtain ⟨es, hsteps2, hsound2, hfix2⟩ := candidateLoop_steps hunlink n (i + 1) u t ds hsound hfix h
      exact ⟨es, hsteps.trans hsteps2, hsound2, hfix2⟩
    · obtain rfl := Option.some.inj h
      exact ⟨cs, .refl, hs, hf⟩

end State

/-! ## What a step keeps -/

open State

/-- **Every live value that is not counted is a candidate, and the count is right.** -/
structure Complete (s : State) (cs : List Ref) : Prop where
  zeros : ∀ r, (s.value r).isSome → s.refCount (.value r) = 0 → s.refCount (.external r) = 0 → r ∈ cs
  count : s.candidates.count = cs.length

theorem Complete.effect (h : Complete s cs) (he : Effect s t cs ds) : Complete t ds := by
  refine ⟨fun r hr h1 h2 => ?_, ?_⟩
  · rw [he.value] at hr
    rcases he.zeros r hr h1 h2 with hd | ⟨h3, h4⟩
    · exact hd
    · exact he.subset r (h.zeros r hr h3 h4)
  · have h1 := he.count
    have h2 := h.count
    omega

theorem length_filter_unlinked {c' : FreeCandidateValues} {i : Nat} {pre xs ys : List Ref} {r : Ref}
    (h : s.candidates.Holds cs) (hr : r ∈ cs) (hpre : xs = [] → pre = [])
    (hu : FreeCandidateValues.Unlinked s.candidates c' cs i pre xs ys r) (hcount : s.candidates.count = cs.length) :
    c'.count = (cs.filter fun d => d ≠ r ∧ (xs = [] → d ∉ pre)).length ∧
      ∀ q, q ∈ cs.filter (fun d => d ≠ r ∧ (xs = [] → d ∉ pre)) ↔ q ∈ cs ∧ q ≠ r := by
  have hmem : ∀ q, q ∈ cs.filter (fun d => d ≠ r ∧ (xs = [] → d ∉ pre)) ↔ q ∈ cs ∧ q ≠ r := by
    intro q
    rw [FreeCandidateValues.mem_filter_unlinked]
    refine ⟨fun hq => ⟨hq.1, hq.2.1⟩, fun hq => ⟨hq.1, hq.2, fun hxs => ?_⟩⟩
    rw [hpre hxs]
    exact List.not_mem_nil
  refine ⟨?_, hmem⟩
  have hperm : (cs.filter fun d => d ≠ r ∧ (xs = [] → d ∉ pre)).Perm (cs.erase r) := by
    refine (List.perm_ext_iff_of_nodup (h.nodup.filter _) (h.nodup.erase r)).2 fun q => ?_
    rw [hmem, h.nodup.mem_erase_iff, and_comm]
  rw [hperm.length_eq, List.length_erase_of_mem hr, hu.count, hcount]

theorem LoopStep.complete {x y : Config} (hstep : LoopStep .head E x y) (h : Complete x.1 x.2) : Complete y.1 y.2 := by
  cases hstep with
  | drop hs hcount hr hu hpre =>
    obtain ⟨hlen, hmem⟩ := length_filter_unlinked hs.candidates hr (hpre rfl) hu h.count
    refine ⟨fun q hq h1 h2 => (hmem q).2 ⟨h.zeros q hq h1 h2, ?_⟩, hlen⟩
    rintro rfl
    exact hcount.elim (fun hne => hne h1) fun hne => hne h2
  | @free s t c cs ds i pre xs ys r g hs hv hx hstep hr hu hpre _ hg heff hsound hrds =>
    obtain ⟨hlen, hmem⟩ := length_filter_unlinked hs.candidates hr (hpre rfl) hu h.count
    refine ⟨fun q hq h1 h2 => ?_, ?_⟩
    · have hqr : q ≠ r := by
        rintro rfl
        simp [deleteValue, State.setValueAt] at hq
      have hq1 : (({ s with candidates := c }.setValueAt r (some .cleared)).value q).isSome := by
        rw [← heff.value]
        simpa [deleteValue, State.setValueAt, Function.update_of_ne hqr] using hq
      rcases heff.zeros q hq1 h1 h2 with hd | ⟨h3, h4⟩
      · exact hd
      · refine heff.subset q ((hmem q).2 ⟨h.zeros q ?_ h3 h4, hqr⟩)
        simpa [State.setValueAt, Function.update_of_ne hqr] using hq1
    · have h1 := heff.count
      have h2 : ({ s with candidates := c }.setValueAt r (some .cleared)).candidates.count = c.count := rfl
      have h3 : t.candidates.count = ds.length := by omega
      exact h3

namespace State

theorem Effect.owned_le (h : Effect s t cs ds) (o : Obj) : t.owned o ≤ s.owned o := by
  rw [owned, owned, h.objects, h.outside]
  refine Nat.add_le_add_right (Tally.tally_mono fun i _ => ?_) _
  cases i with
  | value r => simp [holds, h.value]
  | external r => exact Nat.le_refl _
  | locals l =>
    simp only [holds]
    cases hl : t.locals l with
    | none => exact Nat.zero_le _
    | some loc =>
      rw [h.locals l loc hl]
  | program p =>
    simp only [holds]
    cases hp : t.program p with
    | none => exact Nat.zero_le _
    | some strings =>
      rw [h.program p strings hp]

end State

/-- Nothing is held more often after a step of the loop. -/
theorem LoopStep.owned_le {check : Check} {x y : Config} (hstep : LoopStep check E x y) (o : Obj) :
    y.1.owned o ≤ x.1.owned o := by
  cases hstep with
  | drop => exact Nat.le_refl _
  | @free s t c cs ds i pre xs ys r g hs hv hx hstep hr hu hpre _ hg heff hsound hrds =>
    have hval : t.value r = some .cleared := by
      rw [heff.value]
      exact Function.update_self ..
    have h1 : (t.deleteValue r).owned o = t.owned o :=
      Sound.owned_freeValue (hsound.bounded r (by rw [hval]; rfl)) hval o
    have h2 := heff.owned_le o
    have h3 := owned_setValueAt (s := { s with candidates := c }) (hs.bounded r (by rw [hg]; rfl)) (some .cleared) o
    rw [Option.elim_some, Sound.held_cleared, List.count_nil] at h3
    have h4 : ({ s with candidates := c } : State).owned o = s.owned o := rfl
    have h5 : (t.deleteValue r, ds).1.owned o ≤ s.owned o := by
      show (t.deleteValue r).owned o ≤ s.owned o
      omega
    exact h5

/-- **No reference is to a value that is not there**, nor is a function that runs. -/
structure Closed (s : State) : Prop where
  values : ∀ r, 0 < s.owned (.value r) → (s.value r).isSome
  stack : ∀ r, some r ∈ s.stack → (s.value r).isSome
  frames : ∀ f ∈ s.callStack, (s.value f.func).isSome

/-- The candidates on the stack have the mark of the collection. -/
def Stamped (s : State) (cs : List Ref) : Prop := ∀ r ∈ cs, some r ∈ s.stack → s.gcStep (.value r) = s.gcStepType

/-- **The candidate loop frees nothing that is referred to**, when it frees no function that runs. -/
theorem LoopStep.closed {x y : Config} (hstep : LoopStep .idle E x y)
    (h : Closed x.1 ∧ Stamped x.1 x.2) : Closed y.1 ∧ Stamped y.1 y.2 := by
  obtain ⟨h, hst⟩ := h
  cases hstep with
  | drop hs hcount hr hu hpre =>
    exact ⟨⟨h.values, h.stack, h.frames⟩, fun q hq hqs => hst q (List.mem_of_mem_filter hq) hqs⟩
  | @free s t c cs ds i pre xs ys r g hs hv hx hstep hr hu hpre hidle hg heff hsound hrds =>
    have hlive : (s.value r).isSome := by rw [hg]; rfl
    have hval : t.value r = some .cleared := by
      rw [heff.value]
      exact Function.update_self ..
    have hfree : LoopStep .idle E (s, _) (t.deleteValue r, _) :=
      .free hs hv hx hstep hr hu hpre hidle hg heff hsound hrds
    have howned : ∀ o, (t.deleteValue r).owned o ≤ s.owned o := hfree.owned_le
    have hzero : s.owned (.value r) = 0 := hs.owned_eq_zero (live_value.2 hlive) (Int.le_of_eq hv)
    have hne : ∀ q, (s.value q).isSome → q ≠ r → ((t.deleteValue r).value q).isSome := by
      intro q hq hqr
      have h1 : (t.deleteValue r).value q = t.value q := Function.update_of_ne hqr _ _
      rw [h1, heff.value]
      simpa [State.setValueAt, Function.update_of_ne hqr] using hq
    have hstack : (t.deleteValue r).stack = s.stack := heff.stack
    refine ⟨⟨fun q hq => hne q (h.values q (Nat.lt_of_lt_of_le hq (howned _))) ?_, fun q hq => ?_, fun f hf => ?_⟩, ?_⟩
    · rintro rfl
      have hpos := Nat.lt_of_lt_of_le hq (howned (.value q))
      omega
    · rw [hstack] at hq
      refine hne q (h.stack q hq) ?_
      rintro rfl
      exact hstep (hst q hr hq)
    · have hcall : (t.deleteValue r).callStack = s.callStack := heff.callStack
      rw [hcall] at hf
      exact hne f.func (h.frames f hf) (hidle rfl f hf)
    · intro q hq hqs
      rw [hstack] at hqs
      have htype : (t.deleteValue r).gcStepType = s.gcStepType := heff.gcStepType
      rw [htype]
      by_cases hq1 : q ∈ cs.filter fun d => d ≠ r ∧ (xs = [] → d ∉ pre)
      · rcases heff.step (.value q) with h1 | ⟨p, -, -, -, h1⟩
        · have h2 := hst q (List.mem_of_mem_filter hq1) hqs
          exact h1.trans h2
        · exact h1
      · exact (heff.registered q hq hq1).1

theorem LoopSteps.complete {x y : Config} (h : LoopSteps .head E x y) (hx : Complete x.1 x.2) : Complete y.1 y.2 := by
  induction h with
  | refl => exact hx
  | tail _ hstep ih => exact hstep.complete ih

theorem LoopSteps.closed {x y : Config} (h : LoopSteps .idle E x y) (hx : Closed x.1 ∧ Stamped x.1 x.2) :
    Closed y.1 ∧ Stamped y.1 y.2 := by
  induction h with
  | refl => exact hx
  | tail _ hstep ih => exact hstep.closed ih

end Gc
end ObjectScript
