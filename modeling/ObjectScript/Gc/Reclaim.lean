import ObjectScript.Gc.Runs
/-!
# Garbage goes

A full collection frees a value that nothing reaches and nothing outside holds, or there is none left and it changes
nothing but marks and candidates (`freed_or_settled`).  Values are finitely many, so some collections in a row leave no
garbage at all (`garbage_freed`): one is not enough, because what a value that goes has held is counted down too late for
the values before it.
-/
namespace ObjectScript
namespace Gc

open Links
open ObjectScript.Core (Ref)
open State

variable {s t u : State} {E : Obj → Prop} {cs ds : List Ref}

/-! ## What is there -/

namespace State

def size (s : State) : Nat := s.values.order.length

/-- The values that go from `s` to `t`. -/
def Freed (s t : State) (r : Ref) : Prop := (s.value r).isSome ∧ t.value r = none

/-- **Nothing reaches `r`** from the roots, the stack and the call frames, and nothing outside holds it. -/
def Garbage (s : State) (r : Ref) : Prop := ¬ s.Reached [] (.value r) ∧ s.refCount (.external r) ≤ 0

def Settled (s : State) : Prop := ∀ r, (s.value r).isSome → ¬ s.Garbage r

end State

theorem size_lt (hs : Ready s E 0 cs) {E' : Obj → Prop} (ht : Sound t E' 0 ds)
    (hle : ∀ r, (t.value r).isSome → (s.value r).isSome) {r : Ref} (hr : Freed s t r) : t.size < s.size := by
  have hmem : r ∈ s.values.order := hs.listed r hr.1
  have hsub : t.values.order.Subperm (s.values.order.erase r) := by
    refine List.subperm_of_subset ht.nodup fun q hq => ?_
    have hlive := ht.ordered q hq
    refine (hs.sound.nodup.mem_erase_iff).2 ⟨?_, hs.listed q (hle q hlive)⟩
    rintro rfl
    rw [hr.2] at hlive
    cases hlive
  have hlen := hsub.length_le
  have hpos : 0 < s.values.order.length := List.length_pos_of_mem hmem
  rw [List.length_erase_of_mem hmem] at hlen
  unfold State.size
  omega

theorem LoopStep.value {check : Check} {x y : Config} (h : LoopStep check E x y) (r : Ref) :
    y.1.value r = x.1.value r ∨ y.1.value r = none := by
  cases h with
  | drop => exact .inl rfl
  | @free s t c cs ds i pre xs ys q g _ _ _ _ _ _ _ _ _ heff _ _ =>
    by_cases hr : r = q
    · subst hr
      exact .inr (Function.update_self ..)
    · refine .inl ?_
      have h1 : (t.deleteValue q).value r = t.value r := Function.update_of_ne hr _ _
      rw [h1, heff.value]
      exact Function.update_of_ne hr _ _

theorem LoopSteps.value {check : Check} {x y : Config} (h : LoopSteps check E x y) (r : Ref) :
    y.1.value r = x.1.value r ∨ y.1.value r = none := by
  induction h with
  | refl => exact .inl rfl
  | tail _ hstep ih =>
    rcases hstep.value r with h1 | h1
    · rw [h1]
      exact ih
    · exact .inr h1

/-! ## What is reached is counted, on the stack or running -/

theorem GCValue.held_of_fields {g : GCValue} {r : Ref} (h : Obj.value r ∈ g.fields) : Obj.value r ∈ g.held := by
  have htable : Obj.value r ∈ tableHeld g.table ↔ Obj.value r ∈ g.table.flatMap fun p => holding p.1 ++ holding p.2 := by
    simp [tableHeld]
  have hlocals : ∀ locals : Option LocalsRef, Obj.value r ∉ locals.toList.map Obj.locals := by
    intro locals hmem
    obtain ⟨l, -, hl⟩ := List.mem_map.1 hmem
    cases hl
  unfold GCValue.fields at h
  unfold GCValue.held
  cases hp : g.payload <;> rw [hp] at h <;> simp only [List.mem_append, hlocals, htable, or_false] at h ⊢ <;> grind

theorem Locals.held_of_fields {loc : Locals} {r : Ref} (h : Obj.value r ∈ loc.fields) : Obj.value r ∈ loc.held := by
  unfold Locals.fields at h
  unfold Locals.held
  rcases List.mem_append.1 h with h | h
  · exact List.mem_cons_of_mem _ (List.mem_append_right _ h)
  · obtain ⟨l, -, hl⟩ := List.mem_map.1 h
    cases hl

theorem owned_or_rooted (h : Sound s E 0 cs) {r : Ref} (hr : s.Reached [] (.value r)) :
    0 < s.owned (.value r) ∨ some r ∈ s.stack ∨ ∃ f ∈ s.callStack, f.func = r := by
  obtain ⟨root, hroot, hpath⟩ := hr
  rcases Relation.ReflTransGen.cases_tail hpath with heq | ⟨p, -, os, hos, hmem⟩
  · subst heq
    unfold markRoots at hroot
    simp only [List.map_nil, List.append_nil, List.mem_append] at hroot
    rcases hroot with (hroot | hroot) | hroot
    · refine .inl (owned_pos_of_outside ?_)
      unfold outside
      simp only [List.mem_append]
      exact .inl (.inl hroot)
    · obtain ⟨v, hv, hmem⟩ := List.mem_flatMap.1 hroot
      cases v with
      | none => cases hmem
      | some q =>
        obtain rfl : r = q := by simpa [holding] using hmem
        exact .inr (.inl hv)
    · obtain ⟨f, hfs, hmem⟩ := List.mem_flatMap.1 hroot
      unfold StackFunction.fields at hmem
      rcases List.mem_cons.1 hmem with heq | hmem
      · cases heq
        exact .inr (.inr ⟨f, hfs, rfl⟩)
      · refine .inl (owned_pos_of_outside ?_)
        unfold outside
        refine List.mem_append_left _ (List.mem_append_right _ (List.mem_flatMap.2 ⟨f, hfs, ?_⟩))
        unfold StackFunction.held
        simp only [List.mem_cons, List.mem_append, reduceCtorEq, false_or] at hmem ⊢
        grind
  · refine .inl ?_
    cases p with
    | value v =>
      obtain ⟨g, hg, rfl⟩ := Option.map_eq_some_iff.1 hos
      refine owned_pos_of_holds (h := .value v) ((mem_objects _).2 (h.bounded v (by rw [hg]; rfl))) ?_
      simp only [holds, hg, Option.elim_some]
      exact GCValue.held_of_fields hmem
    | locals l =>
      obtain ⟨loc, hl, rfl⟩ := Option.map_eq_some_iff.1 hos
      refine owned_pos_of_holds (h := .locals l) ((mem_objects _).2 (h.bounded_locals l (by rw [hl]; rfl))) ?_
      simp only [holds, hl, Option.elim_some]
      exact Locals.held_of_fields hmem
    | external q =>
      obtain rfl := Option.some.inj hos
      cases hmem
    | program q =>
      obtain rfl := Option.some.inj hos
      cases hmem

/-- What `mark` starts from and goes on to is the same. -/
theorem State.Reached.congr {cells cells' : List Ref} {o : Obj} (h : s.Reached cells o) (hfields : t.fields = s.fields)
    (hroots : ∀ p ∈ s.markRoots cells, p ∈ t.markRoots cells') : t.Reached cells' o := by
  obtain ⟨root, hroot, hpath⟩ := h
  refine ⟨root, hroots root hroot, ?_⟩
  rw [hfields]
  exact hpath

/-! ## The candidate loop -/

/-- A candidate that is to go: neither counted nor marked. -/
def Doomed (s : State) (cs : List Ref) (r : Ref) : Prop :=
  r ∈ cs ∧ s.refCount (.value r) = 0 ∧ s.refCount (.external r) = 0 ∧ s.gcStep (.value r) ≠ s.gcStepType

/-- Nothing was freed: only the table of candidates is another one. -/
structure Dropped (s t : State) (E : Obj → Prop) (cs ds : List Ref) : Prop where
  frame : t = { s with candidates := t.candidates }
  sound : Sound t E 0 ds
  subset : ∀ r ∈ ds, r ∈ cs
  mask : t.candidates.headMask = s.candidates.headMask

theorem Dropped.refl (h : Sound s E 0 cs) : Dropped s s E cs cs := ⟨rfl, h, fun _ hr => hr, rfl⟩

theorem Dropped.trans {es : List Ref} (h : Dropped s t E cs ds) (h' : Dropped t u E ds es) : Dropped s u E cs es :=
  ⟨by rw [h'.frame, h.frame], h'.sound, fun r hr => h.subset r (h'.subset r hr), h'.mask.trans h.mask⟩

theorem Doomed.before {r : Ref} (hd : Dropped s t E cs ds) (h : Doomed t ds r) : Doomed s cs r := by
  obtain ⟨hr, hvalue, hexternal, hstep⟩ := h
  rw [hd.frame] at hvalue hexternal hstep
  exact ⟨hd.subset r hr, hvalue, hexternal, hstep⟩

theorem State.Freed.before {r : Ref} (hd : Dropped s t E cs ds) (h : Freed t u r) : Freed s u r := by
  obtain ⟨hr, hnone⟩ := h
  rw [hd.frame] at hr
  exact ⟨hr, hnone⟩

theorem State.Freed.after {check : Check} {r : Ref} (h : Freed s t r) (hsteps : LoopSteps check E (t, cs) (u, ds)) : Freed s u r := by
  refine ⟨h.1, ?_⟩
  rcases hsteps.value r with hr | hr
  · exact hr.trans h.2
  · exact hr

theorem candidateChain_dropped (i : Nat) : ∀ (n : Nat) (s t : State) (cs xs ys : List Ref), Sound s E 0 cs →
    s.gcFixInProgress = false → s.candidates.ChainAt i (xs ++ ys) →
    (∀ q ∈ xs, s.gcStep (.value q) = s.gcStepType) →
    candidateChain State.unlink i n s xs.getLast? ys.head? = some t →
    (∃ r, Doomed s cs r ∧ Freed s t r) ∨ ∃ ds, Dropped s t E cs ds ∧
      ∀ q ∈ ds, q &&& s.candidates.headMask = i → s.gcStep (.value q) = s.gcStepType
  | 0, _, _, _, _, _, _, _, _, _, h => by cases h
  | n + 1, s, t, cs, xs, [], hs, hf, hchain, hstamped, h => by
    obtain rfl := Option.some.inj h
    refine .inr ⟨cs, .refl hs, fun q hq hslot => hstamped q ?_⟩
    have hmem := (FreeCandidateValues.cells_subset hs.candidates hchain q).2 ⟨hq, hslot⟩
    rwa [List.append_nil] at hmem
  | n + 1, s, t, cs, xs, r :: ys, hs, hf, hchain, hstamped, h => by
    have hchain' : s.candidates.ChainAt i ([] ++ (xs ++ r :: ys)) := hchain
    have hr : r ∈ cs := ((FreeCandidateValues.cells_subset hs.candidates hchain r).1 (by simp)).1
    have hnext : s.candidates.hashNext r = ys.head? := by
      obtain ⟨heads, p, -, -, hch⟩ := hchain
      exact chain_get hch
    simp only [List.head?_cons, candidateChain, hnext] at h
    split at h
    · -- a candidate that is counted leaves the table
      obtain ⟨c', hc', h⟩ := Option.bind_eq_some_iff.1 h
      obtain ⟨hu, -⟩ := unlinked_of unlinks_unlink hs hchain' hc'
      obtain ⟨pre, hrest, hpre⟩ := hu.chain
      rw [hpre rfl, List.nil_append] at hrest
      have hdrop : Dropped s { s with candidates := c' } E cs (cs.filter fun d => d ≠ r ∧ (xs = [] → d ∉ [])) :=
        ⟨rfl, hs.unlink hu, fun q hq => List.mem_of_mem_filter hq, hu.mask⟩
      rcases candidateChain_dropped i n _ t _ xs ys hdrop.sound hf hrest hstamped h with ⟨q, hdoomed, hfreed⟩ | ⟨ds, hd, hds⟩
      · exact .inl ⟨q, hdoomed.before hdrop, hfreed.before hdrop⟩
      · refine .inr ⟨ds, hdrop.trans hd, fun q hq hslot => hds q hq ?_⟩
        rwa [hdrop.mask]
    · rename_i hcount
      rw [not_or, not_not, not_not] at hcount
      split at h
      · rename_i hstep
        rw [← List.getLast?_concat (l := xs)] at h
        refine candidateChain_dropped i n s t cs (xs ++ [r]) ys hs hf (by simpa using hchain) (fun q hq => ?_) h
        rcases List.mem_append.1 hq with hq | hq
        · exact hstamped q hq
        · rwa [List.mem_singleton.1 hq]
      · -- the candidate goes, and what comes behind it does not bring it back
        rename_i hstep
        obtain ⟨c', hc', h⟩ := Option.bind_eq_some_iff.1 h
        obtain ⟨u, hclear, h⟩ := Option.bind_eq_some_iff.1 h
        obtain ⟨ds, hone, hdel, hfix, hrest⟩ := freed_step unlinks_unlink hs hf hchain' hcount hstep hc' hclear
        have hfreed : Freed s (u.deleteValue r) r := ⟨hs.candidates_live r hr, Function.update_self ..⟩
        refine .inl ⟨r, ⟨hr, hcount.1, hcount.2, hstep⟩, ?_⟩
        split at h
        · obtain rfl := Option.some.inj h
          exact hfreed
        · rename_i hmask
          rw [not_not] at hmask
          obtain ⟨ns, hns⟩ := hrest hmask.symm
          obtain ⟨es, hsteps, -, -⟩ := candidateChain_steps unlinks_unlink i n _ t ds ns xs ys hdel hfix hns h
          exact hfreed.after hsteps

theorem candidateLoop_dropped : ∀ (n i : Nat) (s t : State) (cs : List Ref), Sound s E 0 cs → s.gcFixInProgress = false →
    (∀ q ∈ cs, q &&& s.candidates.headMask < i → s.gcStep (.value q) = s.gcStepType) →
    candidateLoop State.unlink n i s = some t →
    (∃ r, Doomed s cs r ∧ Freed s t r) ∨ ∃ ds, Dropped s t E cs ds ∧ ∀ q ∈ ds, s.gcStep (.value q) = s.gcStepType
  | 0, _, _, _, _, _, _, _, h => by cases h
  | n + 1, i, s, t, cs, hs, hf, hbelow, h => by
    unfold candidateLoop at h
    split at h
    · obtain ⟨heads, hh, h⟩ := Option.bind_eq_some_iff.1 h
      obtain ⟨head, hp, h⟩ := Option.bind_eq_some_iff.1 h
      obtain ⟨u, hchain, h⟩ := Option.bind_eq_some_iff.1 h
      obtain ⟨ys, hys, -⟩ := (hs.candidates.buckets heads hh).chains i head hp
      rw [chain_head hys] at hchain
      have hat : s.candidates.ChainAt i ys := ⟨heads, head, hh, hp, hys⟩
      obtain ⟨es, -, hu, hfix⟩ := candidateChain_steps unlinks_unlink i _ s u cs [] [] ys hs hf hat hchain
      rcases candidateChain_dropped i _ s u cs [] ys hs hf hat (fun q hq => by cases hq) hchain with
        ⟨r, hdoomed, hfreed⟩ | ⟨ds, hd, hds⟩
      · obtain ⟨es', hsteps, -, -⟩ := candidateLoop_steps unlinks_unlink n (i + 1) u t es hu hfix h
        exact .inl ⟨r, hdoomed, hfreed.after hsteps⟩
      · have hstep : u.gcStep = s.gcStep ∧ u.gcStepType = s.gcStepType := by
          rw [hd.frame]
          exact ⟨rfl, rfl⟩
        have hbelow' : ∀ q ∈ ds, q &&& u.candidates.headMask < i + 1 → u.gcStep (.value q) = u.gcStepType := by
          intro q hq hlt
          rw [hd.mask] at hlt
          rw [hstep.1, hstep.2]
          rcases Nat.lt_succ_iff_lt_or_eq.1 hlt with hlt | heq
          · exact hbelow q (hd.subset q hq) hlt
          · exact hds q hq heq
        rcases candidateLoop_dropped n (i + 1) u t ds hd.sound hfix hbelow' h with ⟨r, hdoomed, hfreed⟩ | ⟨es', hd', hes⟩
        · exact .inl ⟨r, hdoomed.before hd, hfreed.before hd⟩
        · refine .inr ⟨es', hd.trans hd', fun q hq => ?_⟩
          have hq := hes q hq
          rwa [hstep.1, hstep.2] at hq
    · rename_i hi
      obtain rfl := Option.some.inj h
      refine .inr ⟨cs, .refl hs, fun q hq => hbelow q hq ?_⟩
      exact Nat.lt_of_le_of_lt Nat.and_le_right (Nat.lt_of_not_le hi)

namespace State

theorem markStackCandidate_on {v : Slot} (h : Sound s E 0 cs) (hv : s.markStackCandidate v = some t) (o : Obj) :
    t.gcStep o = s.gcStep o ∨ ∃ r, o = .value r ∧ v = some r := by
  unfold markStackCandidate at hv
  cases v with
  | none =>
    obtain rfl := Option.some.inj hv
    exact .inl rfl
  | some r =>
    simp only at hv
    split at hv
    · rw [FreeCandidateValues.get_eq h.candidates r] at hv
      by_cases hr : r ∈ cs
      · rw [if_pos hr] at hv
        obtain rfl := Option.some.inj hv
        by_cases ho : o = .value r
        · exact .inr ⟨r, ho, rfl⟩
        · exact .inl (Function.update_of_ne ho _ _)
      · rw [if_neg hr] at hv
        obtain rfl := Option.some.inj hv
        exact .inl rfl
    · cases hv

theorem markStack_on : ∀ (vs : List Slot) (s t : State), Sound s E 0 cs → vs.foldlM markStackCandidate s = some t → ∀ o,
    t.gcStep o = s.gcStep o ∨ ∃ r, o = .value r ∧ some r ∈ vs
  | [], s, t, _, ht, o => by
    obtain rfl := Option.some.inj ht
    exact .inl rfl
  | v :: vs, s, t, h, ht, o => by
    rw [List.foldlM_cons] at ht
    obtain ⟨u, hu, ht⟩ := Option.bind_eq_some_iff.1 ht
    obtain ⟨-, hsu, -, -⟩ := markStackCandidate_sound h hu
    rcases markStack_on vs u t hsu ht o with h1 | ⟨r, ho, hr⟩
    · rw [h1]
      rcases markStackCandidate_on h hu o with h2 | ⟨r, ho, rfl⟩
      · exact .inl h2
      · exact .inr ⟨r, ho, List.mem_cons_self⟩
    · exact .inr ⟨r, ho, List.mem_cons_of_mem _ hr⟩

/-- **The first part of a collection frees a candidate that is neither counted nor on the stack**, or it leaves only
candidates that are on the stack. -/
theorem freeCandidates_dropped (h : Ready s E 0 cs) (ht : s.freeCandidates State.unlink = some t) :
    (∃ r, s.refCount (.value r) = 0 ∧ s.refCount (.external r) = 0 ∧ some r ∉ s.stack ∧ Freed s t r) ∨
      ∃ ds, t = { s with candidates := t.candidates, gcStep := t.gcStep, gcStepType := t.gcStepType } ∧ Sound t E 0 ds ∧
        ∀ r ∈ ds, some r ∈ s.stack := by
  unfold freeCandidates at ht
  obtain ⟨u, hu, ht⟩ := Option.bind_eq_some_iff.1 ht
  obtain ⟨hframe, hsu, -, hhit⟩ := markStack_sound s.stack _ u h.sound.nextStep hu
  have hon := markStack_on s.stack _ u h.sound.nextStep hu
  have htype : u.gcStepType = s.gcStepType + 1 := by rw [hframe]
  have hfix : u.gcFixInProgress = false := by
    rw [hframe]
    exact h.fix
  rcases candidateLoop_dropped _ 0 u t cs hsu hfix (fun q _ hlt => absurd hlt (Nat.not_lt_zero _)) ht with
    ⟨r, ⟨hr, hvalue, hexternal, hstep⟩, hfreed⟩ | ⟨ds, hd, hds⟩
  · refine .inl ⟨r, ?_, ?_, fun hstack => ?_, ?_⟩
    · rwa [hframe] at hvalue
    · rwa [hframe] at hexternal
    · rw [htype] at hstep
      exact hstep (hhit r hr hstack)
    · rwa [hframe] at hfreed
  · refine .inr ⟨ds, by rw [hd.frame, hframe], hd.sound, fun r hr => ?_⟩
    have hstamp := hds r hr
    rcases hon (.value r) with h1 | ⟨q, heq, hq⟩
    · have hle := h.sound.steps (.value r)
      rw [hstamp, htype] at h1
      have h2 : s.gcStepType + 1 = s.gcStep (.value r) := h1
      omega
    · cases heq
      exact hq

/-! ## The sweep -/

theorem sweepValue_dead {r q : Ref} {dead dead' : List Ref} (h : State.sweepValue (s, dead) r = some (t, dead')) (hq : q ∈ dead) :
    q ∈ dead' := by
  unfold State.sweepValue at h
  simp only at h
  split at h
  · obtain ⟨rfl, rfl⟩ := Prod.mk.inj (Option.some.inj h)
    exact hq
  · split at h
    · obtain ⟨rfl, rfl⟩ := Prod.mk.inj (Option.some.inj h)
      exact hq
    · obtain ⟨u, hu, h⟩ := Option.bind_eq_some_iff.1 h
      obtain ⟨rfl, rfl⟩ := Prod.mk.inj (Option.some.inj h)
      exact List.mem_cons_of_mem _ hq

theorem sweepAll_dead : ∀ (todo dead dead' : List Ref) (s t : State),
    todo.foldlM State.sweepValue (s, dead) = some (t, dead') → ∀ q ∈ dead, q ∈ dead'
  | [], dead, dead', s, t, ht, q, hq => by
    obtain ⟨rfl, rfl⟩ := Prod.mk.inj (Option.some.inj ht)
    exact hq
  | r :: todo, dead, dead', s, t, ht, q, hq => by
    rw [List.foldlM_cons] at ht
    obtain ⟨⟨u, dead₁⟩, hu, ht⟩ := Option.bind_eq_some_iff.1 ht
    exact sweepAll_dead todo dead₁ dead' u t ht q (sweepValue_dead hu hq)

/-- A sweep clears a value that has neither the mark nor external references, or it clears none. -/
theorem sweepAll_first : ∀ (todo dead dead' : List Ref) (s t : State),
    todo.foldlM State.sweepValue (s, dead) = some (t, dead') →
    (∃ r ∈ dead', s.gcStep (.value r) ≠ s.gcStepType ∧ s.refCount (.external r) ≤ 0) ∨
      t = { s with gcStep := t.gcStep } ∧ dead' = dead
  | [], dead, dead', s, t, ht => by
    obtain ⟨rfl, rfl⟩ := Prod.mk.inj (Option.some.inj ht)
    exact .inr ⟨rfl, rfl⟩
  | r :: todo, dead, dead', s, t, ht => by
    rw [List.foldlM_cons] at ht
    obtain ⟨⟨u, dead₁⟩, hu, ht⟩ := Option.bind_eq_some_iff.1 ht
    unfold State.sweepValue at hu
    simp only at hu
    split at hu
    · obtain ⟨rfl, rfl⟩ := Prod.mk.inj (Option.some.inj hu)
      exact sweepAll_first todo dead dead' s t ht
    · rename_i hstep
      split at hu
      · obtain ⟨rfl, rfl⟩ := Prod.mk.inj (Option.some.inj hu)
        rcases sweepAll_first todo dead dead' _ t ht with ⟨q, hq, hstep', hext'⟩ | ⟨hframe, hdead⟩
        · refine .inl ⟨q, hq, fun heq => hstep' ?_, hext'⟩
          by_cases hqr : Obj.value q = .value r
          · rw [hqr]
            exact Function.update_self ..
          · exact (Function.update_of_ne hqr _ _).trans heq
        · exact .inr ⟨hframe, hdead⟩
      · rename_i hext
        obtain ⟨v, hv, hu⟩ := Option.bind_eq_some_iff.1 hu
        obtain ⟨rfl, rfl⟩ := Prod.mk.inj (Option.some.inj hu)
        exact .inl ⟨r, sweepAll_dead todo _ dead' _ t ht r List.mem_cons_self, hstep, Int.not_lt.1 hext⟩

structure Reclaimed (s t : State) (cells : List Ref) : Prop where
  value : ∀ r, t.value r = s.value r ∨ t.value r = none
  reached : ∀ r, s.Reached cells (.value r) → t.value r = s.value r
  kept : ∀ r, (t.value r).isSome → s.Reached cells (.value r) ∨ 0 < s.refCount (.external r)
  first : (∃ r, Freed s t r ∧ ¬ s.Reached cells (.value r) ∧ s.refCount (.external r) ≤ 0) ∨ t = { s with gcStep := t.gcStep }

theorem sweep_reclaimed {cells : List Ref} (h : Sound s E 0 cs) (hf : s.gcFixInProgress = false)
    (hs : SweepStart { s with gcFixInProgress := true } cells) (hl : Listed s) (ht : s.sweep = some t) : Reclaimed s t cells := by
  unfold sweep at ht
  obtain ⟨⟨u, dead⟩, hu, ht⟩ := Option.bind_eq_some_iff.1 ht
  obtain ⟨v, hv, ht⟩ := Option.bind_eq_some_iff.1 ht
  obtain rfl := Option.some.inj ht
  have hfix := h.setFix true
  obtain ⟨E', cs', hsw, -⟩ :=
    Sweeping.sweepAll hfix.bounded hfix.nodup _ _ _ _ _ _ _ (Sweeping.start hfix hs hl) hu
  obtain ⟨ds, -, hd⟩ := destroyAll dead cs' u v hsw.sound hsw.heads hsw.dead_nodup
    (fun r hr => ⟨by rw [hsw.value, if_pos hr],
      hsw.sound.owned_eq_zero (live_external.2 (by rw [hsw.value, if_pos hr]; rfl)) (hsw.gone r hr).2.2.2,
      (hsw.gone r hr).2.2.1⟩) hv
  have hvalue : ∀ r, v.value r = if r ∈ dead then none else s.value r := by
    intro r
    rw [hd.value, hsw.value]
    split <;> rfl
  have hmarks : ∀ o, s.gcStep o = s.gcStepType ↔ s.Reached cells o := hs.marks
  refine ⟨fun r => ?_, fun r hr => ?_, fun r hr => ?_, ?_⟩
  · rw [show ({ v with gcFixInProgress := false } : State).value r = v.value r from rfl, hvalue]
    split
    · exact .inr rfl
    · exact .inl rfl
  · exact (hvalue r).trans (if_neg fun hdead => (hsw.gone r hdead).1 hr)
  · have hr' : (v.value r).isSome := hr
    rw [hvalue] at hr'
    split at hr'
    · cases hr'
    · rename_i hdead
      exact hsw.stamped r (hsw.kept r hr' List.not_mem_nil hdead)
  · rcases sweepAll_first _ _ _ _ _ hu with ⟨r, hr, hstep, hext⟩ | ⟨hframe, rfl⟩
    · exact .inl ⟨r, ⟨hsw.dead_live r hr, (hvalue r).trans (if_pos hr)⟩, fun hm => hstep ((hmarks _).2 hm), hext⟩
    · obtain rfl := Option.some.inj hv
      refine .inr ?_
      rw [hframe, ← hf]

end State

/-! ## A full collection -/

namespace State

theorem markAndSweep_reclaimed (h : Ready s E 0 cs) (ht : s.markAndSweep = some t) : ∃ cells, s.candidateCells = some cells ∧
    (∀ r, r ∈ cells ↔ r ∈ cs) ∧ (∀ r, t.value r = s.value r ∨ t.value r = none) ∧
    (∀ r, s.Reached cells (.value r) → (s.value r).isSome ∧ t.value r = s.value r) ∧
    (∀ r, (t.value r).isSome → s.Reached cells (.value r) ∨ 0 < s.refCount (.external r)) ∧
    ((∃ r, Freed s t r ∧ ¬ s.Reached cells (.value r) ∧ s.refCount (.external r) ≤ 0) ∨
      t = { s with gcStep := t.gcStep, gcStepType := t.gcStepType }) := by
  unfold markAndSweep at ht
  obtain ⟨cells, hcells, ht⟩ := Option.bind_eq_some_iff.1 ht
  obtain ⟨u, hu, ht⟩ := Option.bind_eq_some_iff.1 ht
  obtain ⟨hm, hsu⟩ := markAll_marked h.sound hu
  have hframe := hm.frame
  have hheads : s.candidates.heads.isSome := by
    cases hh : s.candidates.heads with
    | none => simp [candidateCells, hh] at hcells
    | some heads => rfl
  have hmem : ∀ r, r ∈ cells ↔ r ∈ cs := by
    obtain ⟨cells', hcells', hmem⟩ := candidateCells_some h.sound.candidates hheads
    obtain rfl := Option.some.inj (hcells'.symm.trans hcells)
    exact hmem
  have hreached : ∀ o, u.Reached cells o ↔ s.Reached cells o := by
    intro o
    rw [hframe]
    exact Iff.rfl
  have hstart : SweepStart { u with gcFixInProgress := true } cells := by
    refine ⟨fun o => (hm.marks o).trans (hreached o).symm, rfl, ?_⟩
    rw [hframe]
    exact hheads
  have hlisted : Listed u := by
    rw [hframe]
    exact h.listed
  have hfix : u.gcFixInProgress = false := by
    rw [hframe]
    exact h.fix
  have hvalue : u.value = s.value := by rw [hframe]
  have hcount : u.refCount = s.refCount := by rw [hframe]
  have hr := sweep_reclaimed hsu hfix hstart hlisted ht
  refine ⟨cells, hcells, hmem, fun r => ?_, fun r hreach => ?_, fun r hlive => ?_, ?_⟩
  · rw [← hvalue]
    exact hr.value r
  · have hlive := hm.fields (.value r) hreach
    rw [State.fields, Option.isSome_map] at hlive
    refine ⟨hlive, ?_⟩
    rw [← hvalue]
    exact hr.reached r ((hreached _).2 hreach)
  · rw [← hcount]
    exact (hr.kept r hlive).imp_left (hreached _).1
  · rcases hr.first with ⟨r, hfreed, hnot, hext⟩ | heq
    · refine .inl ⟨r, ?_, fun hm => hnot ((hreached _).2 hm), ?_⟩
      · unfold Freed at hfreed ⊢
        rwa [← hvalue]
      · rwa [← hcount]
    · exact .inr (by rw [heq, hframe])

theorem markRoots_mono {cells cells' : List Ref} (hroot : t.root = s.root) (hstack : t.stack = s.stack)
    (hcalls : t.callStack = s.callStack) (hcells : ∀ r ∈ cells, some r ∈ s.stack ∨ r ∈ cells') :
    ∀ o ∈ s.markRoots cells, o ∈ t.markRoots cells' := by
  intro o ho
  unfold markRoots at ho ⊢
  rw [hroot, hstack, hcalls]
  rcases List.mem_append.1 ho with ho | ho
  · exact List.mem_append_left _ ho
  · obtain ⟨r, hr, rfl⟩ := List.mem_map.1 ho
    rcases hcells r hr with hr | hr
    · refine List.mem_append_left _ (List.mem_append_left _ (List.mem_append_right _ ?_))
      exact List.mem_flatMap.2 ⟨some r, hr, by simp [holding]⟩
    · exact List.mem_append_right _ (List.mem_map_of_mem hr)

theorem freeCandidates_value (h : Ready s E 0 cs) (ht : s.freeCandidates State.unlink = some t) (r : Ref) :
    t.value r = s.value r ∨ t.value r = none := by
  obtain ⟨u, ds, hu, -, -, hsteps, -, -⟩ := freeCandidates_steps unlinks_unlink h.sound h.fix ht
  have hvalue : u.value = s.value := by rw [hu]
  rw [← hvalue]
  exact hsteps.value r

theorem gcFreeCandidateValues_parts {full limit : Bool} (hw : s.waits full = false) (hm : (full || limit) = true)
    (ht : s.gcFreeCandidateValues full limit = some t) :
    ∃ u, s.freeCandidates State.unlink = some u ∧ u.markAndSweep = some t := by
  unfold gcFreeCandidateValues at ht
  unfold waits at hw
  rw [if_neg (by rw [hw]; decide)] at ht
  obtain ⟨u, hu, ht⟩ := Option.bind_eq_some_iff.1 ht
  rw [if_pos hm] at ht
  exact ⟨u, hu, ht⟩

/-- **A full collection frees garbage, or it leaves none.** -/
theorem freed_or_settled {limit : Bool} (h : Ready s E 0 cs)
    (ht : s.gcFreeCandidateValues true limit = some t) :
    (∀ r, t.value r = s.value r ∨ t.value r = none) ∧ ((∃ r, Freed s t r ∧ s.Garbage r) ∨ Settled t) := by
  obtain ⟨u, hu, ht⟩ := gcFreeCandidateValues_parts rfl rfl ht
  obtain ⟨ds', hready, hsame, -⟩ := freeCandidates_ready h hu
  have hvalue := freeCandidates_value h hu
  rcases freeCandidates_dropped h hu with ⟨r, hcount, hext, hstack, hfreed⟩ | ⟨ds, hframe, hsound, hds⟩
  · obtain ⟨cells, -, -, hsweep, hmarked, -, -⟩ := markAndSweep_reclaimed hready ht
    refine ⟨fun q => ?_, .inl ⟨r, ⟨hfreed.1, ?_⟩, fun hreached => ?_, Int.le_of_eq hext⟩⟩
    · rcases hsweep q with hq | hq
      · rw [hq]
        exact hvalue q
      · exact .inr hq
    · rcases hsweep r with hr | hr
      · exact hr.trans hfreed.2
      · exact hr
    · have hzero := h.sound.owned_eq_zero (live_value.2 hfreed.1) (Int.le_of_eq hcount)
      rcases owned_or_rooted h.sound hreached with hpos | hon | ⟨f, hf, rfl⟩
      · omega
      · exact hstack hon
      · -- the marking goes on to a function that runs, and could not if it had been freed
        rw [← hsame.callStack] at hf
        have hlive := (hmarked f.func (reached_running hf cells)).1
        rw [hfreed.2] at hlive
        cases hlive
  · have hu' : Ready u E 0 ds := ⟨hsound, hready.fix, hready.listed, hready.hostKinds, hready.formed, hready.known⟩
    obtain ⟨cells, -, hcells, hsweep, -, hkept, hfirst⟩ := markAndSweep_reclaimed hu' ht
    have hsame : u.value = s.value ∧ u.refCount = s.refCount := by
      rw [hframe]
      exact ⟨rfl, rfl⟩
    refine ⟨fun q => ?_, ?_⟩
    · rw [← hsame.1]
      exact hsweep q
    · rcases hfirst with ⟨r, hfreed, hnot, hext⟩ | heq
      · refine .inl ⟨r, ?_, fun hreached => hnot (hreached.congr ?_ ?_), ?_⟩
        · unfold Freed at hfreed ⊢
          rwa [← hsame.1]
        · rw [hframe]
          rfl
        · rw [hframe]
          exact markRoots_mono rfl rfl rfl fun q hq => by cases hq
        · rwa [← hsame.2]
      · -- nothing was freed, and the candidates that are left are on the stack
        refine .inr fun r hlive hgarbage => ?_
        have hstack : u.stack = s.stack := by rw [hframe]
        rcases hkept r hlive with hreached | hpos
        · refine hgarbage.1 (hreached.congr ?_ ?_)
          · rw [heq]
            rfl
          · refine markRoots_mono ?_ ?_ ?_ fun q hq => .inl ?_
            · rw [heq]
            · rw [heq]
            · rw [heq]
            · rw [hstack]
              exact hds q ((hcells q).1 hq)
        · have hext := hgarbage.2
          rw [heq] at hext
          have hext' : u.refCount (.external r) ≤ 0 := hext
          omega

/-! ## Runs -/

/-- **One collection after another**: either no garbage is left, or one value less each time. -/
theorem collections_settle {limit : Bool} : ∀ (n : Nat) (s t : State), (∃ E cs, Ready s E 0 cs) → Settled s ∨ s.size < n →
    s.run (List.replicate n (.gcFreeCandidateValues true limit)) = some t → Settled t
  | 0, s, t, _, hsettled, ht => by
    obtain rfl := Option.some.inj ht
    exact hsettled.resolve_right (Nat.not_lt_zero _)
  | n + 1, s, t, h, hsettled, ht => by
    rw [List.replicate_succ, run, List.foldlM_cons] at ht
    obtain ⟨u, hu, ht⟩ := Option.bind_eq_some_iff.1 ht
    have hru := ready_step h hu
    obtain ⟨E, cs, hs⟩ := h
    obtain ⟨E', ds, hready⟩ := id hru
    obtain ⟨hvalue, hcases⟩ := freed_or_settled hs hu
    refine collections_settle n u t hru ?_ ht
    rcases hcases with ⟨r, hfreed, hgarbage⟩ | hdone
    · refine .inr ?_
      have hle : ∀ q, (u.value q).isSome → (s.value q).isSome := by
        intro q hq
        rcases hvalue q with h1 | h1
        · rwa [h1] at hq
        · rw [h1] at hq
          cases hq
      have hlt := size_lt hs hready.sound hle hfreed
      rcases hsettled with hsettled | hsize
      · exact absurd hgarbage (hsettled r hfreed.1)
      · omega
    · exact .inl hdone

/-- **Garbage is freed.**  After more full collections than there are values, every value that is left is reached from the
roots, the stack or the call frames, or held from outside. -/
theorem garbage_freed {ops : List Op} {s t : State} {n : Nat} {limit : Bool} (hs : start.run ops = some s) (hn : s.size < n)
    (ht : s.run (List.replicate n (.gcFreeCandidateValues true limit)) = some t) (r : Ref) (hr : t.Live (.value r)) :
    t.Reached [] (.value r) ∨ 0 < t.refCount (.external r) := by
  by_contra hnot
  rw [not_or, Int.not_lt] at hnot
  exact collections_settle n s t (ready_run hs) (.inr hn) ht r (live_value.1 hr) hnot

theorem garbage_freed_garbageBefore : ∃ s t, start.run garbageBefore = some s ∧ s.size < 4 ∧
    s.run (List.replicate 4 (.gcFreeCandidateValues true false)) = some t ∧ t.Live (.value 2) ∧
    (t.Reached [] (.value 2) ∨ 0 < t.refCount (.external 2)) := by
  have hrun : (start.run garbageBefore).map (fun s => (decide (s.size < 4),
      (s.run (List.replicate 4 (.gcFreeCandidateValues true false))).map fun t => (t.value 2).isSome)) =
      some (true, some true) := by decide +kernel
  obtain ⟨s, hs, heq⟩ := Option.map_eq_some_iff.1 hrun
  simp only [Prod.mk.injEq, decide_eq_true_eq, Option.map_eq_some_iff] at heq
  obtain ⟨hsize, t, ht, hlive⟩ := heq
  exact ⟨s, t, hs, hsize, ht, hlive, garbage_freed hs hsize ht 2 hlive⟩

/-- **A collection that marks keeps what is reached as it is**, and of the rest only what is held from outside. -/
theorem reached_kept {ops : List Op} {s t : State} {full limit : Bool} (hs : start.run ops = some s)
    (hw : s.waits full = false) (hm : (full || limit) = true) (ht : s.gcFreeCandidateValues full limit = some t) :
    ∃ u cells, s.freeCandidates State.unlink = some u ∧ u.candidateCells = some cells ∧
      ∀ r, (t.value r = s.value r ∨ t.value r = none) ∧ (u.Reached cells (.value r) → t.value r = u.value r) ∧
        (t.Live (.value r) → u.Reached cells (.value r) ∨ 0 < u.refCount (.external r)) := by
  obtain ⟨E, cs, hready⟩ := ready_run hs
  obtain ⟨u, hu, ht⟩ := gcFreeCandidateValues_parts hw hm ht
  obtain ⟨ds, hru, -, -⟩ := freeCandidates_ready hready hu
  have hvalue := freeCandidates_value hready hu
  obtain ⟨cells, hcells, -, hsweep, hreached, hkept, -⟩ := markAndSweep_reclaimed hru ht
  refine ⟨u, cells, hu, hcells, fun r => ⟨?_, fun hr => (hreached r hr).2, fun hr => hkept r (live_value.1 hr)⟩⟩
  rcases hsweep r with h1 | h1
  · rw [h1]
    exact hvalue r
  · exact .inr h1

theorem reached_kept_oneOfEach : ∃ s t, start.run oneOfEach = some s ∧ s.gcFreeCandidateValues true false = some t ∧
    t.Live (.value 6) ∧ ¬ t.Live (.value 4) ∧ ∃ u cells, s.freeCandidates State.unlink = some u ∧ u.candidateCells = some cells ∧
      ∀ r, (t.value r = s.value r ∨ t.value r = none) ∧ (u.Reached cells (.value r) → t.value r = u.value r) ∧
        (t.Live (.value r) → u.Reached cells (.value r) ∨ 0 < u.refCount (.external r)) := by
  have hrun : (start.run oneOfEach).map (fun s => (s.gcFreeCandidateValues true false).map fun t =>
      ((t.value 6).isSome, (t.value 4).isSome)) = some (some (true, false)) := by decide +kernel
  obtain ⟨s, hs, heq⟩ := Option.map_eq_some_iff.1 hrun
  obtain ⟨t, ht, heq⟩ := Option.map_eq_some_iff.1 heq
  simp only [Prod.mk.injEq] at heq
  refine ⟨s, t, hs, ht, heq.1, ?_, reached_kept hs rfl rfl ht⟩
  rw [live_value, heq.2]
  decide

end State

end Gc
end ObjectScript
