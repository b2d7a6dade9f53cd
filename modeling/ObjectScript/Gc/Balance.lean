import ObjectScript.Gc.Candidates
import Mathlib.Algebra.Group.Pi.Basic
/-!
# Counts and references

`Sound s E c cs` is what holds of a core between two steps of an operation: no counter is below the number of owning
references plus the credit `c`, the references the running operation has taken out of a slot or has not stored yet;
it is equal to it where `E` says so, and `E` covers everything but values; locals and programs are there as long as
something holds them; and the candidates are the live values `cs`.
-/
namespace ObjectScript
namespace Gc

open Links
open ObjectScript.Core (Ref)

namespace State

/-! ## Owning references -/

theorem mem_objects {s : State} : ∀ o : Obj, o ∈ s.objects ↔
    match o with
    | .value r => r < s.values.nextId
    | .external _ => False
    | .locals l => l < s.nextLocals
    | .program p => p < s.nextProgram
  | .value r => by simp [objects]
  | .external r => by simp [objects]
  | .locals l => by simp [objects]
  | .program p => by simp [objects]

theorem objects_nodup (s : State) : s.objects.Nodup := by
  have hv : ((List.range s.values.nextId).map Obj.value).Nodup := List.nodup_range.map fun _ _ h => by cases h; rfl
  have hl : ((List.range s.nextLocals).map Obj.locals).Nodup := List.nodup_range.map fun _ _ h => by cases h; rfl
  have hp : ((List.range s.nextProgram).map Obj.program).Nodup := List.nodup_range.map fun _ _ h => by cases h; rfl
  unfold objects
  refine List.Nodup.append (List.Nodup.append hv hl ?_) hp ?_
  · intro o ho ho'
    obtain ⟨r, -, rfl⟩ := List.mem_map.1 ho
    simp at ho'
  · intro o ho ho'
    obtain ⟨p, -, rfl⟩ := List.mem_map.1 ho'
    simp at ho

theorem holds_update {s t : State} {h : Obj} (hs : ∀ o, o ≠ h → t.holds o = s.holds o) :
    t.holds = Function.update s.holds h (t.holds h) := by
  funext o
  by_cases ho : o = h
  · subst ho
    rw [Function.update_self]
  · rw [Function.update_of_ne ho, hs o ho]

theorem owned_update {s t : State} {h : Obj} (hmem : h ∈ s.objects) (ho : t.objects = s.objects)
    (hs : ∀ o, o ≠ h → t.holds o = s.holds o) (hout : t.outside = s.outside) (o : Obj) :
    t.owned o + (s.holds h).count o = s.owned o + (t.holds h).count o := by
  have htally := Tally.tally_update s.objects_nodup hmem s.holds (t.holds h) o
  rw [← holds_update hs] at htally
  rw [owned, owned, ho, hout]
  omega

theorem owned_setValueAt {s : State} {r : Ref} (hr : r < s.values.nextId) (g : Option GCValue) (o : Obj) :
    (s.setValueAt r g).owned o + ((s.value r).elim [] GCValue.held).count o =
      s.owned o + (g.elim [] GCValue.held).count o := by
  have h := owned_update (t := s.setValueAt r g) ((mem_objects (.value r)).2 hr) rfl (fun o ho => ?_) rfl o
  · simpa [holds, setValueAt] using h
  · cases o with
    | value q =>
      have hq : q ≠ r := by
        rintro rfl
        exact ho rfl
      simp [holds, setValueAt, Function.update_of_ne hq]
    | _ => rfl

theorem owned_pos_of_holds {s : State} {h o : Obj} (hh : h ∈ s.objects) (ho : o ∈ s.holds h) : 0 < s.owned o :=
  Nat.lt_of_lt_of_le (Tally.tally_pos.2 ⟨h, hh, ho⟩) (Nat.le_add_right _ _)

theorem owned_pos_of_outside {s : State} {o : Obj} (ho : o ∈ s.outside) : 0 < s.owned o :=
  Nat.lt_of_lt_of_le (List.count_pos_iff.2 ho) (Nat.le_add_left _ _)

theorem owned_pos {s : State} {o : Obj} : 0 < s.owned o ↔ (∃ h ∈ s.objects, o ∈ s.holds h) ∨ o ∈ s.outside := by
  rw [owned, Nat.add_pos_iff_pos_or_pos, Tally.tally_pos, List.count_pos_iff]

end State

/-! ## Soundness -/

/-- A counter that is not the `ref_count` of a value. -/
def Obj.IsValue : Obj → Prop
  | .value _ => True
  | _ => False

/-- **What holds of a core.** -/
structure Sound (s : State) (E : Obj → Prop) (c : Obj → Int) (cs : List Ref) : Prop where
  bounded : ∀ r, (s.value r).isSome → r < s.values.nextId
  bounded_locals : ∀ l, (s.locals l).isSome → l < s.nextLocals
  bounded_program : ∀ p, (s.program p).isSome → p < s.nextProgram
  nodup : s.values.order.Nodup
  ordered : ∀ r ∈ s.values.order, (s.value r).isSome
  lineage : ∀ l loc, s.locals l = some loc → ∀ p ps, loc.parents = p :: ps → ∃ lp, s.locals p = some lp ∧ lp.parents = ps
  balanced : ∀ o, s.Live o → (s.owned o : Int) + c o ≤ s.refCount o
  exact : ∀ o, s.Live o → E o → s.refCount o = s.owned o + c o
  exact_others : ∀ o, ¬ o.IsValue → E o
  credit : ∀ o, 0 ≤ c o
  rooted : ∀ o, ¬ o.IsValue → 0 < s.owned o → s.Live o
  positive : ∀ l, (s.locals l).isSome → 0 < s.refCount (.locals l)
  candidates : s.candidates.Holds cs
  candidates_live : ∀ r ∈ cs, (s.value r).isSome
  steps : ∀ o, s.gcStep o ≤ s.gcStepType

/-- The counters of `n` values are a sum: one counter less makes it less. -/
theorem sum_update {f : Nat → Nat} {n r v : Nat} (hr : r < n) :
    ((List.range n).map (Function.update f r v)).sum + f r = ((List.range n).map f).sum + v := by
  induction n with
  | zero => omega
  | succ n ih =>
    rw [List.range_succ, List.map_append, List.map_append, List.sum_append, List.sum_append]
    rcases Nat.lt_succ_iff_lt_or_eq.1 hr with hr | rfl
    · have hn : n ≠ r := by omega
      have := ih hr
      simp only [List.map_cons, List.map_nil, List.sum_cons, List.sum_nil, Function.update_of_ne hn]
      omega
    · have hrest : (List.range r).map (Function.update f r v) = (List.range r).map f := by
        refine List.map_congr_left fun i hi => ?_
        have hi : i ≠ r := by
          have := List.mem_range.1 hi
          omega
        rw [Function.update_of_ne hi]
      simp only [hrest, List.map_cons, List.map_nil, List.sum_cons, List.sum_nil, Function.update_self]
      omega

namespace State

structure Effect (s t : State) (cs ds : List Ref) : Prop where
  frame : t = { s with locals := t.locals, program := t.program, refCount := t.refCount, gcStep := t.gcStep,
                       candidates := t.candidates }
  locals : ∀ l loc, t.locals l = some loc → s.locals l = some loc
  program : ∀ p strings, t.program p = some strings → s.program p = some strings
  refCount : ∀ o, t.refCount o ≤ s.refCount o
  step : ∀ o, t.gcStep o = s.gcStep o ∨ ∃ r, o = .value r ∧ r ∈ ds ∧ r ∉ cs ∧ t.gcStep o = s.gcStepType
  grown : FreeCandidateValues.Grown s.candidates t.candidates
  pushed : ∃ ns, ds = ns ++ cs
  /-- What reaches zero is a candidate. -/
  zeros : ∀ r, (s.value r).isSome → t.refCount (.value r) = 0 → t.refCount (.external r) = 0 →
    r ∈ ds ∨ s.refCount (.value r) = 0 ∧ s.refCount (.external r) = 0
  /-- What was registered was counted down to zero. -/
  registered : ∀ r ∈ ds, r ∉ cs → t.gcStep (.value r) = s.gcStepType ∧ t.refCount (.value r) ≤ 0 ∧
    (s.skips r = false ∧ 0 < s.refCount (.value r) ∨ 0 < s.refCount (.external r))
  count : t.candidates.count + cs.length = s.candidates.count + ds.length
  potential : t.candidates.count + t.weight ≤ s.candidates.count + s.weight
  mask : t.candidates.headMask ≤ max s.candidates.headMask (2 * (s.candidates.count + s.weight) + 31)

namespace Effect

variable {s t u : State} {cs ds es : List Ref}

theorem refl (s : State) (cs : List Ref) : Effect s s cs cs :=
  ⟨rfl, fun _ _ h => h, fun _ _ h => h, fun _ => Int.le_refl _, fun _ => Or.inl rfl, .refl _, ⟨[], rfl⟩,
    fun _ _ h h' => Or.inr ⟨h, h'⟩, fun _ h h' => absurd h h', rfl, Nat.le_refl _, Nat.le_max_left _ _⟩

theorem value (h : Effect s t cs ds) : t.value = s.value := by rw [h.frame]
theorem values (h : Effect s t cs ds) : t.values = s.values := by rw [h.frame]
theorem gcStepType (h : Effect s t cs ds) : t.gcStepType = s.gcStepType := by rw [h.frame]
theorem gcFixInProgress (h : Effect s t cs ds) : t.gcFixInProgress = s.gcFixInProgress := by rw [h.frame]
theorem stack (h : Effect s t cs ds) : t.stack = s.stack := by rw [h.frame]
theorem callStack (h : Effect s t cs ds) : t.callStack = s.callStack := by rw [h.frame]
theorem root (h : Effect s t cs ds) : t.root = s.root := by rw [h.frame]
theorem host (h : Effect s t cs ds) : t.host = s.host := by rw [h.frame]
theorem nextLocals (h : Effect s t cs ds) : t.nextLocals = s.nextLocals := by rw [h.frame]
theorem nextProgram (h : Effect s t cs ds) : t.nextProgram = s.nextProgram := by rw [h.frame]

theorem outside (h : Effect s t cs ds) : t.outside = s.outside := by
  unfold State.outside
  rw [h.root, h.callStack, h.host]

theorem objects (h : Effect s t cs ds) : t.objects = s.objects := by
  unfold State.objects
  rw [h.values, h.nextLocals, h.nextProgram]

theorem subset (h : Effect s t cs ds) : ∀ r ∈ cs, r ∈ ds := by
  obtain ⟨ns, hns⟩ := h.pushed
  intro r hr
  rw [hns]
  exact List.mem_append_right _ hr

theorem trans (h : Effect s t cs ds) (h' : Effect t u ds es) : Effect s u cs es := by
  refine ⟨?_, fun l loc hl => h.locals l loc (h'.locals l loc hl), fun p ss hp => h.program p ss (h'.program p ss hp),
    fun o => Int.le_trans (h'.refCount o) (h.refCount o), fun o => ?_, h.grown.trans h'.grown, ?_, fun r hr h1 h2 => ?_,
    fun r hr hr' => ?_, ?_, Nat.le_trans h'.potential h.potential, ?_⟩
  · rw [h'.frame, h.frame]
  · rcases h'.step o with h1 | ⟨r, ho, hr, hr', h1⟩
    · rcases h.step o with h2 | ⟨r, ho, hr, hr', h2⟩
      · exact Or.inl (h1.trans h2)
      · exact Or.inr ⟨r, ho, h'.subset r hr, hr', h1.trans h2⟩
    · exact Or.inr ⟨r, ho, hr, fun hmem => hr' (h.subset r hmem), h1.trans h.gcStepType⟩
  · obtain ⟨ns, rfl⟩ := h.pushed
    obtain ⟨ms, rfl⟩ := h'.pushed
    exact ⟨ms ++ ns, by rw [List.append_assoc]⟩
  · rcases h'.zeros r (by rw [h.value]; exact hr) h1 h2 with hmem | ⟨h3, h4⟩
    · exact Or.inl hmem
    · rcases h.zeros r hr h3 h4 with hmem | hz
      · exact Or.inl (h'.subset r hmem)
      · exact Or.inr hz
  · by_cases hd : r ∈ ds
    · obtain ⟨h1, h2, h3⟩ := h.registered r hd hr'
      have hstep : u.gcStep (.value r) = t.gcStep (.value r) := by
        rcases h'.step (.value r) with h3 | ⟨q, hq, -, hq', -⟩
        · exact h3
        · cases hq
          exact absurd hd hq'
      exact ⟨hstep.trans h1, Int.le_trans (h'.refCount _) h2, h3⟩
    · obtain ⟨h1, h2, h3⟩ := h'.registered r hr hd
      have hstep : t.gcStep (.value r) = s.gcStep (.value r) := by
        rcases h.step (.value r) with h4 | ⟨q, hq, hq', -, -⟩
        · exact h4
        · cases hq
          exact absurd hq' hd
      refine ⟨h1.trans h.gcStepType, h2, h3.imp (fun h3 => ⟨?_, Int.lt_of_lt_of_le h3.2 (h.refCount _)⟩)
        fun h3 => Int.lt_of_lt_of_le h3 (h.refCount _)⟩
      have hskip := h3.1
      unfold skips at hskip ⊢
      rwa [h.gcFixInProgress, h.gcStepType, hstep] at hskip
  · have h1 := h.count
    have h2 := h'.count
    omega
  · have h1 := h.mask
    have h2 := h'.mask
    have h3 := h.potential
    omega

end Effect

/-! ## Counting down a value -/

theorem refCount_decr (s : State) (o q : Obj) :
    (s.decr o).refCount q = s.refCount q - if q = o then 1 else 0 := by
  by_cases hq : q = o
  · subst hq
    rw [if_pos rfl]
    exact Function.update_self ..
  · rw [if_neg hq, Int.sub_zero]
    exact Function.update_of_ne hq _ _

theorem weight_decr {s : State} {r : Ref} {o : Obj} (ho : o = .value r ∨ o = .external r) (hr : r < s.values.nextId)
    (h : 1 ≤ s.refCount o) : (s.decr o).weight + 1 = s.weight := by
  have hfun : valueWeight (s.decr o).refCount =
      Function.update (valueWeight s.refCount) r (valueWeight s.refCount r - 1) := by
    funext q
    unfold valueWeight
    rw [refCount_decr, refCount_decr]
    by_cases hq : q = r
    · subst hq
      rw [Function.update_self]
      rcases ho with rfl | rfl
      · rw [if_pos rfl, if_neg (by simp)]
        omega
      · rw [if_pos rfl, if_neg (by simp)]
        omega
    · rw [Function.update_of_ne hq]
      rcases ho with rfl | rfl <;> simp [hq]
  have hsum := sum_update (f := valueWeight s.refCount) (v := valueWeight s.refCount r - 1) hr
  have hpos : 1 ≤ valueWeight s.refCount r := by
    unfold valueWeight
    rcases ho with rfl | rfl <;> omega
  rw [← hfun] at hsum
  unfold weight
  have hnext : (s.decr o).values.nextId = s.values.nextId := rfl
  rw [hnext]
  omega

theorem weight_decr_other {s : State} {o : Obj} (ho : ∀ r, o ≠ .value r ∧ o ≠ .external r) : (s.decr o).weight = s.weight := by
  have hfun : valueWeight (s.decr o).refCount = valueWeight s.refCount := by
    funext r
    unfold valueWeight
    rw [refCount_decr, refCount_decr, if_neg (ho r).1.symm, if_neg (ho r).2.symm, Int.sub_zero, Int.sub_zero]
  unfold weight
  rw [hfun]
  rfl

theorem addFreeCandidateValue_some {s : State} {cs : List Ref} (hc : s.candidates.Holds cs) (r : Ref) :
    ∃ t ds, s.addFreeCandidateValue r = some t ∧ t = { s with gcStep := t.gcStep, candidates := t.candidates } ∧
      t.candidates.Holds ds ∧ r ∈ ds ∧ (∀ q, q ∈ ds ↔ q ∈ cs ∨ q = r) ∧ (∃ ns, ds = ns ++ cs) ∧
      FreeCandidateValues.Grown s.candidates t.candidates ∧
      t.candidates.count + cs.length = s.candidates.count + ds.length ∧ ds.length ≤ cs.length + 1 ∧
      t.candidates.headMask ≤ max s.candidates.headMask (max (2 * s.candidates.count + 1) 31) ∧
      (r ∈ cs → t = s ∧ ds = cs) ∧ (r ∉ cs → t.gcStep = Function.update s.gcStep (.value r) s.gcStepType) := by
  by_cases hr : r ∈ cs
  · refine ⟨s, cs, ?_, rfl, hc, hr, fun q => ?_, ⟨[], rfl⟩, .refl _, rfl, Nat.le_succ _, Nat.le_max_left _ _,
      fun _ => ⟨rfl, rfl⟩, fun h => absurd hr h⟩
    · simp only [addFreeCandidateValue, FreeCandidateValues.get_eq hc r, if_pos hr, Option.bind_eq_bind, Option.bind_some,
        Option.pure_def]
    · constructor
      · exact Or.inl
      · rintro (h | rfl)
        · exact h
        · exact hr
  · obtain ⟨c1, c', hgrow, hpush, hreg⟩ := FreeCandidateValues.register_some hc hr
    refine ⟨{ s with candidates := c', gcStep := Function.update s.gcStep (.value r) s.gcStepType }, r :: cs, ?_, rfl,
      hreg.holds, List.mem_cons_self, fun q => ?_, ⟨[r], rfl⟩, hreg.grown, ?_, Nat.le_refl _, hreg.bound,
      fun h => absurd h hr, fun _ => rfl⟩
    · simp only [addFreeCandidateValue, FreeCandidateValues.get_eq hc r, if_neg hr, registerFreeCandidateValue, hgrow,
        hpush, Option.bind_eq_bind, Option.bind_some, Option.pure_def]
    · rw [List.mem_cons, or_comm]
    · rw [hreg.count, List.length_cons]
      omega

end State

/-- What is left of the credit when `os` are given back. -/
def spend (c : Obj → Int) (os : List Obj) : Obj → Int := fun o => c o - (os.count o : Int)

theorem spend_nil (c : Obj → Int) : spend c [] = c := by
  funext o
  simp [spend]

theorem spend_append (c : Obj → Int) (os ps : List Obj) : spend c (os ++ ps) = spend (spend c os) ps := by
  funext o
  simp only [spend, List.count_append]
  omega

theorem spend_single (c : Obj → Int) (o q : Obj) : spend c [o] q = c q - if q = o then 1 else 0 := by
  unfold spend
  by_cases hq : q = o
  · subst hq
    rw [List.count_singleton_self, if_pos rfl]
    rfl
  · rw [List.count_singleton, if_neg hq, if_neg (by simpa using fun h => hq h.symm)]
    rfl

variable {s t : State} {E : Obj → Prop} {c : Obj → Int} {cs ds : List Ref}

theorem spend_nonneg (hc : ∀ o, 0 ≤ c o) {o : Obj} (ho : 1 ≤ c o) (q : Obj) : 0 ≤ spend c [o] q := by
  rw [spend_single]
  have := hc q
  by_cases hq : q = o
  · subst hq
    rw [if_pos rfl]
    omega
  · rw [if_neg hq]
    omega

namespace Sound

/-- A counter above zero is there for every reference and every credit. -/
theorem refCount_pos (h : Sound s E c cs) {o : Obj} (hl : s.Live o) (ho : 1 ≤ c o) : 1 ≤ s.refCount o := by
  have := h.balanced o hl
  omega

theorem decr (h : Sound s E c cs) {o : Obj} (hv : ∀ l, o = .locals l → 0 < (s.decr o).refCount o) (ho : 1 ≤ c o) :
    Sound (s.decr o) E (spend c [o]) cs := by
  refine ⟨h.bounded, h.bounded_locals, h.bounded_program, h.nodup, h.ordered, h.lineage, fun q hq => ?_, fun q hq hE => ?_,
    h.exact_others, spend_nonneg h.credit ho, h.rooted, fun l hl => ?_, h.candidates, h.candidates_live, h.steps⟩
  · have := h.balanced q hq
    have howned : (s.decr o).owned q = s.owned q := rfl
    rw [State.refCount_decr, spend_single, howned]
    omega
  · have := h.exact q hq hE
    have howned : (s.decr o).owned q = s.owned q := rfl
    rw [State.refCount_decr, spend_single, howned]
    omega
  · by_cases heq : o = .locals l
    · subst heq
      exact hv l rfl
    · rw [State.refCount_decr, if_neg fun h => heq h.symm, Int.sub_zero]
      exact h.positive l hl

/-- Nothing that `Sound` is about changes but the marks and the table of candidates. -/
theorem retable (h : Sound s E c cs) (hframe : t = { s with gcStep := t.gcStep, candidates := t.candidates })
    (hcands : t.candidates.Holds ds) (hlive : ∀ r ∈ ds, (s.value r).isSome) (hsteps : ∀ o, t.gcStep o ≤ s.gcStepType) :
    Sound t E c ds := by
  rw [hframe]
  exact ⟨h.bounded, h.bounded_locals, h.bounded_program, h.nodup, h.ordered, h.lineage, h.balanced, h.exact,
    h.exact_others, h.credit, h.rooted, h.positive, hcands, hlive, hsteps⟩

variable {o : Obj} {r : Ref}

/-- A counter of a value goes down, and not both counters are zero then. -/
theorem effect_decr (h : Sound s E c cs) (ho : o = .value r ∨ o = .external r) (hr : (s.value r).isSome) (hc : 1 ≤ c o)
    (hz : ¬ ((s.decr o).refCount (.value r) = 0 ∧ (s.decr o).refCount (.external r) = 0)) :
    State.Effect s (s.decr o) cs cs := by
  have hlive : s.Live o := by rcases ho with rfl | rfl <;> exact hr
  have hw := State.weight_decr ho (h.bounded r hr) (h.refCount_pos hlive hc)
  refine ⟨rfl, fun _ _ h => h, fun _ _ h => h, fun q => ?_, fun _ => Or.inl rfl, .refl _, ⟨[], rfl⟩, fun q _ h1 h2 => ?_,
    fun _ h h' => absurd h h', rfl, ?_, Nat.le_max_left _ _⟩
  · rw [State.refCount_decr]
    split <;> omega
  · by_cases hq : q = r
    · subst hq
      exact absurd ⟨h1, h2⟩ hz
    · rw [State.refCount_decr, if_neg, Int.sub_zero] at h1 h2
      · exact Or.inr ⟨h1, h2⟩
      · rcases ho with rfl | rfl <;> simp [hq]
      · rcases ho with rfl | rfl <;> simp [hq]
  · have : (s.decr o).candidates.count = s.candidates.count := rfl
    omega

/-- A counter of a value goes down, and the value is added to the candidates. -/
theorem effect_add (h : Sound s E c cs) (ho : o = .value r ∧ s.skips r = false ∨ o = .external r)
    (hr : (s.value r).isSome) (hc : 1 ≤ c o) (hz : (s.decr o).refCount (.value r) ≤ 0) :
    ∃ t ds, (s.decr o).addFreeCandidateValue r = some t ∧ State.Effect s t cs ds ∧ Sound t E (spend c [o]) ds := by
  have hskip : o = .value r → s.skips r = false := by
    rintro rfl
    rcases ho with ho | ho
    · exact ho.2
    · cases ho
  replace ho : o = .value r ∨ o = .external r := ho.imp_left And.left
  have hlive : s.Live o := by rcases ho with rfl | rfl <;> exact hr
  have hw := State.weight_decr ho (h.bounded r hr) (h.refCount_pos hlive hc)
  have hd := h.decr (by rcases ho with rfl | rfl <;> simp) hc
  obtain ⟨t, ds, ht, hframe, hholds, hrd, hmem, hpush, hgrown, hcount, hlen, hmask, hold, hnew⟩ :=
    State.addFreeCandidateValue_some hd.candidates r
  have hrefs : t.refCount = (s.decr o).refCount := by rw [hframe]
  have hstep : ∀ q, t.gcStep q = s.gcStep q ∨ q = .value r ∧ r ∉ cs ∧ t.gcStep q = s.gcStepType := by
    intro q
    by_cases hr' : r ∈ cs
    · obtain ⟨rfl, -⟩ := hold hr'
      exact Or.inl rfl
    · rw [hnew hr']
      by_cases hq : q = .value r
      · subst hq
        exact Or.inr ⟨rfl, hr', Function.update_self ..⟩
      · exact Or.inl (Function.update_of_ne hq _ _)
  have hcands : (s.decr o).candidates = s.candidates := rfl
  refine ⟨t, ds, ht, ⟨?_, fun l loc hl => ?_, fun p ss hp => ?_, fun q => ?_, fun q => ?_, hgrown, hpush,
    fun q _ h1 h2 => ?_, fun q hq hq' => ?_, hcount, ?_, ?_⟩, ?_⟩
  · rw [hframe]
    rfl
  · rw [hframe] at hl
    exact hl
  · rw [hframe] at hp
    exact hp
  · rw [hrefs, State.refCount_decr]
    split <;> omega
  · rcases hstep q with h1 | ⟨rfl, hr', h1⟩
    · exact Or.inl h1
    · exact Or.inr ⟨r, rfl, hrd, hr', h1⟩
  · by_cases hq : q = r
    · subst hq
      exact Or.inl hrd
    · rw [hrefs, State.refCount_decr, if_neg, Int.sub_zero] at h1 h2
      · exact Or.inr ⟨h1, h2⟩
      · rcases ho with rfl | rfl <;> simp [hq]
      · rcases ho with rfl | rfl <;> simp [hq]
  · obtain rfl : q = r := ((hmem q).1 hq).resolve_left hq'
    have hpos := h.refCount_pos hlive hc
    refine ⟨?_, hrefs ▸ hz, ?_⟩
    · rw [hnew hq']
      exact Function.update_self ..
    · rcases ho with rfl | rfl
      · exact Or.inl ⟨hskip rfl, by omega⟩
      · exact Or.inr (by omega)
  · have hweight : t.weight = (s.decr o).weight := by
      unfold State.weight
      rw [hrefs, hframe]
    rw [hcands] at hcount
    omega
  · rw [hcands] at hmask
    omega
  · refine hd.retable hframe hholds (fun q hq => ?_) fun q => ?_
    · rcases (hmem q).1 hq with hq | rfl
      · exact h.candidates_live q hq
      · exact hr
    · rcases hstep q with h1 | ⟨-, -, h1⟩
      · rw [h1]
        exact h.steps q
      · rw [h1]
        exact Nat.le_refl _

theorem weaken {E' : Obj → Prop} (h : Sound s E c cs) (hE : ∀ o, E' o → E o) (hothers : ∀ o, ¬ o.IsValue → E' o) :
    Sound s E' c cs :=
  ⟨h.bounded, h.bounded_locals, h.bounded_program, h.nodup, h.ordered, h.lineage, h.balanced,
    fun o hl ho => h.exact o hl (hE o ho), hothers, h.credit, h.rooted, h.positive, h.candidates, h.candidates_live, h.steps⟩

/-- A reference that is given up without counting: the counter is too high from then on. -/
theorem skip (h : Sound s E c cs) (hc : 1 ≤ c (.value r)) : Sound s (fun o => E o ∧ o ≠ .value r) (spend c [.value r]) cs := by
  refine ⟨h.bounded, h.bounded_locals, h.bounded_program, h.nodup, h.ordered, h.lineage, fun o ho => ?_, fun o ho hE => ?_,
    fun o ho => ⟨h.exact_others o ho, ?_⟩, spend_nonneg h.credit hc, h.rooted, h.positive, h.candidates,
    h.candidates_live, h.steps⟩
  · have := h.balanced o ho
    rw [spend_single]
    split <;> omega
  · rw [spend_single, if_neg hE.2, Int.sub_zero]
    exact h.exact o ho hE.1
  · rintro rfl
    exact ho trivial

end Sound

namespace State

/-- The values whose counter a release leaves alone while a sweep is in progress. -/
def Skipped (s : State) (o : Obj) : Prop := ∃ r, o = .value r ∧ s.skips r = true

/-- What a release gives up besides the reference itself: the slots of locals that are freed with it. -/
inductive Under (s : State) : Obj → Obj → Prop
  | self (o : Obj) : Under s o o
  | locals {l : LocalsRef} {o q : Obj} : o ∈ s.holds (.locals l) → Under s o q → Under s (.locals l) q

theorem releaseValue_sound {r : Ref} (h : Sound s E c cs) (hc : 1 ≤ c (.value r)) (hr : s.releaseValue r = some t) :
    ∃ ds, Effect s t cs ds ∧ Sound t (fun o => E o ∧ ¬ (o = .value r ∧ s.Skipped o)) (spend c [.value r]) ds := by
  unfold releaseValue at hr
  split at hr
  · rename_i hlive
    split at hr
    · rename_i hskip
      obtain rfl := Option.some.inj hr
      refine ⟨cs, .refl _ _, (h.skip hc).weaken (fun o ho => ⟨ho.1, ?_⟩) fun o ho => ⟨h.exact_others o ho, ?_⟩⟩
      · rintro rfl
        exact ho.2 ⟨rfl, r, rfl, hskip⟩
      · rintro ⟨rfl, -⟩
        exact ho trivial
    · rename_i hskip
      split at hr
      · rename_i hz
        obtain ⟨u, ds, hu, heff, hsound⟩ := h.effect_add (Or.inl ⟨rfl, by simpa using hskip⟩) hlive hc (Int.le_of_eq hz)
        obtain rfl : u = t := Option.some.inj (hu.symm.trans hr)
        exact ⟨ds, heff, hsound.weaken (fun o ho => ho.1) fun o ho => ⟨h.exact_others o ho, fun he => by
          rw [he.1] at ho
          exact ho trivial⟩⟩
      · rename_i hz
        obtain rfl := Option.some.inj hr
        refine ⟨cs, h.effect_decr (Or.inl rfl) hlive hc fun he => hz he.1, ?_⟩
        exact (h.decr (by simp) hc).weaken (fun o ho => ho.1) fun o ho => ⟨h.exact_others o ho, fun he => by
          rw [he.1] at ho
          exact ho trivial⟩
  · cases hr

theorem releaseExternal_sound {r : Ref} (h : Sound s E c cs) (hc : 1 ≤ c (.external r))
    (hr : s.releaseExternal r = some t) : ∃ ds, Effect s t cs ds ∧ Sound t E (spend c [.external r]) ds := by
  unfold releaseExternal at hr
  split at hr
  · rename_i hlive
    have hval : (s.decr (.external r)).refCount (.value r) = s.refCount (.value r) := by
      rw [refCount_decr, if_neg (by simp), Int.sub_zero]
    split at hr
    · rename_i hz
      obtain ⟨u, ds, hu, heff, hsound⟩ := h.effect_add (Or.inr rfl) hlive hc (Int.le_of_eq (hval.trans hz.2))
      obtain rfl : u = t := Option.some.inj (hu.symm.trans hr)
      exact ⟨ds, heff, hsound⟩
    · rename_i hz
      obtain rfl := Option.some.inj hr
      refine ⟨cs, h.effect_decr (Or.inr rfl) hlive hc fun he => hz ⟨he.2, ?_⟩, h.decr (by simp) hc⟩
      rw [← hval]
      exact he.1
  · cases hr

/-! ## Giving back several references -/

theorem Effect.skipped (h : Effect s t cs ds) {o : Obj} (ho : t.Skipped o) : s.Skipped o := by
  obtain ⟨r, rfl, hr⟩ := ho
  refine ⟨r, rfl, ?_⟩
  unfold skips at hr ⊢
  rw [h.gcFixInProgress, h.gcStepType] at hr
  rcases h.step (.value r) with h1 | ⟨q, -, -, -, h1⟩
  · rwa [h1] at hr
  · rw [h1] at hr
    simp at hr

theorem Effect.holds_locals (h : Effect s t cs ds) {l : LocalsRef} {o : Obj} (ho : o ∈ t.holds (.locals l)) :
    o ∈ s.holds (.locals l) := by
  simp only [holds] at ho ⊢
  cases hl : t.locals l with
  | none =>
    rw [hl] at ho
    cases ho
  | some loc =>
    rw [hl] at ho
    rw [h.locals l loc hl]
    exact ho

theorem Effect.under (h : Effect s t cs ds) {p o : Obj} (ho : t.Under p o) : s.Under p o := by
  induction ho with
  | self o => exact .self o
  | locals hmem _ ih => exact .locals (h.holds_locals hmem) ih

/-- **The references `os` were given back.** -/
def Released (s t : State) (E : Obj → Prop) (c : Obj → Int) (cs : List Ref) (os : List Obj) : Prop :=
  ∃ ds, Effect s t cs ds ∧ Sound t (fun o => E o ∧ ¬ (s.Skipped o ∧ ∃ p ∈ os, s.Under p o)) (spend c os) ds

theorem Released.nil (h : Sound s E c cs) : Released s s E c cs [] :=
  ⟨cs, .refl _ _, by rw [spend_nil]; exact h.weaken (fun _ ho => ho.1) fun o ho => ⟨h.exact_others o ho, by simp⟩⟩

theorem not_skipped {o : Obj} (ho : ¬ o.IsValue) : ¬ s.Skipped o := by
  rintro ⟨r, rfl, -⟩
  exact ho trivial

theorem Released.trans {u : State} {os ps : List Obj} (h : Released s t E c cs os)
    (h' : ∀ (E' : Obj → Prop) (ds : List Ref), Sound t E' (spend c os) ds → Released t u E' (spend c os) ds ps) :
    Released s u E c cs (os ++ ps) := by
  obtain ⟨ds, heff, hsound⟩ := h
  obtain ⟨es, heff', hsound'⟩ := h' _ ds hsound
  refine ⟨es, heff.trans heff', ?_⟩
  rw [spend_append]
  refine hsound'.weaken (fun o ho => ⟨⟨ho.1, fun hs => ho.2 ?_⟩, fun hs => ho.2 ?_⟩) fun o ho => ⟨?_, fun hs => ?_⟩
  · obtain ⟨hk, p, hp, hu⟩ := hs
    exact ⟨hk, p, List.mem_append_left _ hp, hu⟩
  · obtain ⟨hk, p, hp, hu⟩ := hs
    exact ⟨heff.skipped hk, p, List.mem_append_right _ hp, heff.under hu⟩
  · exact (hsound.exact_others o ho).1
  · exact not_skipped ho hs.1

/-- Giving back a list, given what giving back one reference does. -/
theorem foldlM_released {f : State → Obj → Option State} {q : Obj → Prop} (hf : ∀ (s t : State) (E : Obj → Prop)
    (c : Obj → Int) (cs : List Ref) (o : Obj), q o → Sound s E c cs → 1 ≤ c o → f s o = some t → Released s t E c cs [o]) :
    ∀ (os : List Obj) (s t : State) (E : Obj → Prop) (c : Obj → Int) (cs : List Ref), (∀ o ∈ os, q o) → Sound s E c cs →
    (∀ o, (os.count o : Int) ≤ c o) → os.foldlM f s = some t → Released s t E c cs os
  | [], s, t, E, c, cs, _, h, _, ht => by
    obtain rfl := Option.some.inj ht
    exact .nil h
  | o :: os, s, t, E, c, cs, hq, h, hc, ht => by
    rw [List.foldlM_cons] at ht
    obtain ⟨u, hu, ht⟩ := Option.bind_eq_some_iff.1 ht
    have ho : 1 ≤ c o := by
      have := hc o
      rw [List.count_cons_self] at this
      omega
    have hstep := hf s u E c cs o (hq o List.mem_cons_self) h ho hu
    refine (hstep.trans fun E' ds hs => foldlM_released hf os u t E' _ ds (fun p hp => hq p (List.mem_cons_of_mem _ hp)) hs
      (fun p => ?_) ht : Released s t E c cs ([o] ++ os))
    have := hc p
    rw [spend_single]
    rw [List.count_cons] at this
    by_cases hp : p = o
    · subst hp
      simp only [beq_self_eq_true, if_true] at this ⊢
      omega
    · rw [if_neg hp]
      omega

theorem releaseValue_released {r : Ref} (h : Sound s E c cs) (hc : 1 ≤ c (.value r)) (hr : s.releaseValue r = some t) :
    Released s t E c cs [.value r] := by
  obtain ⟨ds, heff, hsound⟩ := releaseValue_sound h hc hr
  refine ⟨ds, heff, hsound.weaken (fun o ho => ⟨ho.1, ?_⟩) fun o ho => ⟨h.exact_others o ho, fun hs => not_skipped ho hs.1⟩⟩
  rintro ⟨rfl, hk⟩
  exact ho.2 ⟨hk, _, List.mem_singleton_self _, .self _⟩

theorem releaseExternal_released {r : Ref} (h : Sound s E c cs) (hc : 1 ≤ c (.external r))
    (hr : s.releaseExternal r = some t) : Released s t E c cs [.external r] := by
  obtain ⟨ds, heff, hsound⟩ := releaseExternal_sound h hc hr
  exact ⟨ds, heff, hsound.weaken (fun o ho => ho.1) fun o ho => ⟨h.exact_others o ho, fun hs => not_skipped ho hs.1⟩⟩

theorem foldlM_releaseSlot (vs : List Slot) (s : State) : vs.foldlM releaseSlot s = (holdingAll vs).foldlM release s := by
  induction vs generalizing s with
  | nil => rfl
  | cons v vs ih =>
    cases v with
    | none =>
      rw [List.foldlM_cons]
      exact ih s
    | some r =>
      have hall : holdingAll (some r :: vs) = .value r :: holdingAll vs := rfl
      rw [hall, List.foldlM_cons, List.foldlM_cons]
      exact congrArg _ (funext ih)

theorem foldlM_releaseExternal (rs : List Ref) (s : State) :
    rs.foldlM releaseExternal s = (rs.map Obj.external).foldlM release s := by
  rw [List.foldlM_map]
  rfl

end State

/-! ## Programs and locals -/

/-- The credit when the references `os` are taken out of an object. -/
def earn (c : Obj → Int) (os : List Obj) : Obj → Int := fun o => c o + (os.count o : Int)

theorem spend_earn (c : Obj → Int) (os : List Obj) : spend (earn c os) os = c := by
  funext o
  unfold spend earn
  omega

namespace Sound

open State

theorem mem_objects_of_live (h : Sound s E c cs) : ∀ o : Obj, (∀ r, o ≠ .external r) → s.Live o → o ∈ s.objects
  | .value r, _, hl => (mem_objects _).2 (h.bounded r hl)
  | .external r, hne, _ => absurd rfl (hne r)
  | .locals l, _, hl => (mem_objects _).2 (h.bounded_locals l hl)
  | .program p, _, hl => (mem_objects _).2 (h.bounded_program p hl)

theorem freeProgram (h : Sound s E c cs) {p : ProgramRef} {strings : List Ref} (hp : s.program p = some strings)
    (hz : s.refCount (.program p) ≤ 0) : Sound (s.setProgramAt p none) E (earn c (strings.map .external)) cs := by
  have hlive : s.Live (.program p) := live_program.2 (by rw [hp]; rfl)
  have howned : ∀ o, (s.setProgramAt p none).owned o + (strings.map Obj.external).count o = s.owned o := by
    intro o
    have := owned_update (s := s) (t := s.setProgramAt p none) (h := .program p)
      ((mem_objects _).2 (h.bounded_program p hlive)) rfl (fun q hq => ?_) rfl o
    · simpa [holds, setProgramAt, hp] using this
    · cases q with
      | program q =>
        have hne : q ≠ p := by
          rintro rfl
          exact hq rfl
        simp [holds, setProgramAt, Function.update_of_ne hne]
      | _ => rfl
  have hsub : ∀ o, (s.setProgramAt p none).Live o → s.Live o := by
    intro o ho
    cases o with
    | program q =>
      by_cases hq : q = p
      · subst hq
        exact hlive
      · simpa [Live, setProgramAt, Function.update_of_ne hq] using ho
    | _ => exact ho
  refine ⟨h.bounded, h.bounded_locals, fun q hq => h.bounded_program q (hsub (.program q) hq), h.nodup, h.ordered, h.lineage,
    fun o ho => ?_, fun o ho hE => ?_, h.exact_others, fun o => ?_, fun o ho hpos => ?_, h.positive, h.candidates,
    h.candidates_live, h.steps⟩
  · have h1 := h.balanced o (hsub o ho)
    have h2 := howned o
    have h3 : (s.setProgramAt p none).refCount o = s.refCount o := rfl
    unfold earn
    omega
  · have h1 := h.exact o (hsub o ho) hE
    have h2 := howned o
    have h3 : (s.setProgramAt p none).refCount o = s.refCount o := rfl
    unfold earn
    omega
  · have := h.credit o
    unfold earn
    omega
  · have h2 := howned o
    have hl := h.rooted o ho (by omega)
    cases o with
    | program q =>
      by_cases hq : q = p
      · subst hq
        have h1 := h.exact _ hlive (h.exact_others (.program q) id)
        have h3 := h.credit (.program q)
        omega
      · simpa [Live, setProgramAt, Function.update_of_ne hq] using hl
    | _ => exact hl

theorem freeLocals (h : Sound s E c cs) {l : LocalsRef} {loc : Locals} (hl : s.locals l = some loc)
    (hc : 1 ≤ c (.locals l)) (hz : (s.decr (.locals l)).refCount (.locals l) ≤ 0) :
    Sound ((s.decr (.locals l)).setLocalsAt l none) E (earn (spend c [.locals l]) loc.held) cs := by
  have hlive : s.Live (.locals l) := live_locals.2 (by rw [hl]; rfl)
  have hother : ∀ q, q ≠ l → ((s.decr (.locals l)).setLocalsAt l none).locals q = s.locals q :=
    fun q hq => Function.update_of_ne hq _ _
  have hself : ((s.decr (.locals l)).setLocalsAt l none).locals l = none := Function.update_self ..
  have hrefs : ∀ o, ((s.decr (.locals l)).setLocalsAt l none).refCount o = s.refCount o - if o = .locals l then 1 else 0 :=
    fun o => refCount_decr s (.locals l) o
  have howned : ∀ o, ((s.decr (.locals l)).setLocalsAt l none).owned o + loc.held.count o = s.owned o := by
    intro o
    have := owned_update (s := s) (t := (s.decr (.locals l)).setLocalsAt l none) (h := .locals l)
      ((mem_objects _).2 (h.bounded_locals l hlive)) rfl (fun q hq => ?_) rfl o
    · simpa [holds, hself, hl] using this
    · cases q with
      | locals q =>
        have hne : q ≠ l := by
          rintro rfl
          exact hq rfl
        simp [holds, hother q hne]
      | _ => rfl
  have hsub : ∀ o, ((s.decr (.locals l)).setLocalsAt l none).Live o → s.Live o := by
    intro o ho
    cases o with
    | locals q =>
      by_cases hq : q = l
      · subst hq
        exact hlive
      · rwa [live_locals, hother q hq] at ho
    | _ => exact ho
  -- nothing holds the locals
  have hfree : s.owned (.locals l) = 0 := by
    have h1 := h.exact _ hlive (h.exact_others (.locals l) id)
    rw [refCount_decr, if_pos rfl] at hz
    omega
  refine ⟨h.bounded, fun q hq => h.bounded_locals q (hsub (.locals q) hq), h.bounded_program, h.nodup, h.ordered,
    fun q lq hq p ps hps => ?_, fun o ho => ?_, fun o ho hE => ?_, h.exact_others, fun o => ?_, fun o ho hpos => ?_,
    fun q hq => ?_, h.candidates, h.candidates_live, h.steps⟩
  · have hql : q ≠ l := by
      rintro rfl
      rw [hself] at hq
      cases hq
    rw [hother q hql] at hq
    obtain ⟨lp, hlp, hpar⟩ := h.lineage q lq hq p ps hps
    refine ⟨lp, ?_, hpar⟩
    have hpl : p ≠ l := by
      rintro rfl
      have hmem : Obj.locals p ∈ s.holds (.locals q) := by simp [holds, hq, Locals.held, hps]
      have hlq : s.Live (.locals q) := live_locals.2 (by rw [hq]; rfl)
      have := owned_pos_of_holds (h.mem_objects_of_live _ (by simp) hlq) hmem
      omega
    rw [hother p hpl]
    exact hlp
  · have h1 := h.balanced o (hsub o ho)
    have h2 := howned o
    rw [hrefs]
    unfold earn
    rw [spend_single]
    omega
  · have h1 := h.exact o (hsub o ho) hE
    have h2 := howned o
    rw [hrefs]
    unfold earn
    rw [spend_single]
    omega
  · have := spend_nonneg h.credit hc o
    unfold earn
    omega
  · have h2 := howned o
    have hl' := h.rooted o ho (by omega)
    cases o with
    | locals q =>
      by_cases hq : q = l
      · subst hq
        omega
      · rw [live_locals, hother q hq]
        exact hl'
    | _ => exact hl'
  · have hql : q ≠ l := by
      rintro rfl
      rw [hself] at hq
      cases hq
    rw [hrefs, if_neg (by simpa using hql), Int.sub_zero]
    exact h.positive q (hsub (.locals q) hq)

end Sound

end Gc
end ObjectScript
