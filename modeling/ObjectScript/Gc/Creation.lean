import ObjectScript.Gc.Steps
/-!
# Creating values, locals and programs

A new object has an id that nothing refers to yet.  What it holds was retained before, and its counter is what the
operation that creates it gives it: zero for a value, which is a candidate at once, one for the locals of a call and
for a program.

`Created` says what the operations have in common: which objects are new, and which references that were held in credit
are in their places afterwards.  The lemmas put values, locals and
programs under it.
-/
namespace ObjectScript
namespace Gc

open ObjectScript.Core (Ref)
open State

variable {s t u : State} {E : Obj → Prop} {c d : Obj → Int} {cs ds : List Ref} {taken : List Obj} {fresh : Obj → Prop} {g : GCValue}

/-- **The objects `fresh` come up, and the references `taken` go into places.** -/
structure Created (s t : State) (fresh : Obj → Prop) (taken : List Obj) : Prop where
  live : ∀ o, t.Live o ↔ s.Live o ∨ fresh o
  refCount : ∀ o, ¬ fresh o → t.refCount o = s.refCount o
  owned : ∀ o, ¬ fresh o → t.owned o = s.owned o + taken.count o
  exact : ∀ o, fresh o → t.refCount o = t.owned o

namespace Created

theorem balanced (hc : Created s t fresh taken) (h : Sound s E (earn 0 taken) cs) (o : Obj) (ho : t.Live o) :
    (t.owned o : Int) + (0 : Obj → Int) o ≤ t.refCount o := by
  show (t.owned o : Int) + 0 ≤ t.refCount o
  by_cases hf : fresh o
  · have h₁ := hc.exact o hf
    omega
  · have h₁ := h.balanced o (((hc.live o).1 ho).resolve_right hf)
    have h₂ := hc.refCount o hf
    have h₃ := hc.owned o hf
    have h₄ : earn 0 taken o = (0 : Int) + taken.count o := rfl
    omega

theorem exactly (hc : Created s t fresh taken) (h : Sound s E (earn 0 taken) cs) (o : Obj) (ho : t.Live o) (hE : E o) :
    t.refCount o = t.owned o + (0 : Obj → Int) o := by
  show t.refCount o = (t.owned o : Int) + 0
  by_cases hf : fresh o
  · have h₁ := hc.exact o hf
    omega
  · have h₁ := h.exact o (((hc.live o).1 ho).resolve_right hf) hE
    have h₂ := hc.refCount o hf
    have h₃ := hc.owned o hf
    have h₄ : earn 0 taken o = (0 : Int) + taken.count o := rfl
    omega

/-- What is owned was owned before, is there, or is new. -/
theorem held (hc : Created s t fresh taken) (htaken : ∀ o ∈ taken, s.Live o) {o : Obj} (ho : 0 < t.owned o) :
    0 < s.owned o ∨ t.Live o := by
  by_cases hf : fresh o
  · exact .inr ((hc.live o).2 (.inr hf))
  · by_cases hmem : o ∈ taken
    · exact .inr ((hc.live o).2 (.inl (htaken o hmem)))
    · have howned := hc.owned o hf
      rw [List.count_eq_zero_of_not_mem hmem] at howned
      exact .inl (by omega)

theorem rooted (hc : Created s t fresh taken) (h : Sound s E (earn 0 taken) cs) (htaken : ∀ o ∈ taken, s.Live o) (o : Obj)
    (ho : ¬ o.IsValue) (hpos : 0 < t.owned o) : t.Live o :=
  (hc.held htaken hpos).elim (fun hs => (hc.live o).2 (.inl (h.rooted o ho hs))) id

end Created

theorem owned_create {h : Obj} (out : List Obj) (hobj : t.objects.Perm (h :: s.objects))
    (hs : ∀ o ∈ s.objects, t.holds o = s.holds o) (hout : ∀ o, t.outside.count o = s.outside.count o + out.count o)
    (o : Obj) : t.owned o = s.owned o + (t.holds h ++ out).count o := by
  have htally : Tally.tally t.objects t.holds o = Tally.tally (h :: s.objects) t.holds o :=
    (hobj.flatMap_right t.holds).count_eq o
  have h₁ := hout o
  rw [State.owned, State.owned, htally, Tally.tally_cons, Tally.tally_congr hs, List.count_append]
  omega

/-! ## The table of all values -/

theorem flatten_modify_perm {r : Ref} : ∀ {xs : List (List Ref)} {i : Nat}, i < xs.length →
    (xs.modify i (r :: ·)).flatten.Perm (r :: xs.flatten)
  | [], i, h => by cases h
  | x :: xs, 0, h => .refl _
  | x :: xs, i + 1, h => by
    have ih : (xs.modify i (r :: ·)).flatten.Perm (r :: xs.flatten) := flatten_modify_perm (Nat.lt_of_succ_lt_succ h)
    rw [List.modify_succ_cons, List.flatten_cons, List.flatten_cons]
    exact (ih.append_left x).trans List.perm_middle

theorem length_pushFront (m : Nat) (xs : List (List Ref)) (r : Ref) : (Values.pushFront m xs r).length = xs.length :=
  List.length_modify ..

theorem pushFront_perm {m : Nat} {xs : List (List Ref)} (h : xs.length = m + 1) (r : Ref) :
    (Values.pushFront m xs r).flatten.Perm (r :: xs.flatten) :=
  flatten_modify_perm (by rw [h]; exact FreeCandidateValues.and_mask_lt r m)

theorem foldl_pushFront {m : Nat} : ∀ (rs : List Ref) (xs : List (List Ref)), xs.length = m + 1 →
    (rs.foldl (Values.pushFront m) xs).length = m + 1 ∧ (rs.foldl (Values.pushFront m) xs).flatten.Perm (rs ++ xs.flatten)
  | [], xs, h => ⟨h, .refl _⟩
  | r :: rs, xs, h => by
    obtain ⟨hlen, hperm⟩ := foldl_pushFront rs (Values.pushFront m xs r) ((length_pushFront m xs r).trans h)
    refine ⟨hlen, hperm.trans ?_⟩
    exact ((pushFront_perm h r).append_left rs).trans List.perm_middle

theorem grow_formed {v : Values} (h : Formed v) : v.grow.chains.length = v.grow.headMask + 1 ∧ v.grow.order.Perm v.order := by
  unfold Values.grow
  split
  · have hpos : 0 < v.newSize := by
      unfold Values.newSize
      split <;> omega
    have hsize : (List.replicate v.newSize ([] : List Ref)).length = v.newSize - 1 + 1 := by
      rw [List.length_replicate]
      omega
    obtain ⟨hlen, hperm⟩ := foldl_pushFront v.chains.flatten (List.replicate v.newSize []) hsize
    refine ⟨hlen, hperm.trans ?_⟩
    rw [List.flatten_replicate_nil, List.append_nil]
    exact .refl _
  · rename_i hlt
    refine ⟨h.resolve_left fun hnil => hlt ?_, .refl _⟩
    rw [hnil.2]
    exact Nat.zero_le _

theorem register_formed {v : Values} (h : Formed v) : Formed v.register ∧ v.register.order.Perm (v.nextId :: v.order) := by
  obtain ⟨hlen, hperm⟩ := grow_formed h
  refine ⟨.inr ((length_pushFront ..).trans hlen), ?_⟩
  exact (pushFront_perm hlen v.nextId).trans (hperm.cons _)

/-! ## Values -/

/-- A value with the next id, before it is a candidate. -/
def State.addValue (s : State) (g : GCValue) : State :=
  { s.setValueAt s.values.nextId (some g) with
    refCount := Function.update (Function.update s.refCount (.value s.values.nextId) 0) (.external s.values.nextId) 0
    values := s.values.register
    stack := s.stack ++ [some s.values.nextId]
    numCreatedValues := s.numCreatedValues + 1 }

theorem addValue_value_self (s : State) (g : GCValue) : (s.addValue g).value s.values.nextId = some g :=
  Function.update_self ..

theorem addValue_value_ne {r : Ref} (g : GCValue) (hr : r ≠ s.values.nextId) : (s.addValue g).value r = s.value r :=
  Function.update_of_ne hr _ _

theorem addValue_refCount_value (s : State) (g : GCValue) : (s.addValue g).refCount (.value s.values.nextId) = 0 := by
  show Function.update (Function.update s.refCount _ 0) (.external s.values.nextId) 0 (.value s.values.nextId) = 0
  rw [Function.update_of_ne (by simp only [ne_eq, reduceCtorEq, not_false_eq_true]), Function.update_self]

theorem addValue_refCount_external (s : State) (g : GCValue) : (s.addValue g).refCount (.external s.values.nextId) = 0 :=
  Function.update_self ..

theorem value_nextId (h : Sound s E c cs) : s.value s.values.nextId = none := by
  cases hv : s.value s.values.nextId with
  | none => rfl
  | some g => exact absurd (h.bounded _ (Option.isSome_of_eq_some hv)) (Nat.lt_irrefl _)

theorem addValue_isSome (s : State) (g : GCValue) (r : Ref) :
    ((s.addValue g).value r).isSome ↔ (s.value r).isSome ∨ r = s.values.nextId := by
  by_cases hr : r = s.values.nextId
  · rw [hr, addValue_value_self]
    exact ⟨fun _ => .inr rfl, fun _ => rfl⟩
  · rw [addValue_value_ne g hr]
    exact ⟨.inl, fun h => h.resolve_right hr⟩

theorem addValue_objects (s : State) (g : GCValue) : (s.addValue g).objects.Perm (.value s.values.nextId :: s.objects) := by
  show ((List.range (s.values.nextId + 1)).map Obj.value ++ _ ++ _).Perm _
  rw [List.range_succ, List.map_append, List.append_assoc, List.append_assoc, State.objects, List.append_assoc]
  exact List.perm_middle

theorem addValue_created (h : Ready s E (earn 0 g.held) cs) (hlive : ∀ o ∈ g.held, s.Live o) :
    Created s (s.addValue g) (fun o => o = .value s.values.nextId ∨ o = .external s.values.nextId) g.held := by
  have hnone := value_nextId h.sound
  have hnew : ∀ o, o = .value s.values.nextId ∨ o = .external s.values.nextId → ¬ s.Live o := by
    rintro o (rfl | rfl) hl
    · rw [live_value, hnone] at hl
      cases hl
    · rw [live_external, hnone] at hl
      cases hl
  have howned : ∀ o, (s.addValue g).owned o = s.owned o + g.held.count o := by
    intro o
    have hcreate := owned_create (s := s) (t := s.addValue g) (h := .value s.values.nextId) []
      (addValue_objects s g) (fun q hq => ?_) (fun _ => rfl) o
    · rw [List.append_nil] at hcreate
      have hself : (s.addValue g).holds (.value s.values.nextId) = g.held := by
        simp only [holds, addValue_value_self, Option.elim_some]
      rw [hself] at hcreate
      exact hcreate
    · cases q with
      | value q =>
        have hne : q ≠ s.values.nextId := Nat.ne_of_lt ((mem_objects (.value q)).1 hq)
        simp only [holds, addValue_value_ne g hne]
      | _ => rfl
  have hzero : ∀ o, o = .value s.values.nextId ∨ o = .external s.values.nextId → (s.addValue g).owned o = 0 := by
    intro o ho
    have hcount : g.held.count o = 0 := List.count_eq_zero_of_not_mem fun hmem => hnew o ho (hlive o hmem)
    rw [howned, hcount]
    rcases ho with rfl | rfl
    · exact Nat.eq_zero_of_not_pos fun hpos => Nat.lt_irrefl _ (h.known _ hpos)
    · exact Nat.eq_zero_of_not_pos fun hpos => hnew _ (.inr rfl) (h.sound.rooted _ id hpos)
  refine ⟨fun o => ?_, fun o ho => ?_, fun o _ => howned o, fun o ho => ?_⟩
  · cases o with
    | value r =>
      rw [live_value, live_value, addValue_isSome]
      simp only [Obj.value.injEq, reduceCtorEq, or_false]
    | external r =>
      rw [live_external, live_external, addValue_isSome]
      simp only [Obj.external.injEq, reduceCtorEq, false_or]
    | locals l => exact ⟨.inl, fun h => h.elim id (by rintro (h | h) <;> cases h)⟩
    | program p => exact ⟨.inl, fun h => h.elim id (by rintro (h | h) <;> cases h)⟩
  · obtain ⟨h₁, h₂⟩ := not_or.1 ho
    exact (Function.update_of_ne h₂ _ _).trans (Function.update_of_ne h₁ _ _)
  · rw [hzero o ho]
    rcases ho with rfl | rfl
    · exact addValue_refCount_value s g
    · exact addValue_refCount_external s g

theorem addValue_sound (h : Ready s E (earn 0 g.held) cs) (hlive : ∀ o ∈ g.held, s.Live o) : Sound (s.addValue g) E 0 cs := by
  have hc := addValue_created h hlive
  have hperm := (register_formed h.formed).2
  have hnextId : (s.addValue g).values.nextId = s.values.nextId + 1 := rfl
  constructor
  · intro r hr
    rw [hnextId]
    rcases (addValue_isSome s g r).1 hr with hr | rfl
    · exact Nat.lt_succ_of_lt (h.sound.bounded r hr)
    · exact Nat.lt_succ_self _
  · exact h.sound.bounded_locals
  · exact h.sound.bounded_program
  · refine hperm.nodup_iff.2 (List.nodup_cons.2 ⟨fun hmem => ?_, h.sound.nodup⟩)
    exact Nat.lt_irrefl _ (h.sound.bounded _ (h.sound.ordered _ hmem))
  · intro r hr
    refine (addValue_isSome s g r).2 ?_
    rcases List.mem_cons.1 (hperm.mem_iff.1 hr) with rfl | hr
    · exact .inr rfl
    · exact .inl (h.sound.ordered r hr)
  · exact h.sound.lineage
  · exact hc.balanced h.sound
  · exact hc.exactly h.sound
  · exact h.sound.exact_others
  · exact zero_nonneg
  · exact hc.rooted h.sound hlive
  · intro l hl
    rw [hc.refCount _ (by rintro (h | h) <;> cases h)]
    exact h.sound.positive l hl
  · exact h.sound.candidates
  · exact fun r hr => (addValue_isSome s g r).2 (.inl (h.sound.candidates_live r hr))
  · exact h.sound.steps

theorem registerValueAndPush_keeps (h : Ready s E 0 cs) (ht : s.registerValueAndPush g = some t) : Keeps s t E cs := by
  unfold registerValueAndPush at ht
  obtain ⟨s₁, hs₁, ht⟩ := Option.bind_eq_some_iff.1 ht
  obtain ⟨h₁, hm₁, hlive, hframe⟩ := Ready.retainAll _ _ _ _ h hs₁
  have hlive₁ : ∀ o ∈ g.held, s₁.Live o := fun o ho => by
    rw [hframe]
    exact hlive o ho
  have hsound := addValue_sound h₁ hlive₁
  have hcreated := addValue_created h₁ hlive₁
  have hfresh : s₁.values.nextId ∉ cs := fun hmem =>
    Nat.lt_irrefl _ (h₁.sound.bounded _ (h₁.sound.candidates_live _ hmem))
  obtain ⟨c₁, c₂, hgrow, hpush, hreg⟩ := FreeCandidateValues.register_some h₁.sound.candidates hfresh
  have ht' : (s₁.addValue g).registerFreeCandidateValue s₁.values.nextId = some t := ht
  have hcands : (s₁.addValue g).candidates = s₁.candidates := rfl
  have htarget : t = { s₁.addValue g with
      candidates := c₂
      gcStep := Function.update (s₁.addValue g).gcStep (.value s₁.values.nextId) s₁.gcStepType } := by
    rw [registerFreeCandidateValue, hcands, hgrow, Option.bind_eq_bind, Option.bind_some, hpush] at ht'
    exact (Option.some.inj ht').symm
  have hsteps : ∀ o, t.gcStep o ≤ (s₁.addValue g).gcStepType := by
    intro o
    have hgcStep : t.gcStep = Function.update (s₁.addValue g).gcStep (.value s₁.values.nextId) s₁.gcStepType := by
      rw [htarget]
    rw [hgcStep]
    by_cases ho : o = .value s₁.values.nextId
    · rw [ho, Function.update_self]
      exact Nat.le_refl _
    · rw [Function.update_of_ne ho]
      exact hsound.steps o
  have hready : Ready t E 0 (s₁.values.nextId :: cs) := by
    refine ⟨hsound.retable (by rw [htarget]) ?_ (fun r hr => ?_) hsteps, ?_, fun r hr => ?_, ?_, ?_, fun r hr => ?_⟩
    · rw [htarget]
      exact hreg.holds
    · refine (addValue_isSome s₁ g r).2 ?_
      rcases List.mem_cons.1 hr with rfl | hr
      · exact .inr rfl
      · exact .inl (h₁.sound.candidates_live r hr)
    · rw [htarget]
      exact h₁.fix
    · rw [htarget] at hr ⊢
      refine (register_formed h₁.formed).2.mem_iff.2 (List.mem_cons.2 ?_)
      rcases (addValue_isSome s₁ g r).1 hr with hr | rfl
      · exact .inr (h₁.listed r hr)
      · exact .inl rfl
    · rw [htarget]
      exact h₁.hostKinds
    · rw [htarget]
      exact (register_formed h₁.formed).1
    · rw [htarget] at hr ⊢
      rcases hcreated.held hlive₁ hr with hr | hr
      · exact Nat.lt_succ_of_lt (h₁.known r hr)
      · exact hsound.bounded r hr
  refine ⟨_, hready, hm₁.trans ⟨fun r hr => ?_, fun r hr => ?_, fun r hr => ?_, fun f hmem => .inl ⟨f, ?_, rfl⟩,
    fun hcomp => ⟨fun r hr h1 h2 => ?_, ?_⟩⟩⟩
  · rw [htarget]
    exact (addValue_isSome s₁ g r).2 (.inl hr)
  · rw [htarget] at hr ⊢
    exact hcreated.held hlive₁ hr
  · rw [htarget] at hr ⊢
    rcases List.mem_append.1 (show some r ∈ s₁.stack ++ [some s₁.values.nextId] from hr) with hr | hr
    · exact .inl hr
    · rw [Option.some.inj (List.mem_singleton.1 hr)]
      exact .inr ((addValue_isSome s₁ g _).2 (.inr rfl))
  · rw [htarget] at hmem
    exact hmem
  · rw [htarget] at hr h1 h2
    rcases (addValue_isSome s₁ g r).1 hr with hr | rfl
    · by_cases hne : r = s₁.values.nextId
      · exact List.mem_cons.2 (.inl hne)
      · refine List.mem_cons_of_mem _ (hcomp.zeros r hr ?_ ?_)
        · rw [← hcreated.refCount (.value r) (by simpa using hne)]
          exact h1
        · rw [← hcreated.refCount (.external r) (by simpa using hne)]
          exact h2
    · exact List.mem_cons_self
  · rw [htarget]
    show c₂.count = _
    rw [hreg.count, hcomp.count, List.length_cons]

/-! ## Programs -/

def State.addProgram (s : State) (strings : List Ref) : State :=
  { s.setProgramAt s.nextProgram (some strings) with
    refCount := Function.update s.refCount (.program s.nextProgram) 1
    nextProgram := s.nextProgram + 1
    host := .program s.nextProgram :: s.host }

theorem addProgram_program_self (s : State) (strings : List Ref) :
    (s.addProgram strings).program s.nextProgram = some strings := Function.update_self ..

theorem addProgram_program_ne {p : ProgramRef} (strings : List Ref) (hp : p ≠ s.nextProgram) :
    (s.addProgram strings).program p = s.program p := Function.update_of_ne hp _ _

theorem addProgram_isSome (s : State) (strings : List Ref) (p : ProgramRef) :
    ((s.addProgram strings).program p).isSome ↔ (s.program p).isSome ∨ p = s.nextProgram := by
  by_cases hp : p = s.nextProgram
  · rw [hp, addProgram_program_self]
    exact ⟨fun _ => .inr rfl, fun _ => rfl⟩
  · rw [addProgram_program_ne strings hp]
    exact ⟨.inl, fun h => h.resolve_right hp⟩

theorem addProgram_objects (s : State) (strings : List Ref) :
    (s.addProgram strings).objects.Perm (.program s.nextProgram :: s.objects) := by
  show (_ ++ _ ++ (List.range (s.nextProgram + 1)).map Obj.program).Perm _
  rw [List.range_succ, List.map_append, ← List.append_assoc]
  exact List.perm_append_singleton _ _

theorem addProgram_created {strings : List Ref} (h : Ready s E (earn 0 (strings.map .external)) cs) :
    Created s (s.addProgram strings) (· = .program s.nextProgram) (strings.map .external) := by
  have hnew : ¬ s.Live (.program s.nextProgram) := fun hl => Nat.lt_irrefl _ (h.sound.bounded_program _ hl)
  have howned : ∀ o, (s.addProgram strings).owned o = 
      s.owned o + (strings.map Obj.external ++ [Obj.program s.nextProgram]).count o := by
    intro o
    have hcreate := owned_create (s := s) (t := s.addProgram strings) (h := .program s.nextProgram)
      [.program s.nextProgram] (addProgram_objects s strings) (fun q hq => ?_) (fun q => ?_) o
    · have hself : (s.addProgram strings).holds (.program s.nextProgram) = strings.map .external := by
        simp only [holds, addProgram_program_self, Option.elim_some]
      rw [hself] at hcreate
      exact hcreate
    · cases q with
      | program q =>
        have hne : q ≠ s.nextProgram := Nat.ne_of_lt ((mem_objects (.program q)).1 hq)
        simp only [holds, addProgram_program_ne strings hne]
      | _ => rfl
    · show (Root.all.flatMap (fun i => holding (s.root i)) ++ s.callStack.flatMap StackFunction.held ++
        Obj.program s.nextProgram :: s.host).count q = _
      simp only [State.outside, List.count_append, List.count_cons, List.count_nil]
      omega
  refine ⟨fun o => ?_, fun o ho => Function.update_of_ne ho _ _, fun o ho => ?_, fun o ho => ?_⟩
  · cases o with
    | program p =>
      rw [live_program, live_program, addProgram_isSome]
      simp only [Obj.program.injEq]
    | _ => exact ⟨.inl, fun h => h.elim id (by rintro ⟨⟩)⟩
  · rw [howned, List.count_append, List.count_singleton, if_neg (by simpa using fun h => ho h.symm), Nat.add_zero]
  · have hzero : s.owned o = 0 := by
      rw [ho]
      exact Nat.eq_zero_of_not_pos fun hpos => hnew (h.sound.rooted _ id hpos)
    have hcount : (strings.map Obj.external).count o = 0 := by
      rw [ho]
      refine List.count_eq_zero_of_not_mem fun hmem => ?_
      obtain ⟨r, -, hr⟩ := List.mem_map.1 hmem
      cases hr
    rw [howned, hzero, List.count_append, hcount, ho, List.count_singleton_self]
    exact Function.update_self ..

theorem compile_keeps {strings : List Ref} (h : Ready s E 0 cs) (ht : s.compile strings = some t) : Keeps s t E cs := by
  unfold compile at ht
  obtain ⟨s₁, hs₁, ht⟩ := Option.bind_eq_some_iff.1 ht
  have ht' : s₁.addProgram strings = t := Option.some.inj ht
  subst ht'
  obtain ⟨h₁, hm₁, hlive, hframe⟩ := Ready.retainAll _ _ _ _ h hs₁
  have hlive₁ : ∀ o ∈ strings.map Obj.external, s₁.Live o := fun o ho => by
    rw [hframe]
    exact hlive o ho
  have hc := addProgram_created h₁
  have hne : ∀ r, ¬ Obj.value r = .program s₁.nextProgram := by rintro r ⟨⟩
  have hne' : ∀ r, ¬ Obj.external r = .program s₁.nextProgram := by rintro r ⟨⟩
  refine ⟨cs, ⟨⟨h₁.sound.bounded, h₁.sound.bounded_locals, fun p hp => ?_, h₁.sound.nodup, h₁.sound.ordered, h₁.sound.lineage,
    hc.balanced h₁.sound, hc.exactly h₁.sound, h₁.sound.exact_others, zero_nonneg, hc.rooted h₁.sound hlive₁, fun l hl => ?_,
    h₁.sound.candidates, h₁.sound.candidates_live, h₁.sound.steps⟩, h₁.fix, h₁.listed, fun o ho => ?_, h₁.formed, fun r hr => ?_⟩,
    hm₁.trans ⟨fun _ hr => hr, fun r hr => hc.held hlive₁ hr, fun _ hr => .inl hr, fun f hf => .inl ⟨f, hf, rfl⟩,
      fun hcomp => ⟨fun r hr h1 h2 => ?_, hcomp.count⟩⟩⟩
  · rcases (addProgram_isSome s₁ strings p).1 hp with hp | rfl
    · exact Nat.lt_succ_of_lt (h₁.sound.bounded_program p hp)
    · exact Nat.lt_succ_self _
  · rw [hc.refCount _ (by rintro ⟨⟩)]
    exact h₁.sound.positive l hl
  · rcases List.mem_cons.1 ho with rfl | ho
    · exact .inr ⟨_, rfl⟩
    · exact h₁.hostKinds o ho
  · rcases hc.held hlive₁ hr with hr | hr
    · exact h₁.known r hr
    · exact h₁.sound.bounded r hr
  · rw [hc.refCount _ (hne r)] at h1
    rw [hc.refCount _ (hne' r)] at h2
    exact hcomp.zeros r hr h1 h2

/-! ## Calls -/

/-- A frame with new locals, for the function of the program `prog` at `startPos`. -/
def State.addFrame (s : State) (prog : ProgramRef) (upvalue : List Bool) (parents : List LocalsRef) (func : Ref) (startPos : Nat)
    (restArguments selfForProto : Slot) : State :=
  { s.setLocalsAt s.nextLocals (some { prog := prog, upvalue := upvalue, values := .stack startPos, parents := parents }) with
    refCount := Function.update s.refCount (.locals s.nextLocals) 1
    nextLocals := s.nextLocals + 1
    callStack := s.callStack ++ [{ func := func, locals := s.nextLocals, arguments := none, restArguments := restArguments,
                                   selfForProto := selfForProto, subFuncs := [] }] }

section

variable {prog : ProgramRef} {upvalue : List Bool} {parents : List LocalsRef} {func : Ref} {startPos : Nat}
  {restArguments selfForProto : Slot}

theorem addFrame_locals_self : (s.addFrame prog upvalue parents func startPos restArguments selfForProto).locals s.nextLocals =
    some { prog := prog, upvalue := upvalue, values := .stack startPos, parents := parents } := Function.update_self ..

theorem addFrame_locals_ne {l : LocalsRef} (hl : l ≠ s.nextLocals) :
    (s.addFrame prog upvalue parents func startPos restArguments selfForProto).locals l = s.locals l :=
  Function.update_of_ne hl _ _

theorem addFrame_isSome (l : LocalsRef) :
    ((s.addFrame prog upvalue parents func startPos restArguments selfForProto).locals l).isSome ↔
      (s.locals l).isSome ∨ l = s.nextLocals := by
  by_cases hl : l = s.nextLocals
  · rw [hl, addFrame_locals_self]
    exact ⟨fun _ => .inr rfl, fun _ => rfl⟩
  · rw [addFrame_locals_ne hl]
    exact ⟨.inl, fun h => h.resolve_right hl⟩

theorem addFrame_objects : (s.addFrame prog upvalue parents func startPos restArguments selfForProto).objects.Perm
    (.locals s.nextLocals :: s.objects) := by
  show (_ ++ (List.range (s.nextLocals + 1)).map Obj.locals ++ _).Perm _
  rw [List.range_succ, List.map_append, List.map_singleton, ← List.append_assoc, List.append_assoc _ [_] _,
    List.singleton_append]
  exact List.perm_middle

def frameTaken (prog : ProgramRef) (parents : List LocalsRef) (restArguments selfForProto : Slot) : List Obj :=
  holding restArguments ++ [.program prog] ++ parents.head?.toList.map .locals ++ holding selfForProto

theorem addFrame_created (h : Ready s E (earn 0 (frameTaken prog parents restArguments selfForProto)) cs)
    (hlive : ∀ o ∈ frameTaken prog parents restArguments selfForProto, s.Live o) :
    Created s (s.addFrame prog upvalue parents func startPos restArguments selfForProto) (· = .locals s.nextLocals)
      (frameTaken prog parents restArguments selfForProto) := by
  have hnew : ¬ s.Live (.locals s.nextLocals) := fun hl => Nat.lt_irrefl _ (h.sound.bounded_locals _ hl)
  have howned : ∀ o, (s.addFrame prog upvalue parents func startPos restArguments selfForProto).owned o =
      s.owned o + (frameTaken prog parents restArguments selfForProto).count o + [Obj.locals s.nextLocals].count o := by
    intro o
    have hcreate := owned_create (s := s) (t := s.addFrame prog upvalue parents func startPos restArguments selfForProto)
      (h := .locals s.nextLocals) (.locals s.nextLocals :: (holding restArguments ++ holding selfForProto))
      addFrame_objects (fun q hq => ?_) (fun q => ?_) o
    · have hself : (s.addFrame prog upvalue parents func startPos restArguments selfForProto).holds (.locals s.nextLocals) =
          .program prog :: (parents.head?.toList.map .locals ++ []) := by
        simp only [holds, addFrame_locals_self, Option.elim_some, Locals.held, Locals.heapValues, holdingAll, List.flatMap_nil]
      rw [hself] at hcreate
      simp only [frameTaken, List.count_append, List.count_cons, List.count_nil] at hcreate ⊢
      omega
    · cases q with
      | locals q =>
        have hne : q ≠ s.nextLocals := Nat.ne_of_lt ((mem_objects (.locals q)).1 hq)
        simp only [holds, addFrame_locals_ne hne]
      | _ => rfl
    · show (Root.all.flatMap (fun i => holding (s.root i)) ++ (s.callStack ++ [_]).flatMap StackFunction.held ++
        s.host).count q = _
      rw [List.flatMap_append, List.flatMap_singleton]
      simp only [State.outside, StackFunction.held, holding, holdingAll, Option.toList_none, List.map_nil, List.flatMap_nil,
        List.nil_append, List.append_nil, List.count_append, List.count_cons]
      omega
  refine ⟨fun o => ?_, fun o ho => Function.update_of_ne ho _ _, fun o ho => ?_, fun o ho => ?_⟩
  · cases o with
    | locals l =>
      rw [live_locals, live_locals, addFrame_isSome]
      simp only [Obj.locals.injEq]
    | _ => exact ⟨.inl, fun h => h.elim id (by rintro ⟨⟩)⟩
  · rw [howned, List.count_singleton, if_neg (by simpa using fun h => ho h.symm), Nat.add_zero]
  · have hzero : s.owned o = 0 := by
      rw [ho]
      exact Nat.eq_zero_of_not_pos fun hpos => hnew (h.sound.rooted _ id hpos)
    have hcount : (frameTaken prog parents restArguments selfForProto).count o = 0 := by
      rw [ho]
      exact List.count_eq_zero_of_not_mem fun hmem => hnew (hlive _ hmem)
    rw [howned, hzero, hcount, ho, List.count_singleton_self]
    exact Function.update_self ..

theorem addFrame_keeps (h : Ready s E (earn 0 (frameTaken prog parents restArguments selfForProto)) cs)
    (hlive : ∀ o ∈ frameTaken prog parents restArguments selfForProto, s.Live o) (hfunc : (s.value func).isSome)
    (hparents : ∀ p ps, parents = p :: ps → ∃ lp, s.locals p = some lp ∧ lp.parents = ps) :
    Keeps s (s.addFrame prog upvalue parents func startPos restArguments selfForProto) E cs := by
  have hc : Created s (s.addFrame prog upvalue parents func startPos restArguments selfForProto) (· = .locals s.nextLocals)
      (frameTaken prog parents restArguments selfForProto) := addFrame_created h hlive
  have hne : ∀ {p lp}, s.locals p = some lp → p ≠ s.nextLocals := fun hp =>
    Nat.ne_of_lt (h.sound.bounded_locals _ (Option.isSome_of_eq_some hp))
  refine ⟨cs, ⟨⟨h.sound.bounded, fun l hl => ?_, h.sound.bounded_program, h.sound.nodup, h.sound.ordered, fun l loc hl p ps hp => ?_,
    hc.balanced h.sound, hc.exactly h.sound, h.sound.exact_others, zero_nonneg, hc.rooted h.sound hlive, fun l hl => ?_,
    h.sound.candidates, h.sound.candidates_live, h.sound.steps⟩, h.fix, h.listed, h.hostKinds, h.formed, fun r hr => ?_⟩,
    ⟨fun _ hr => hr, fun r hr => hc.held hlive hr, fun _ hr => .inl hr, fun f hmem => ?_,
      fun hcomp => ⟨fun r hr h1 h2 => ?_, hcomp.count⟩⟩⟩
  · rcases (addFrame_isSome l).1 hl with hl | rfl
    · exact Nat.lt_succ_of_lt (h.sound.bounded_locals l hl)
    · exact Nat.lt_succ_self _
  · have hparent : ∃ lp, s.locals p = some lp ∧ lp.parents = ps := by
      by_cases hln : l = s.nextLocals
      · rw [hln, addFrame_locals_self] at hl
        obtain rfl := Option.some.inj hl
        exact hparents p ps hp
      · rw [addFrame_locals_ne hln] at hl
        exact h.sound.lineage l loc hl p ps hp
    obtain ⟨lp, hlp, hps⟩ := hparent
    exact ⟨lp, (addFrame_locals_ne (hne hlp)).trans hlp, hps⟩
  · by_cases hln : l = s.nextLocals
    · have hone : (s.addFrame prog upvalue parents func startPos restArguments selfForProto).refCount (.locals l) = 1 := by
        rw [hln]
        exact Function.update_self ..
      rw [hone]
      decide
    · rw [hc.refCount _ (by simpa using hln)]
      exact h.sound.positive l (((addFrame_isSome l).1 hl).resolve_right hln)
  · rcases hc.held hlive hr with hr | hr
    · exact h.known r hr
    · exact h.sound.bounded r hr
  · rcases List.mem_append.1 (show f ∈ s.callStack ++ [_] from hmem) with hmem | hmem
    · exact .inl ⟨f, hmem, rfl⟩
    · rw [List.mem_singleton.1 hmem]
      exact .inr hfunc
  · rw [hc.refCount _ (by rintro ⟨⟩)] at h1 h2
    exact hcomp.zeros r hr h1 h2

end

end Gc
end ObjectScript
