import ObjectScript.Gc.Operations
import ObjectScript.Gc.Collection
/-!
# What an operation is made of

Every operation between two collections is a sequence of a few moves: references are given back (`releaseAll`), taken
(`retainAll`), put from one place into another (`exchange`), and objects are created.  A move keeps a core `Ready` and
takes or gives the credit; no value that is there goes, and nothing is held afterwards that was not held before or is
there (`Moved`).
-/
namespace ObjectScript
namespace Gc

open ObjectScript.Core (Ref)
open State

variable {s t u : State} {E : Obj → Prop} {c d : Obj → Int} {cs ds es : List Ref}

/-- **What a move between two collections does not harm.** -/
structure Moved (s t : State) (cs ds : List Ref) : Prop where
  live : ∀ r, (s.value r).isSome → (t.value r).isSome
  held : ∀ r, 0 < t.owned (.value r) → 0 < s.owned (.value r) ∨ (t.value r).isSome
  stack : ∀ r, some r ∈ t.stack → some r ∈ s.stack ∨ (t.value r).isSome
  frames : ∀ f ∈ t.callStack, (∃ f' ∈ s.callStack, f'.func = f.func) ∨ (t.value f.func).isSome
  complete : Complete s cs → Complete t ds

namespace Moved

theorem refl (s : State) (cs : List Ref) : Moved s s cs cs :=
  ⟨fun _ h => h, fun _ h => Or.inl h, fun _ h => Or.inl h, fun f hf => Or.inl ⟨f, hf, rfl⟩, id⟩

theorem trans (h : Moved s t cs ds) (h' : Moved t u ds es) : Moved s u cs es := by
  refine ⟨fun r hr => h'.live r (h.live r hr), fun r hr => ?_, fun r hr => ?_, fun f hf => ?_,
    fun hc => h'.complete (h.complete hc)⟩
  · rcases h'.held r hr with hr | hr
    · exact (h.held r hr).imp_right (h'.live r)
    · exact Or.inr hr
  · rcases h'.stack r hr with hr | hr
    · exact (h.stack r hr).imp_right (h'.live r)
    · exact Or.inr hr
  · rcases h'.frames f hf with ⟨f', hf', heq⟩ | hlive
    · rcases h.frames f' hf' with ⟨f'', hf'', heq'⟩ | hlive
      · exact Or.inl ⟨f'', hf'', heq'.trans heq⟩
      · rw [heq] at hlive
        exact Or.inr (h'.live _ hlive)
    · exact Or.inr hlive

/-- **No reference to a value that is not there comes up.** -/
theorem closed (h : Moved s t cs ds) (hc : Closed s) : Closed t := by
  refine ⟨fun r hr => (h.held r hr).elim (fun hr => h.live r (hc.values r hr)) id,
    fun r hr => (h.stack r hr).elim (fun hr => h.live r (hc.stack r hr)) id, fun f hf => ?_⟩
  rcases h.frames f hf with ⟨f', hf', heq⟩ | hlive
  · rw [← heq]
    exact h.live _ (hc.frames f' hf')
  · exact hlive

end Moved

/-! ## Giving back -/

theorem Ready.releaseAll {os : List Obj} (h : Ready s E c cs) (hc : ∀ o, (os.count o : Int) ≤ c o)
    (hr : os.foldlM release s = some t) : ∃ ds, Ready t E (spend c os) ds ∧ Moved s t cs ds ∧ t.value = s.value := by
  obtain ⟨ds, heff, hsound⟩ := releaseAll_released h.sound hc hr
  have hs : Sound t E (spend c os) ds := hsound.weaken
    (fun o ho => ⟨ho, fun hsk => not_skipped_of_not_fix h.fix o hsk.1⟩) h.sound.exact_others
  refine ⟨ds, ⟨hs, heff.gcFixInProgress.trans h.fix, fun r hr => ?_, ?_, ?_, fun r hr => ?_⟩,
    ⟨fun r hr => ?_, fun r hr => Or.inl (Nat.lt_of_lt_of_le hr (heff.owned_le _)), fun r hr => Or.inl ?_, fun f hm => Or.inl ⟨f, ?_, rfl⟩,
      fun hcomp => hcomp.effect heff⟩, heff.value⟩
  · rw [heff.value] at hr
    rw [heff.values]
    exact h.listed r hr
  · intro o ho
    rw [heff.host] at ho
    exact h.hostKinds o ho
  · rw [heff.values]
    exact h.formed
  · rw [heff.values]
    exact h.known r (Nat.lt_of_lt_of_le hr (heff.owned_le _))
  · rw [heff.value]
    exact hr
  · rw [← heff.stack]
    exact hr
  · rw [← heff.callStack]
    exact hm

theorem Ready.release {o : Obj} (h : Ready s E c cs) (hc : 1 ≤ c o) (hr : s.release o = some t) :
    ∃ ds, Ready t E (spend c [o]) ds ∧ Moved s t cs ds ∧ t.value = s.value := by
  have hrun : [o].foldlM State.release s = some t := by simp [hr]
  refine h.releaseAll (fun q => ?_) hrun
  have := h.sound.credit q
  rw [List.count_singleton]
  by_cases hq : o = q
  · subst hq
    simpa using hc
  · simpa [hq] using this

theorem releaseSlot_eq (s : State) (v : Slot) : s.releaseSlot v = (holding v).foldlM release s := by
  cases v with
  | none => rfl
  | some r => simp [releaseSlot, holding, State.release]

/-! ## Taking -/

theorem earn_nil (c : Obj → Int) : earn c [] = c := by
  funext o
  simp [earn]

theorem earn_append (c : Obj → Int) (os ps : List Obj) : earn c (os ++ ps) = earn (earn c os) ps := by
  funext o
  simp only [earn, List.count_append]
  omega

theorem refCount_incr (s : State) (o q : Obj) : (s.incr o).refCount q = s.refCount q + if q = o then 1 else 0 := by
  by_cases hq : q = o
  · subst hq
    rw [if_pos rfl]
    exact Function.update_self ..
  · rw [if_neg hq, Int.add_zero]
    exact Function.update_of_ne hq _ _

theorem earn_single (c : Obj → Int) (o q : Obj) : earn c [o] q = c q + if q = o then 1 else 0 := by
  unfold earn
  by_cases hq : q = o
  · subst hq
    simp
  · have hq' : o ≠ q := fun h => hq h.symm
    simp [hq, hq']

theorem Sound.incr (h : Sound s E c cs) (o : Obj) : Sound (s.incr o) E (earn c [o]) cs := by
  refine ⟨h.bounded, h.bounded_locals, h.bounded_program, h.nodup, h.ordered, h.lineage, fun q hq => ?_, fun q hq hE => ?_,
    h.exact_others, fun q => ?_, h.rooted, fun l hl => ?_, h.candidates, h.candidates_live, h.steps⟩
  · have h1 := h.balanced q hq
    have h2 : (s.incr o).owned q = s.owned q := rfl
    rw [refCount_incr, earn_single, h2]
    omega
  · have h1 := h.exact q hq hE
    have h2 : (s.incr o).owned q = s.owned q := rfl
    rw [refCount_incr, earn_single, h2]
    omega
  · have := h.credit q
    rw [earn_single]
    split <;> omega
  · have := h.positive l hl
    rw [refCount_incr]
    split <;> omega

theorem Ready.incr (h : Ready s E c cs) (o : Obj) : Ready (s.incr o) E (earn c [o]) cs :=
  ⟨h.sound.incr o, h.fix, h.listed, h.hostKinds, h.formed, h.known⟩

/-- A counter that goes up is not zero: the credit is no less than the zero it was. -/
theorem Moved.incr (h : Sound s E c cs) (o : Obj) : Moved s (s.incr o) cs cs := by
  refine ⟨fun _ h => h, fun _ h => Or.inl h, fun _ h => Or.inl h, fun f hf => Or.inl ⟨f, hf, rfl⟩,
    fun hc => ⟨fun r hr h1 h2 => ?_, hc.count⟩⟩
  have hb1 := h.balanced (.value r) hr
  have hb2 := h.balanced (.external r) hr
  have hc1 := h.credit (.value r)
  have hc2 := h.credit (.external r)
  rw [refCount_incr] at h1 h2
  exact hc.zeros r hr (by split at h1 <;> omega) (by split at h2 <;> omega)

theorem Ready.retainAll : ∀ (os : List Obj) (s t : State) (c : Obj → Int), Ready s E c cs → os.foldlM retain s = some t →
    Ready t E (earn c os) cs ∧ Moved s t cs cs ∧ (∀ o ∈ os, s.Live o) ∧ t = { s with refCount := t.refCount }
  | [], s, t, c, h, hr => by
    obtain rfl := Option.some.inj hr
    rw [earn_nil]
    exact ⟨h, .refl _ _, by simp, rfl⟩
  | o :: os, s, t, c, h, hr => by
    rw [List.foldlM_cons] at hr
    obtain ⟨v, hv, hr⟩ := Option.bind_eq_some_iff.1 hr
    unfold retain at hv
    split at hv
    · rename_i hlive
      obtain rfl := Option.some.inj hv
      obtain ⟨hrt, hmt, hlt, hft⟩ := Ready.retainAll os _ t _ (h.incr o) hr
      have hearn : earn c (o :: os) = earn (earn c [o]) os := earn_append c [o] os
      refine ⟨hearn ▸ hrt, (Moved.incr h.sound o).trans hmt, fun q hq => ?_, hft⟩
      rcases List.mem_cons.1 hq with rfl | hq
      · exact hlive
      · exact hlt q hq
    · cases hv

theorem retainSlot_eq (s : State) (v : Slot) : s.retainSlot v = (holding v).foldlM retain s := by
  cases v with
  | none => rfl
  | some r => simp [retainSlot, retainValue, holding, retain, State.Live]

theorem foldlM_retainSlot (vs : List Slot) (s : State) : vs.foldlM retainSlot s = (holdingAll vs).foldlM retain s := by
  induction vs generalizing s with
  | nil => rfl
  | cons v vs ih =>
    have hall : holdingAll (v :: vs) = holding v ++ holdingAll vs := rfl
    rw [hall, List.foldlM_cons, List.foldlM_append, retainSlot_eq]
    exact congrArg _ (funext ih)

theorem Ready.retainSlot {v : Slot} (h : Ready s E c cs) (hr : s.retainSlot v = some t) :
    Ready t E (earn c (holding v)) cs ∧ Moved s t cs cs ∧ (∀ o ∈ holding v, s.Live o) ∧ t = { s with refCount := t.refCount } := by
  rw [retainSlot_eq] at hr
  exact Ready.retainAll _ s t c h hr

/-! ## Exchanging -/

/-- **The references `gone` are taken out of the places of `s`, and `new` are put in.** -/
structure Exchanged (s t : State) (gone new : List Obj) : Prop where
  frame : t = { s with value := t.value, locals := t.locals, callStack := t.callStack, root := t.root, host := t.host }
  value : ∀ r, (t.value r).isSome = (s.value r).isSome
  parents : ∀ l, (t.locals l).map Locals.parents = (s.locals l).map Locals.parents
  frames : ∀ f ∈ t.callStack, ∃ f' ∈ s.callStack, f'.func = f.func
  host : HostKinds s → HostKinds t
  owned : ∀ o, t.owned o + gone.count o = s.owned o + new.count o

namespace Exchanged

variable {gone new gone' new' : List Obj}

theorem congr (h : Exchanged s t gone new) (hcount : ∀ o, gone'.count o + new.count o = gone.count o + new'.count o) :
    Exchanged s t gone' new' := by
  refine ⟨h.frame, h.value, h.parents, h.frames, h.host, fun o => ?_⟩
  have h1 := h.owned o
  have h2 := hcount o
  omega

theorem locals_isSome (h : Exchanged s t gone new) (l : LocalsRef) : (t.locals l).isSome = (s.locals l).isSome := by
  have hl := congrArg Option.isSome (h.parents l)
  rwa [Option.isSome_map, Option.isSome_map] at hl

theorem live (h : Exchanged s t gone new) (o : Obj) : t.Live o ↔ s.Live o := by
  have hframe := h.frame
  cases o with
  | value r => rw [live_value, live_value, h.value]
  | external r => rw [live_external, live_external, h.value]
  | locals l => rw [live_locals, live_locals, h.locals_isSome]
  | program p =>
    rw [hframe]
    exact Iff.rfl

theorem held (h : Exchanged s t gone new) {o : Obj} (ho : 0 < t.owned o) : 0 < s.owned o ∨ o ∈ new := by
  by_cases hmem : o ∈ new
  · exact .inr hmem
  · have howned := h.owned o
    rw [List.count_eq_zero_of_not_mem hmem] at howned
    exact .inl (by omega)

theorem lineage (h : Exchanged s t gone new)
    (hs : ∀ l loc, s.locals l = some loc → ∀ p ps, loc.parents = p :: ps → ∃ lp, s.locals p = some lp ∧ lp.parents = ps)
    (l : LocalsRef) (loc : Locals) (hl : t.locals l = some loc) (p : LocalsRef) (ps : List LocalsRef)
    (hp : loc.parents = p :: ps) : ∃ lp, t.locals p = some lp ∧ lp.parents = ps := by
  have hparents := h.parents l
  rw [hl, Option.map_some] at hparents
  obtain ⟨loc', hl', hp'⟩ := Option.map_eq_some_iff.1 hparents.symm
  obtain ⟨lp, hlp, hps⟩ := hs l loc' hl' p ps (hp'.trans hp)
  have hparents' := h.parents p
  rw [hlp, Option.map_some] at hparents'
  obtain ⟨lp', hlp', hps'⟩ := Option.map_eq_some_iff.1 hparents'
  exact ⟨lp', hlp', hps'.trans hps⟩

theorem sound (hx : Exchanged s t gone new) (h : Sound s E c cs) (hnew : ∀ o ∈ new, ¬ o.IsValue → s.Live o)
    (hd : ∀ o, 0 ≤ d o) (hcount : ∀ o, d o + (new.count o : Int) = c o + (gone.count o : Int)) : Sound t E d cs := by
  have hrefs : t.refCount = s.refCount := by rw [hx.frame]
  have hvalues : t.values = s.values := by rw [hx.frame]
  have hcands : t.candidates = s.candidates := by rw [hx.frame]
  have hlocals : t.nextLocals = s.nextLocals := by rw [hx.frame]
  have hprograms : t.nextProgram = s.nextProgram := by rw [hx.frame]
  have hprogram : t.program = s.program := by rw [hx.frame]
  have hsteps : t.gcStep = s.gcStep := by rw [hx.frame]
  have hstep : t.gcStepType = s.gcStepType := by rw [hx.frame]
  constructor
  · intro r hr
    rw [hvalues]
    exact h.bounded r (by rwa [hx.value] at hr)
  · intro l hl
    rw [hlocals]
    exact h.bounded_locals l (by rwa [hx.locals_isSome] at hl)
  · intro p hp
    rw [hprograms]
    rw [hprogram] at hp
    exact h.bounded_program p hp
  · rw [hvalues]
    exact h.nodup
  · intro r hr
    rw [hvalues] at hr
    rw [hx.value]
    exact h.ordered r hr
  · exact hx.lineage h.lineage
  · intro o ho
    have h1 := h.balanced o ((hx.live o).1 ho)
    have h2 := hx.owned o
    have h3 := hcount o
    rw [hrefs]
    omega
  · intro o ho hE
    have h1 := h.exact o ((hx.live o).1 ho) hE
    have h2 := hx.owned o
    have h3 := hcount o
    rw [hrefs]
    omega
  · exact h.exact_others
  · exact hd
  · intro o ho hpos
    rw [hx.live]
    rcases hx.held hpos with hs | hmem
    · exact h.rooted o ho hs
    · exact hnew o hmem ho
  · intro l hl
    rw [hrefs]
    exact h.positive l (by rwa [hx.locals_isSome] at hl)
  · rw [hcands]
    exact h.candidates
  · intro r hr
    rw [hx.value]
    exact h.candidates_live r hr
  · intro o
    rw [hsteps, hstep]
    exact h.steps o

theorem ready (hx : Exchanged s t gone new) (h : Ready s E c cs) (hnew : ∀ o ∈ new, s.Live o) (hd : ∀ o, 0 ≤ d o)
    (hcount : ∀ o, d o + (new.count o : Int) = c o + (gone.count o : Int)) : Ready t E d cs ∧ Moved s t cs cs := by
  have hvalues : t.values = s.values := by rw [hx.frame]
  have hstack : t.stack = s.stack := by rw [hx.frame]
  have hrefs : t.refCount = s.refCount := by rw [hx.frame]
  have hcands : t.candidates = s.candidates := by rw [hx.frame]
  refine ⟨⟨hx.sound h.sound (fun o ho _ => hnew o ho) hd hcount, ?_, fun r hr => ?_, hx.host h.hostKinds, ?_, fun r hr => ?_⟩,
    ⟨fun r hr => ?_, fun r hr => ?_, fun r hr => ?_, fun f hmem => Or.inl (hx.frames f hmem), fun hc => ⟨fun r hr h1 h2 => ?_, ?_⟩⟩⟩
  · rw [hx.frame]
    exact h.fix
  · rw [hvalues]
    exact h.listed r (by rwa [hx.value] at hr)
  · rw [hvalues]
    exact h.formed
  · rw [hvalues]
    rcases hx.held hr with hs | hmem
    · exact h.known r hs
    · exact h.sound.bounded r (hnew _ hmem)
  · rwa [hx.value]
  · refine (hx.held hr).imp_right fun hmem => ?_
    rw [hx.value]
    exact hnew _ hmem
  · rw [hstack] at hr
    exact .inl hr
  · rw [hx.value] at hr
    rw [hrefs] at h1 h2
    exact hc.zeros r hr h1 h2
  · rw [hcands]
    exact hc.count

end Exchanged

theorem exchanged_value {r : Ref} {g g' : GCValue} (hr : s.value r = some g) (hlt : r < s.values.nextId) :
    Exchanged s (s.setValueAt r (some g')) g.held g'.held := by
  have hself : (s.setValueAt r (some g')).value r = some g' := Function.update_self ..
  have hother : ∀ q, q ≠ r → (s.setValueAt r (some g')).value q = s.value q := fun q hq => Function.update_of_ne hq _ _
  refine ⟨rfl, fun q => ?_, fun _ => rfl, fun f hf => ⟨f, hf, rfl⟩, id, fun o => ?_⟩
  · by_cases hq : q = r
    · subst hq
      rw [hself, hr]
      rfl
    · rw [hother q hq]
  · have howned := owned_setValueAt hlt (some g') o
    rwa [hr] at howned

theorem exchanged_locals {l : LocalsRef} {loc loc' : Locals} (hl : s.locals l = some loc) (hlt : l < s.nextLocals)
    (hparents : loc'.parents = loc.parents) : Exchanged s (s.setLocalsAt l (some loc')) loc.held loc'.held := by
  have hself : (s.setLocalsAt l (some loc')).locals l = some loc' := Function.update_self ..
  have hother : ∀ q, q ≠ l → (s.setLocalsAt l (some loc')).locals q = s.locals q := fun q hq => Function.update_of_ne hq _ _
  refine ⟨rfl, fun _ => rfl, fun q => ?_, fun f hf => ⟨f, hf, rfl⟩, id, fun o => ?_⟩
  · by_cases hq : q = l
    · subst hq
      rw [hself, hl, Option.map_some, Option.map_some, hparents]
    · rw [hother q hq]
  · have howned := owned_update (s := s) (t := s.setLocalsAt l (some loc')) (h := .locals l) ((mem_objects _).2 hlt) rfl
      (fun q hq => ?_) rfl o
    · simpa only [holds, hself, hl, Option.elim_some] using howned
    · cases q with
      | locals q =>
        have hne : q ≠ l := by
          rintro rfl
          exact hq rfl
        simp only [holds, hother q hne]
      | _ => rfl

theorem owned_outside {s t : State} (ho : t.objects = s.objects) (hh : t.holds = s.holds) (o : Obj) :
    t.owned o + s.outside.count o = s.owned o + t.outside.count o := by
  rw [owned, owned, ho, hh]
  omega

theorem exchanged_root (s : State) (i : Root) (v : Slot) :
    Exchanged s { s with root := Function.update s.root i v } (holding (s.root i)) (holding v) := by
  refine ⟨rfl, fun _ => rfl, fun _ => rfl, fun f hf => ⟨f, hf, rfl⟩, id, fun o => ?_⟩
  have hmem : i ∈ Root.all := by
    cases i with
    | prototype p => cases p <;> decide
    | _ => decide
  have htally := Tally.tally_update (show Root.all.Nodup by decide) hmem (fun j => holding (s.root j)) (holding v) o
  have hfun : (fun j => holding (Function.update s.root i v j)) =
      Function.update (fun j => holding (s.root j)) i (holding v) := by
    funext j
    by_cases hj : j = i
    · subst hj
      rw [Function.update_self, Function.update_self]
    · rw [Function.update_of_ne hj, Function.update_of_ne hj]
  have howned := owned_outside (s := s) (t := { s with root := Function.update s.root i v }) rfl rfl o
  rw [← hfun] at htally
  simp only [outside, List.count_append, Tally.tally] at howned htally
  omega

theorem exchanged_frames {fs : List StackFunction} (hfs : ∀ f ∈ fs, ∃ f' ∈ s.callStack, f'.func = f.func) :
    Exchanged s { s with callStack := fs } (s.callStack.flatMap StackFunction.held) (fs.flatMap StackFunction.held) := by
  refine ⟨rfl, fun _ => rfl, fun _ => rfl, hfs, id, fun o => ?_⟩
  have howned := owned_outside (s := s) (t := { s with callStack := fs }) rfl rfl o
  simp only [outside, List.count_append] at howned
  omega

theorem exchanged_host {host : List Obj} (hkinds : HostKinds s → HostKinds { s with host := host }) :
    Exchanged s { s with host := host } s.host host := by
  refine ⟨rfl, fun _ => rfl, fun _ => rfl, fun f hf => ⟨f, hf, rfl⟩, hkinds, fun o => ?_⟩
  have howned := owned_outside (s := s) (t := { s with host := host }) rfl rfl o
  simp only [outside, List.count_append] at howned
  omega

end Gc
end ObjectScript
