import ObjectScript.Gc.Places
/-!
# One operation

Every operation leaves a core ready and does no harm (`Keeps`): what it takes out of a place is given back, and what it
puts in was retained before.

There is one case for each operation of `Op`, put together from the lemmas about places, creation and release.  `Keeps`
is what `Runs` takes along a run: `Ready` after the step, and that nothing live was lost.
-/
namespace ObjectScript
namespace Gc

open ObjectScript.Core (Ref)
open State

variable {s t u : State} {E : Obj → Prop} {c d : Obj → Int} {cs ds : List Ref} {gone new : List Obj}

def Keeps (s t : State) (E : Obj → Prop) (cs : List Ref) : Prop := ∃ ds, Ready t E 0 ds ∧ Moved s t cs ds

/-! ## Credit -/

theorem earn_nonneg (hc : ∀ o, 0 ≤ c o) (os : List Obj) (o : Obj) : 0 ≤ earn c os o := by
  have h := hc o
  unfold earn
  omega

theorem count_le_earn (hc : ∀ o, 0 ≤ c o) (os : List Obj) (o : Obj) : (os.count o : Int) ≤ earn c os o := by
  have h := hc o
  unfold earn
  omega

theorem zero_nonneg (o : Obj) : 0 ≤ (0 : Obj → Int) o := Int.le_refl 0

theorem Exchanged.take (hx : Exchanged s t gone []) (h : Ready s E c cs) : Ready t E (earn c gone) cs ∧ Moved s t cs cs :=
  hx.ready h (by rintro o ⟨⟩) (earn_nonneg h.sound.credit gone) fun o => by
    rw [List.count_nil]
    simp only [earn]
    omega

theorem Exchanged.give (hx : Exchanged s t [] new) (h : Ready s E (earn c new) cs) (hc : ∀ o, 0 ≤ c o)
    (hnew : ∀ o ∈ new, s.Live o) : Ready t E c cs ∧ Moved s t cs cs :=
  hx.ready h hnew hc fun o => by
    rw [List.count_nil]
    simp only [earn]
    omega

theorem Ready.giveBack {os : List Obj} (h : Ready s E (earn 0 os) cs) (hr : os.foldlM State.release s = some t) :
    ∃ ds, Ready t E 0 ds ∧ Moved s t cs ds ∧ t.value = s.value := by
  obtain ⟨ds, hready, hmoved, hvalue⟩ := h.releaseAll (count_le_earn zero_nonneg os) hr
  rw [spend_earn] at hready
  exact ⟨ds, hready, hmoved, hvalue⟩

/-! ## The frame of a count -/

theorem addFreeCandidateValue_frame {r : Ref} (h : s.addFreeCandidateValue r = some t) :
    t = { s with gcStep := t.gcStep, candidates := t.candidates } := by
  unfold addFreeCandidateValue at h
  obtain ⟨o, -, h⟩ := Option.bind_eq_some_iff.1 h
  cases o with
  | none =>
    obtain ⟨c₁, -, h⟩ := Option.bind_eq_some_iff.1 h
    obtain ⟨c₂, -, h⟩ := Option.bind_eq_some_iff.1 h
    obtain rfl := Option.some.inj h
    rfl
  | some q =>
    obtain rfl := Option.some.inj h
    rfl

theorem releaseSlot_frame {v : Slot} (h : s.releaseSlot v = some t) :
    t = { s with refCount := t.refCount, gcStep := t.gcStep, candidates := t.candidates } := by
  cases v with
  | none =>
    obtain rfl := Option.some.inj h
    rfl
  | some r =>
    unfold releaseSlot releaseValue at h
    dsimp only at h
    split at h
    · split at h
      · obtain rfl := Option.some.inj h
        rfl
      · split at h
        · rw [addFreeCandidateValue_frame h]
          rfl
        · obtain rfl := Option.some.inj h
          rfl
    · cases h

theorem foldlM_retain_frame : ∀ {os : List Obj} {s t : State}, os.foldlM retain s = some t →
    t = { s with refCount := t.refCount }
  | [], s, t, h => by
    obtain rfl := Option.some.inj h
    rfl
  | o :: os, s, t, h => by
    rw [List.foldlM_cons] at h
    obtain ⟨u, hu, h⟩ := Option.bind_eq_some_iff.1 h
    unfold retain at hu
    split at hu
    · obtain rfl := Option.some.inj hu
      rw [foldlM_retain_frame h]
      rfl
    · cases hu

/-! ## Places -/

theorem setStack_keeps {stack : List Slot} (h : Ready s E 0 cs) (ht : s.setStack stack = some t) : Keeps s t E cs := by
  unfold setStack at ht
  split at ht
  · rename_i hlive
    obtain rfl := Option.some.inj ht
    refine ⟨cs, ⟨⟨h.sound.bounded, h.sound.bounded_locals, h.sound.bounded_program, h.sound.nodup, h.sound.ordered,
      h.sound.lineage, h.sound.balanced, h.sound.exact, h.sound.exact_others, h.sound.credit, h.sound.rooted, h.sound.positive,
      h.sound.candidates, h.sound.candidates_live, h.sound.steps⟩, h.fix, h.listed, h.hostKinds, h.formed, h.known⟩,
      ⟨fun _ hr => hr, fun _ hr => .inl hr, fun r hr => .inr ?_, fun f hf => .inl ⟨f, hf, rfl⟩,
        fun hc => ⟨hc.zeros, hc.count⟩⟩⟩
    have hall := List.all_eq_true.1 hlive _ hr
    exact hall
  · cases ht

theorem setValue_keeps {place : Place} {b : Slot} (h : Ready s E 0 cs) (ht : s.setValue place b = some t) : Keeps s t E cs := by
  unfold setValue at ht
  obtain ⟨out, hout, ht⟩ := Option.bind_eq_some_iff.1 ht
  split at ht
  · obtain rfl := Option.some.inj ht
    exact ⟨cs, h, .refl _ _⟩
  · obtain ⟨s₂, hs₂, ht⟩ := Option.bind_eq_some_iff.1 ht
    obtain ⟨s₃, hs₃, ht⟩ := Option.bind_eq_some_iff.1 ht
    obtain rfl := Option.some.inj ht
    obtain ⟨h₁, hm₁⟩ := (exchanged_putPlace h.sound hout none).take h
    have hback := hs₂
    rw [releaseSlot_eq] at hback
    obtain ⟨ds, h₂, hm₂, -⟩ := h₁.giveBack hback
    obtain ⟨h₃, hm₃, hlive, hframe₃⟩ := h₂.retainSlot hs₃
    have hframe₂ := releaseSlot_frame hs₂
    have hplace : s₃.getPlace place = some none := by
      rw [getPlace_congr (s := s₂) place (by rw [hframe₃]) (by rw [hframe₃]) (by rw [hframe₃]) (by rw [hframe₃]),
        getPlace_congr (s := s.putPlace none place) place (by rw [hframe₂]) (by rw [hframe₂]) (by rw [hframe₂])
          (by rw [hframe₂])]
      exact getPlace_putPlace hout none
    obtain ⟨h₄, hm₄⟩ := (exchanged_putPlace h₃.sound hplace b).give h₃ zero_nonneg fun o ho => by
      rw [hframe₃]
      exact hlive o ho
    exact ⟨ds, h₄, hm₁.trans (hm₂.trans (hm₃.trans hm₄))⟩

/-! ## Properties and elements -/

theorem exchanged_setTable (h : Sound s E c cs) {r : Ref} {g : GCValue} (hg : s.value r = some g)
    {table : List (Slot × Slot)} (hcount : ∀ o, (table.flatMap propertyHeld).count o + gone.count o =
      (g.table.flatMap propertyHeld).count o + new.count o) : Exchanged s (s.setTable r table) gone new := by
  have hlive : (s.value r).isSome := Option.isSome_of_eq_some hg
  rw [setTable, hg, Option.map_some]
  refine (exchanged_value hg (h.bounded r hlive)).congr fun o => ?_
  have h₁ := hcount o
  rw [GCValue.count_held, GCValue.count_held]
  dsimp only
  omega

theorem exchanged_setElements (h : Sound s E c cs) {r : Ref} {old values : List Slot} (hr : s.elements r = some old)
    (hcount : ∀ o, (holdingAll values).count o + gone.count o = (holdingAll old).count o + new.count o) :
    Exchanged s (s.setElements r values) gone new := by
  obtain ⟨g, hg, hold⟩ := Option.bind_eq_some_iff.1 hr
  have hlive : (s.value r).isSome := Option.isSome_of_eq_some hg
  cases hp : g.payload with
  | array values' =>
    simp only [hp] at hold
    obtain rfl := Option.some.inj hold
    rw [setElements, hg, Option.map_some]
    refine (exchanged_value hg (h.bounded r hlive)).congr fun o => ?_
    have h₁ := hcount o
    rw [GCValue.count_held, GCValue.count_held, hp]
    simp only [Payload.held]
    omega
  | _ => simp only [hp, reduceCtorEq] at hold

theorem addTableProperty_keeps {r : Ref} {index value : Slot} (h : Ready s E 0 cs)
    (ht : s.addTableProperty r index value = some t) : Keeps s t E cs := by
  unfold addTableProperty at ht
  obtain ⟨s₁, hs₁, ht⟩ := Option.bind_eq_some_iff.1 ht
  obtain ⟨s₂, hs₂, ht⟩ := Option.bind_eq_some_iff.1 ht
  obtain ⟨g, hg, ht⟩ := Option.bind_eq_some_iff.1 ht
  obtain rfl := Option.some.inj ht
  obtain ⟨h₁, hm₁, hlive₁, hframe₁⟩ := h.retainSlot hs₁
  obtain ⟨h₂, hm₂, hlive₂, hframe₂⟩ := h₁.retainSlot hs₂
  rw [← earn_append] at h₂
  have hx : Exchanged s₂ (s₂.setTable r (g.table ++ [(index, value)])) [] (holding index ++ holding value) := by
    refine exchanged_setTable h₂.sound hg fun o => ?_
    rw [List.flatMap_append, List.flatMap_singleton, List.count_append]
    rfl
  obtain ⟨h₃, hm₃⟩ := hx.give h₂ zero_nonneg fun o ho => by
    rw [hframe₂, hframe₁]
    rcases List.mem_append.1 ho with ho | ho
    · exact hlive₁ o ho
    · have hlive := hlive₂ o ho
      rw [hframe₁] at hlive
      exact hlive
  exact ⟨cs, h₃, hm₁.trans (hm₂.trans hm₃)⟩

theorem deleteTableProperty_keeps {r : Ref} {i : Nat} (h : Ready s E 0 cs) (ht : s.deleteTableProperty r i = some t) :
    Keeps s t E cs := by
  unfold deleteTableProperty at ht
  obtain ⟨g, hg, ht⟩ := Option.bind_eq_some_iff.1 ht
  obtain ⟨prop, hprop, ht⟩ := Option.bind_eq_some_iff.1 ht
  have hx : Exchanged s (s.setTable r (g.table.eraseIdx i)) (propertyHeld prop) [] := by
    refine exchanged_setTable h.sound hg fun o => ?_
    rw [count_flatMap_eraseIdx hprop]
    rfl
  obtain ⟨h₁, hm₁⟩ := hx.take h
  have hback : (propertyHeld prop).foldlM release (s.setTable r (g.table.eraseIdx i)) = some t := by
    obtain ⟨s₂, hs₂, ht⟩ := Option.bind_eq_some_iff.1 ht
    rw [releaseSlot_eq] at hs₂ ht
    rw [propertyHeld, List.foldlM_append, hs₂]
    exact ht
  obtain ⟨ds, h₂, hm₂, -⟩ := h₁.giveBack hback
  exact ⟨ds, h₂, hm₁.trans hm₂⟩

theorem clearTable_keeps {r : Ref} (h : Ready s E 0 cs) (ht : s.clearTable r = some t) : Keeps s t E cs := by
  unfold clearTable at ht
  obtain ⟨g, hg, ht⟩ := Option.bind_eq_some_iff.1 ht
  have hx : Exchanged s (s.setTable r []) (tableHeld g.table) [] := by
    refine exchanged_setTable h.sound hg fun o => ?_
    rw [count_tableHeld, List.flatMap_nil, List.count_nil, Nat.zero_add]
    rfl
  obtain ⟨h₁, hm₁⟩ := hx.take h
  obtain ⟨ds, h₂, hm₂, -⟩ := h₁.giveBack ht
  exact ⟨ds, h₂, hm₁.trans hm₂⟩

theorem sortTable_keeps {r : Ref} {table : List (Slot × Slot)} (h : Ready s E 0 cs) (ht : s.sortTable r table = some t) :
    Keeps s t E cs := by
  unfold sortTable at ht
  obtain ⟨g, hg, ht⟩ := Option.bind_eq_some_iff.1 ht
  split at ht
  · rename_i hperm
    obtain rfl := Option.some.inj ht
    have hx : Exchanged s (s.setTable r table) [] [] := by
      refine exchanged_setTable h.sound hg fun o => ?_
      rw [((List.isPerm_iff.1 hperm).flatMap_right propertyHeld).count_eq o]
    obtain ⟨h₁, hm₁⟩ := hx.give (c := 0) (by rw [earn_nil]; exact h) zero_nonneg (by rintro o ⟨⟩)
    exact ⟨cs, h₁, hm₁⟩
  · cases ht

theorem sortElements_keeps {r : Ref} {values : List Slot} (h : Ready s E 0 cs) (ht : s.sortElements r values = some t) :
    Keeps s t E cs := by
  unfold sortElements at ht
  obtain ⟨old, hold, ht⟩ := Option.bind_eq_some_iff.1 ht
  split at ht
  · rename_i hperm
    obtain rfl := Option.some.inj ht
    have hx : Exchanged s (s.setElements r values) [] [] := by
      refine exchanged_setElements h.sound hold fun o => ?_
      have hcount := ((List.isPerm_iff.1 hperm).flatMap_right holding).count_eq o
      unfold holdingAll
      rw [hcount]
    obtain ⟨h₁, hm₁⟩ := hx.give (c := 0) (by rw [earn_nil]; exact h) zero_nonneg (by rintro o ⟨⟩)
    exact ⟨cs, h₁, hm₁⟩
  · cases ht

theorem insertElement_keeps {r : Ref} {i : Nat} {v : Slot} (h : Ready s E 0 cs) (ht : s.insertElement r i v = some t) :
    Keeps s t E cs := by
  unfold insertElement at ht
  obtain ⟨s₁, hs₁, ht⟩ := Option.bind_eq_some_iff.1 ht
  obtain ⟨values, hvalues, ht⟩ := Option.bind_eq_some_iff.1 ht
  split at ht
  · rename_i hi
    obtain rfl := Option.some.inj ht
    obtain ⟨h₁, hm₁, hlive, hframe⟩ := h.retainSlot hs₁
    have hx : Exchanged s₁ (s₁.setElements r (values.insertIdx i v)) [] (holding v) := by
      refine exchanged_setElements h₁.sound hvalues fun o => ?_
      have hperm : (holdingAll (values.insertIdx i v)).Perm (holdingAll (v :: values)) :=
        (List.perm_insertIdx v values hi).flatMap_right holding
      rw [hperm.count_eq o, holdingAll, List.flatMap_cons, List.count_append, List.count_nil, Nat.add_zero, Nat.add_comm]
      rfl
    obtain ⟨h₂, hm₂⟩ := hx.give h₁ zero_nonneg fun o ho => by
      rw [hframe]
      exact hlive o ho
    exact ⟨cs, h₂, hm₁.trans hm₂⟩
  · cases ht

theorem removeElement_keeps {r : Ref} {i : Nat} (h : Ready s E 0 cs) (ht : s.removeElement r i = some t) : Keeps s t E cs := by
  unfold removeElement at ht
  obtain ⟨values, hvalues, ht⟩ := Option.bind_eq_some_iff.1 ht
  obtain ⟨v, hv, ht⟩ := Option.bind_eq_some_iff.1 ht
  have hx : Exchanged s (s.setElements r (values.eraseIdx i)) (holding v) [] := by
    refine exchanged_setElements h.sound hvalues fun o => ?_
    exact count_flatMap_eraseIdx hv o
  obtain ⟨h₁, hm₁⟩ := hx.take h
  rw [releaseSlot_eq] at ht
  obtain ⟨ds, h₂, hm₂, -⟩ := h₁.giveBack ht
  exact ⟨ds, h₂, hm₁.trans hm₂⟩

end Gc
end ObjectScript
