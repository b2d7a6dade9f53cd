import ObjectScript.Gc.Balance
/-!
# Giving references back

Every way to give a reference back keeps a core sound and takes the reference off the credit (`release_released`): a
program or locals that nothing holds any more are freed and give back what they hold.  `clearValue` gives back all
that a value holds.

Nothing here is recursive over values: a value whose counter comes to zero is a candidate, and its fields stay counted
until a collection clears it.  Programs and locals are freed at once, and the recursion is over what they hold.
-/
namespace ObjectScript
namespace Gc

open Links
open ObjectScript.Core (Ref)

variable {s t : State} {E : Obj → Prop} {c : Obj → Int} {cs ds : List Ref}

namespace State

/-- A counter that is not one of a value goes down. -/
theorem effect_decr_other (s : State) (cs : List Ref) {o : Obj} (ho : ∀ r, o ≠ .value r ∧ o ≠ .external r) :
    Effect s (s.decr o) cs cs := by
  refine ⟨rfl, fun _ _ h => h, fun _ _ h => h, fun q => ?_, fun _ => Or.inl rfl, .refl _, ⟨[], rfl⟩, fun q _ h1 h2 => ?_,
    fun _ h h' => absurd h h', rfl, ?_, Nat.le_max_left _ _⟩
  · rw [refCount_decr]
    split <;> omega
  · rw [refCount_decr, if_neg (ho q).1.symm, Int.sub_zero] at h1
    rw [refCount_decr, if_neg (ho q).2.symm, Int.sub_zero] at h2
    exact Or.inr ⟨h1, h2⟩
  · rw [weight_decr_other ho]
    exact Nat.le_refl _

theorem effect_setProgramAt (s : State) (cs : List Ref) (p : ProgramRef) : Effect s (s.setProgramAt p none) cs cs := by
  refine ⟨rfl, fun _ _ h => h, fun q ss hq => ?_, fun _ => Int.le_refl _, fun _ => Or.inl rfl, .refl _, ⟨[], rfl⟩,
    fun _ _ h1 h2 => Or.inr ⟨h1, h2⟩, fun _ h h' => absurd h h', rfl, Nat.le_refl _, Nat.le_max_left _ _⟩
  by_cases hqp : q = p
  · subst hqp
    simp [setProgramAt] at hq
  · simpa [setProgramAt, Function.update_of_ne hqp] using hq

theorem effect_setLocalsAt (s : State) (cs : List Ref) (l : LocalsRef) : Effect s (s.setLocalsAt l none) cs cs := by
  refine ⟨rfl, fun k loc hk => ?_, fun _ _ h => h, fun _ => Int.le_refl _, fun _ => Or.inl rfl, .refl _, ⟨[], rfl⟩,
    fun _ _ h1 h2 => Or.inr ⟨h1, h2⟩, fun _ h h' => absurd h h', rfl, Nat.le_refl _, Nat.le_max_left _ _⟩
  by_cases hkl : k = l
  · subst hkl
    simp [setLocalsAt] at hk
  · simpa [setLocalsAt, Function.update_of_ne hkl] using hk

/-- The exact counters that are left, when all that is skipped lies under what is given back. -/
theorem Released.of {E' : Obj → Prop} {os : List Obj} (h : Sound s E c cs) (heff : Effect s t cs ds)
    (hsound : Sound t E' (spend c os) ds)
    (hE : ∀ o, o.IsValue → E o → ¬ (s.Skipped o ∧ ∃ p ∈ os, s.Under p o) → E' o) : Released s t E c cs os := by
  refine ⟨ds, heff, hsound.weaken (fun o ho => ?_) fun o ho => ⟨h.exact_others o ho, fun hs => not_skipped ho hs.1⟩⟩
  by_cases hv : o.IsValue
  · exact hE o hv ho.1 ho.2
  · exact hsound.exact_others o hv

theorem releaseProgram_released {p : ProgramRef} (h : Sound s E c cs) (hc : 1 ≤ c (.program p))
    (hr : s.releaseProgram p = some t) : Released s t E c cs [.program p] := by
  unfold releaseProgram at hr
  obtain ⟨strings, hp, hr⟩ := Option.bind_eq_some_iff.1 hr
  have hd := h.decr (by simp) hc
  have heff := effect_decr_other s cs (o := .program p) (by simp)
  simp only at hr
  split at hr
  · obtain rfl := Option.some.inj hr
    exact Released.of h heff hd fun o _ ho _ => ho
  · rename_i hz
    have hf := hd.freeProgram hp (by omega)
    rw [foldlM_releaseExternal] at hr
    obtain ⟨ds, heff', hsound⟩ := foldlM_released (q := fun o => ∃ r, o = .external r)
      (fun s t E c cs o ho hs hco hrel => by
        obtain ⟨r, rfl⟩ := ho
        exact releaseExternal_released hs hco hrel)
      (strings.map .external) _ t E _ cs (fun o ho => by
        obtain ⟨r, -, rfl⟩ := List.mem_map.1 ho
        exact ⟨r, rfl⟩) hf (fun o => by
        have := hd.credit o
        unfold earn
        omega) hr
    rw [spend_earn] at hsound
    refine Released.of h (heff.trans ((effect_setProgramAt _ _ p).trans heff')) hsound fun o hv ho _ => ⟨ho, ?_⟩
    rintro ⟨-, q, hq, hu⟩
    obtain ⟨r, -, rfl⟩ := List.mem_map.1 hq
    cases hu
    exact hv

/-- Giving back a reference below some locals, when the number of parents is bounded by `n`. -/
def releaseBelow (n : Nat) (s : State) : Obj → Option State
  | .locals l => s.releaseLocals n l
  | o => s.release o

theorem holdingAll_eq (vs : List Slot) : holdingAll vs = (vs.filterMap id).map Obj.value := by
  induction vs with
  | nil => rfl
  | cons v vs ih =>
    cases v with
    | none => exact ih
    | some r => exact congrArg (Obj.value r :: ·) ih

theorem foldlM_releaseBelow (n : Nat) (vs : List Slot) (s : State) :
    (holdingAll vs).foldlM (releaseBelow n) s = vs.foldlM releaseSlot s := by
  rw [foldlM_releaseSlot, holdingAll_eq, List.foldlM_map, List.foldlM_map]
  rfl

theorem releaseLocals_eq (n : Nat) (s : State) (l : LocalsRef) : s.releaseLocals (n + 1) l = (do
    let loc ← s.locals l
    if 0 < (s.decr (.locals l)).refCount (.locals l) then return s.decr (.locals l)
    else loc.held.foldlM (releaseBelow n) ((s.decr (.locals l)).setLocalsAt l none)) := by
  rw [releaseLocals]
  refine congrArg _ (funext fun loc => ?_)
  simp only
  split
  · rfl
  · unfold Locals.held
    rw [List.foldlM_cons]
    refine congrArg _ (funext fun s1 => ?_)
    rw [List.foldlM_append]
    cases loc.parents with
    | nil => exact (foldlM_releaseBelow n _ s1).symm
    | cons p ps =>
      simp only [List.head?_cons, Option.toList_some, List.map_cons, List.map_nil, List.foldlM_cons, List.foldlM_nil,
        foldlM_releaseBelow, Option.bind_eq_bind, Option.pure_def]
      cases hq : s1.releaseLocals n p <;> simp [releaseBelow, hq]

theorem releaseLocals_released : ∀ (n : Nat) (s t : State) (E : Obj → Prop) (c : Obj → Int) (cs : List Ref) (l : LocalsRef),
    Sound s E c cs → 1 ≤ c (.locals l) → s.releaseLocals n l = some t → Released s t E c cs [.locals l]
  | 0, _, _, _, _, _, _, _, _, hr => by cases hr
  | n + 1, s, t, E, c, cs, l, h, hc, hr => by
    rw [releaseLocals_eq] at hr
    obtain ⟨loc, hl, hr⟩ := Option.bind_eq_some_iff.1 hr
    have heff := effect_decr_other s cs (o := .locals l) (by simp)
    split at hr
    · rename_i hpos
      obtain rfl := Option.some.inj hr
      exact Released.of h heff (h.decr (fun _ _ => hpos) hc) fun o _ ho _ => ho
    · rename_i hz
      have hf := h.freeLocals hl hc (by omega)
      have hstep : ∀ (s t : State) (E : Obj → Prop) (c : Obj → Int) (cs : List Ref) (o : Obj), True → Sound s E c cs →
          1 ≤ c o → releaseBelow n s o = some t → Released s t E c cs [o] := by
        intro s t E c cs o _ hs hco hrel
        cases o with
        | value r => exact releaseValue_released hs hco hrel
        | external r => exact releaseExternal_released hs hco hrel
        | locals k => exact releaseLocals_released n s t E c cs k hs hco hrel
        | program p => exact releaseProgram_released hs hco hrel
      obtain ⟨ds, heff', hsound⟩ := foldlM_released hstep loc.held _ t E _ cs (fun _ _ => trivial) hf (fun o => by
        have := spend_nonneg h.credit hc o
        unfold earn
        omega) hr
      rw [spend_earn] at hsound
      have hfree := heff.trans (effect_setLocalsAt (s.decr (.locals l)) cs l)
      refine Released.of h (hfree.trans heff') hsound fun o _ ho hsk => ⟨ho, ?_⟩
      rintro ⟨hk, q, hq, hu⟩
      refine hsk ⟨hk, .locals l, List.mem_singleton_self _, .locals (o := q) ?_ (hfree.under hu)⟩
      simp only [holds, hl]
      exact hq

/-- **A reference given back comes off the credit.** -/
theorem release_released {o : Obj} (h : Sound s E c cs) (hc : 1 ≤ c o) (hr : s.release o = some t) :
    Released s t E c cs [o] := by
  cases o with
  | value r => exact releaseValue_released h hc hr
  | external r => exact releaseExternal_released h hc hr
  | locals l => exact releaseLocals_released _ s t E c cs l h hc hr
  | program p => exact releaseProgram_released h hc hr

theorem releaseAll_released {os : List Obj} (h : Sound s E c cs) (hc : ∀ o, (os.count o : Int) ≤ c o)
    (hr : os.foldlM release s = some t) : Released s t E c cs os :=
  foldlM_released (q := fun _ => True) (fun _ _ _ _ _ _ _ hs hco hrel => release_released hs hco hrel) os s t E c cs
    (fun _ _ => trivial) h hc hr

end State

/-! ## Clearing and deleting a value -/

namespace Sound

open State

/-- A value gets other slots; what it gives up is credited, what it takes is debited. -/
theorem setValueAt (h : Sound s E c cs) {r : Ref} {g g' : GCValue} (hr : s.value r = some g) {d : Obj → Int}
    (hd : ∀ o, 0 ≤ d o) (hcount : ∀ o, d o + (g'.held.count o : Int) = c o + (g.held.count o : Int))
    (hnew : ∀ o ∈ g'.held, ¬ o.IsValue → s.Live o) : Sound (s.setValueAt r (some g')) E d cs := by
  have hlive : (s.value r).isSome := by rw [hr]; rfl
  have hsome : ∀ q, ((s.setValueAt r (some g')).value q).isSome = (s.value q).isSome := by
    intro q
    by_cases hq : q = r
    · subst hq
      simp [State.setValueAt, hlive]
    · simp [State.setValueAt, Function.update_of_ne hq]
  have hL : ∀ o, (s.setValueAt r (some g')).Live o ↔ s.Live o := by
    intro o
    cases o with
    | value q => rw [live_value, live_value, hsome]
    | external q => rw [live_external, live_external, hsome]
    | locals l => rfl
    | program p => rfl
  have howned : ∀ o, (s.setValueAt r (some g')).owned o + g.held.count o = s.owned o + g'.held.count o := by
    intro o
    have := owned_setValueAt (h.bounded r hlive) (some g') o
    rwa [hr] at this
  refine ⟨fun q hq => h.bounded q (by rwa [hsome] at hq), h.bounded_locals, h.bounded_program, h.nodup,
    fun q hq => ?_, h.lineage, fun o ho => ?_, fun o ho hE => ?_, h.exact_others, hd, fun o ho hpos => ?_, h.positive, h.candidates,
    fun q hq => ?_, h.steps⟩
  · rw [hsome]
    exact h.ordered q hq
  · have h1 := h.balanced o ((hL o).1 ho)
    have h2 := howned o
    have h3 := hcount o
    have h4 : (s.setValueAt r (some g')).refCount o = s.refCount o := rfl
    omega
  · have h1 := h.exact o ((hL o).1 ho) hE
    have h2 := howned o
    have h3 := hcount o
    have h4 : (s.setValueAt r (some g')).refCount o = s.refCount o := rfl
    omega
  · refine (hL o).2 ?_
    by_cases hmem : o ∈ g'.held
    · exact hnew o hmem ho
    · have h2 := howned o
      rw [List.count_eq_zero_of_not_mem hmem] at h2
      exact h.rooted o ho (by omega)
  · rw [hsome]
    exact h.candidates_live q hq

theorem held_cleared : GCValue.cleared.held = [] := rfl

/-- **`clearValue` gives back what the value holds.** -/
theorem clearValue (h : Sound s E c cs) {r : Ref} (hr : s.clearValue r = some t) : ∃ g, s.value r = some g ∧
    Released (s.setValueAt r (some .cleared)) t E (earn c g.held) cs g.held := by
  unfold State.clearValue at hr
  obtain ⟨g, hg, hr⟩ := Option.bind_eq_some_iff.1 hr
  have hcredit : ∀ o, 0 ≤ earn c g.held o := fun o => by
    have := h.credit o
    unfold earn
    omega
  have hs : Sound (s.setValueAt r (some .cleared)) E (earn c g.held) cs := h.setValueAt hg hcredit (fun o => by
    rw [held_cleared]
    simp [earn]) (by rw [held_cleared]; simp)
  refine ⟨g, hg, releaseAll_released hs (fun o => ?_) hr⟩
  have := h.credit o
  unfold earn
  omega

theorem mem_order_unregister {v : Values} (hnd : v.order.Nodup) (r q : Ref) :
    q ∈ (v.unregister r).order ↔ q ∈ v.order ∧ q ≠ r := by
  unfold Values.order at hnd ⊢
  unfold Values.unregister
  simp only [List.mem_flatten, List.mem_map, exists_exists_and_eq_and]
  constructor
  · rintro ⟨cs, hcs, hq⟩
    have := (List.nodup_flatten.1 hnd).1 cs hcs
    rw [this.mem_erase_iff] at hq
    exact ⟨⟨cs, hcs, hq.2⟩, hq.1⟩
  · rintro ⟨⟨cs, hcs, hq⟩, hne⟩
    have := (List.nodup_flatten.1 hnd).1 cs hcs
    exact ⟨cs, hcs, this.mem_erase_iff.2 ⟨hne, hq⟩⟩

theorem nodup_order_unregister {v : Values} (hnd : v.order.Nodup) (r : Ref) : (v.unregister r).order.Nodup := by
  unfold Values.order at hnd ⊢
  unfold Values.unregister
  rw [List.nodup_flatten] at hnd ⊢
  refine ⟨fun cs hcs => ?_, ?_⟩
  · obtain ⟨ds, hds, rfl⟩ := List.mem_map.1 hcs
    exact (hnd.1 ds hds).erase r
  · refine List.pairwise_map.2 (hnd.2.imp fun {a b} hab => ?_)
    exact List.disjoint_of_subset_left List.erase_subset (List.disjoint_of_subset_right List.erase_subset hab)

theorem unlist (h : Sound s E c cs) (r : Ref) : Sound { s with values := s.values.unregister r } E c cs :=
  ⟨h.bounded, h.bounded_locals, h.bounded_program, nodup_order_unregister h.nodup r,
    fun q hq => h.ordered q ((mem_order_unregister h.nodup r q).1 hq).1, h.lineage, h.balanced, h.exact, h.exact_others,
    h.credit, h.rooted, h.positive, h.candidates, h.candidates_live, h.steps⟩

theorem owned_freeValue {r : Ref} (hr : r < s.values.nextId) (hv : s.value r = some .cleared) (o : Obj) :
    (s.setValueAt r none).owned o = s.owned o := by
  have h := owned_setValueAt hr none o
  rw [hv] at h
  simpa [held_cleared] using h

/-- A cleared value that is not in the table is freed. -/
theorem freeValue (h : Sound s E c cs) {r : Ref} (hr : s.value r = some .cleared) (hx : s.owned (.external r) = 0)
    (hcs : r ∉ cs) (hord : r ∉ s.values.order) : Sound (s.setValueAt r none) E c cs := by
  have hlive : (s.value r).isSome := by rw [hr]; rfl
  have hother : ∀ q, q ≠ r → (s.setValueAt r none).value q = s.value q := fun q hq => Function.update_of_ne hq _ _
  have hself : (s.setValueAt r none).value r = none := Function.update_self ..
  have howned := owned_freeValue (h.bounded r hlive) hr
  have hsub : ∀ o, (s.setValueAt r none).Live o → s.Live o := by
    intro o ho
    cases o with
    | value q =>
      by_cases hq : q = r
      · subst hq
        exact hlive
      · rwa [live_value, hother q hq] at ho
    | external q =>
      by_cases hq : q = r
      · subst hq
        exact hlive
      · rwa [live_external, hother q hq] at ho
    | locals l => exact ho
    | program p => exact ho
  have hne : ∀ q, (s.value q).isSome → q ≠ r → ((s.setValueAt r none).value q).isSome := fun q hq hqr => by
    rw [hother q hqr]
    exact hq
  refine ⟨fun q hq => h.bounded q (hsub (.value q) hq), h.bounded_locals, h.bounded_program, h.nodup,
    fun q hq => hne q (h.ordered q hq) ?_, h.lineage, fun o ho => ?_, fun o ho hE => ?_, h.exact_others, h.credit,
    fun o ho hpos => ?_, h.positive, h.candidates, fun q hq => hne q (h.candidates_live q hq) ?_, h.steps⟩
  · rintro rfl
    exact hord hq
  · have := h.balanced o (hsub o ho)
    rw [howned]
    exact this
  · have := h.exact o (hsub o ho) hE
    rw [howned]
    exact this
  · rw [howned] at hpos
    have hl := h.rooted o ho hpos
    cases o with
    | value q => exact absurd trivial ho
    | external q =>
      refine hne q hl ?_
      rintro rfl
      omega
    | locals l => exact hl
    | program p => exact hl
  · rintro rfl
    exact hcs hq

theorem deleteValue (h : Sound s E c cs) {r : Ref} (hr : s.value r = some .cleared) (hx : s.owned (.external r) = 0)
    (hcs : r ∉ cs) : Sound (s.deleteValue r) E c cs :=
  (h.unlist r).freeValue hr hx hcs fun hmem => ((mem_order_unregister h.nodup r r).1 hmem).2 rfl

end Sound

end Gc
end ObjectScript
