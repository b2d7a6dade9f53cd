import ObjectScript.Gc.Sweep
import Mathlib.Data.Finset.Lattice.Fold
/-!
# A whole collection

When every value was visited, nothing refers to the values that were cleared (`Sweeping.free`), so these can go.  The
results of this module say what `gcFreeCandidateValues` keeps: no reference is left to a value that is gone, when
`KeptWhole` holds where the marking begins; every counter is exact, when `KeptAfter` does; and the candidates are
complete, when every candidate was unlinked from the place where it was.
-/
namespace ObjectScript
namespace Gc

open Links
open ObjectScript.Core (Ref)

variable {s t : State} {E : Obj → Prop} {c : Obj → Int} {cs ds : List Ref}

/-- What a value holds of values and locals is what `mark` goes on to. -/
theorem GCValue.mem_fields {g : GCValue} {o : Obj} (h : o ∈ g.held) (ho : (∃ r, o = .value r) ∨ ∃ l, o = .locals l) :
    o ∈ g.fields := by
  have hexternal : ∀ strings : List Ref, o ∉ strings.map Obj.external := by
    intro strings hmem
    obtain ⟨r, -, rfl⟩ := List.mem_map.1 hmem
    rcases ho with ⟨q, hq⟩ | ⟨l, hl⟩
    · cases hq
    · cases hl
  have hprogram : ∀ p : ProgramRef, o ∉ [Obj.program p] := by
    intro p hmem
    obtain rfl := List.mem_singleton.1 hmem
    rcases ho with ⟨q, hq⟩ | ⟨l, hl⟩
    · cases hq
    · cases hl
  have htable : o ∈ tableHeld g.table ↔ o ∈ g.table.flatMap fun p => holding p.1 ++ holding p.2 := by
    simp [tableHeld]
  unfold GCValue.held at h
  unfold GCValue.fields
  cases hp : g.payload <;> rw [hp] at h <;>
    simp only [List.mem_append, hexternal, hprogram, htable, false_or, or_false] at h ⊢ <;> grind

theorem State.live_of_holds {i o : Obj} (h : o ∈ s.holds i) : s.Live i := by
  cases i with
  | value r =>
    cases hr : s.value r with
    | none => simp [State.holds, hr] at h
    | some g => simp [State.Live, hr]
  | external r => cases h
  | locals l =>
    cases hl : s.locals l with
    | none => simp [State.holds, hl] at h
    | some loc => simp [State.Live, hl]
  | program p =>
    cases hp : s.program p with
    | none => simp [State.holds, hp] at h
    | some strings => simp [State.Live, hp]

namespace Sweeping

open State

variable {s₀ : State} {cells todo dead cs₀ : List Ref} {E₀ : Obj → Prop}

theorem holds_before (h : Sweeping s₀ cells E₀ todo dead s E cs) {i o : Obj} (ho : o ∈ s.holds i) : o ∈ s₀.holds i := by
  cases i with
  | value r =>
    simp only [State.holds, h.value] at ho ⊢
    split at ho
    · cases ho
    · exact ho
  | external r => exact ho
  | locals l =>
    simp only [State.holds] at ho ⊢
    cases hl : s.locals l with
    | none =>
      rw [hl] at ho
      cases ho
    | some loc =>
      rw [hl] at ho
      rw [h.locals l loc hl]
      exact ho
  | program p =>
    simp only [State.holds] at ho ⊢
    cases hp : s.program p with
    | none =>
      rw [hp] at ho
      cases ho
    | some strings =>
      rw [hp] at ho
      rw [h.program p strings hp]
      exact ho

theorem outside_eq (h : Sweeping s₀ cells E₀ todo dead s E cs) : s.outside = s₀.outside := by
  unfold State.outside
  rw [h.root, h.callStack, h.host]

/-- What is held in the middle of a sweep was held when it began. -/
theorem owned_before (h : Sweeping s₀ cells E₀ todo dead s E cs) (h₀ : Sound s₀ E₀ c cs₀) {o : Obj} (ho : 0 < s.owned o) :
    0 < s₀.owned o := by
  rcases owned_pos.1 ho with ⟨i, hi, hmem⟩ | hmem
  · have hbefore := h.holds_before hmem
    refine owned_pos_of_holds (h := i) (h₀.mem_objects_of_live i (fun q => ?_) (live_of_holds hbefore)) hbefore
    rintro rfl
    cases hbefore
  · rw [h.outside_eq] at hmem
    exact owned_pos_of_outside hmem

/-- What a frame, a root or the host holds of values and locals is reached. -/
theorem reached_of_outside (hh : HostKinds s₀) {o : Obj} (ho : o ∈ s₀.outside) (hk : (∃ r, o = .value r) ∨ ∃ l, o = .locals l) :
    s₀.Reached cells o := by
  unfold State.outside at ho
  rcases List.mem_append.1 ho with ho | ho
  · refine reached_of_root ?_
    unfold State.markRoots
    rcases List.mem_append.1 ho with ho | ho
    · simp only [List.mem_append]
      grind
    · obtain ⟨f, hf, hmem⟩ := List.mem_flatMap.1 ho
      have : o ∈ s₀.callStack.flatMap StackFunction.fields := by
        refine List.mem_flatMap.2 ⟨f, hf, ?_⟩
        unfold StackFunction.held at hmem
        unfold StackFunction.fields
        simp only [List.mem_cons, List.mem_append] at hmem ⊢
        grind
      simp only [List.mem_append]
      grind
  · rcases hh o ho with ⟨r, rfl⟩ | ⟨p, rfl⟩
    · rcases hk with ⟨q, hq⟩ | ⟨l, hl⟩
      · cases hq
      · cases hl
    · rcases hk with ⟨q, hq⟩ | ⟨l, hl⟩
      · cases hq
      · cases hl

/-- **At the end, what a value that stays holds of values and locals** is reached, or anchored. -/
theorem held_of_kept (h : Sweeping s₀ cells E₀ [] dead s E cs) (hk : KeptWhole s₀ cells) {v : Ref} {o : Obj}
    (ho : o ∈ s.holds (.value v)) (hkind : (∃ r, o = .value r) ∨ ∃ l, o = .locals l) :
    s₀.Reached cells o ∨ ∃ f, o = .value f ∧ s₀.Anchored cells f := by
  by_cases hd : v ∈ dead
  · simp only [State.holds, h.value, if_pos hd, Option.elim_some, Sound.held_cleared] at ho
    cases ho
  · have hv : s.value v = s₀.value v := by rw [h.value, if_neg hd]
    simp only [State.holds, hv] at ho
    cases hg : s₀.value v with
    | none =>
      rw [hg] at ho
      cases ho
    | some g =>
      rw [hg] at ho
      have hf := GCValue.mem_fields ho hkind
      have hstamp := h.kept v (by rw [hg]; rfl) List.not_mem_nil hd
      by_cases hr : s₀.Reached cells (.value v)
      · have hfields : s₀.fields (.value v) = some g.fields := by simp only [State.fields, hg, Option.map_some]
        exact Or.inl (hr.step hfields hf)
      · rcases h.stamped v hstamp with hr' | hpos
        · exact absurd hr' hr
        · exact hk v g hg hr hpos o hf

/-- **At the end, all locals that are there are reached.** -/
theorem locals_reached (h : Sweeping s₀ cells E₀ [] dead s E cs) (hk : KeptWhole s₀ cells) (hh : HostKinds s₀) :
    ∀ (n : Nat) (l : LocalsRef), (∀ k, (s.locals k).isSome → s.depth k < n + s.depth l) → (s.locals l).isSome →
    s₀.Reached cells (.locals l)
  | 0, l, hn, hl => absurd (hn l hl) (by omega)
  | n + 1, l, hn, hl => by
    have hpos : 0 < s.owned (.locals l) := by
      have h1 := h.sound.positive l hl
      have h2 := h.sound.exact (.locals l) (live_locals.2 hl) (h.sound.exact_others _ id)
      simp only [Pi.zero_apply] at h2
      omega
    rcases owned_pos.1 hpos with ⟨i, -, hi⟩ | hout
    · cases i with
      | value v =>
        rcases h.held_of_kept hk hi (Or.inr ⟨l, rfl⟩) with hr | ⟨f, hf, -⟩
        · exact hr
        · cases hf
      | external r => cases hi
      | locals k =>
        -- `l` is the first parent of `k`, which is one deeper
        simp only [State.holds] at hi
        cases hlk : s.locals k with
        | none =>
          rw [hlk] at hi
          cases hi
        | some loc =>
          rw [hlk, Option.elim_some] at hi
          have hno : Obj.locals l ∉ holdingAll loc.heapValues := by
            intro hmem
            obtain ⟨v, -, hv⟩ := List.mem_flatMap.1 hmem
            simp [holding] at hv
          cases hpar : loc.parents with
          | nil => simp [Locals.held, hpar, hno] at hi
          | cons p ps =>
            obtain rfl : l = p := by simpa [Locals.held, hpar, hno] using hi
            obtain ⟨lp, hlp, hps⟩ := h.sound.lineage k loc hlk l ps hpar
            have hdepth : s.depth k = s.depth l + 1 := by
              unfold State.depth
              rw [hlk, hlp]
              simp [hpar, hps]
            have hr := h.locals_reached hk hh n k (fun j hj => by
              have := hn j hj
              omega) (by rw [hlk]; rfl)
            have hfields : s₀.fields (.locals k) = some loc.fields := by
              simp only [State.fields, h.locals k loc hlk, Option.map_some]
            refine hr.step hfields ?_
            unfold Locals.fields
            rw [hpar]
            exact List.mem_append_right _ (List.mem_map_of_mem List.mem_cons_self)
      | program p =>
        simp only [State.holds] at hi
        cases hp : s.program p with
        | none =>
          rw [hp] at hi
          cases hi
        | some strings =>
          rw [hp] at hi
          simp at hi
    · rw [h.outside_eq] at hout
      exact reached_of_outside hh hout (Or.inr ⟨l, rfl⟩)

/-- **At the end, nothing refers to a value that was cleared.** -/
theorem free (h : Sweeping s₀ cells E₀ [] dead s E cs) (hk : KeptWhole s₀ cells) (hh : HostKinds s₀) {r : Ref}
    (hr : 0 < s.owned (.value r)) : r ∉ dead := by
  have hreached : s₀.Reached cells (.value r) → r ∉ dead := fun h1 hd => (h.gone r hd).1 h1
  rcases owned_pos.1 hr with ⟨i, -, hi⟩ | hout
  · cases i with
    | value v =>
      rcases h.held_of_kept hk hi (Or.inl ⟨r, rfl⟩) with h1 | ⟨f, hf, ha⟩
      · exact hreached h1
      · cases hf
        exact fun hd => (h.gone r hd).2.1 ha
    | external q => cases hi
    | locals l =>
      simp only [State.holds] at hi
      cases hl : s.locals l with
      | none =>
        rw [hl] at hi
        cases hi
      | some loc =>
        rw [hl, Option.elim_some] at hi
        have hbound : ∀ k, (s.locals k).isSome → s.depth k < ((Finset.range s.nextLocals).sup s.depth + 1) + s.depth l := by
          intro k hk
          have : s.depth k ≤ (Finset.range s.nextLocals).sup s.depth :=
            Finset.le_sup (Finset.mem_range.2 (h.sound.bounded_locals k hk))
          omega
        have hlr := h.locals_reached hk hh _ l hbound (by rw [hl]; rfl)
        have hfields : s₀.fields (.locals l) = some loc.fields := by
          simp only [State.fields, h.locals l loc hl, Option.map_some]
        refine hreached (hlr.step hfields ?_)
        unfold Locals.held at hi
        unfold Locals.fields
        refine List.mem_append_left _ ?_
        have hhead : Obj.value r ∉ loc.parents.head?.toList.map Obj.locals := by simp
        simpa [hhead] using hi
    | program p =>
      simp only [State.holds] at hi
      cases hp : s.program p with
      | none =>
        rw [hp] at hi
        cases hi
      | some strings =>
        rw [hp] at hi
        simp at hi
  · rw [h.outside_eq] at hout
    exact hreached (reached_of_outside hh hout (Or.inl ⟨r, rfl⟩))

end Sweeping

/-! ## The destroy list -/

/-- Counters that are exact for all live values are exact where it matters. -/
theorem Sound.strengthen {E' : Obj → Prop} (h : Sound s E c cs) (hE : ∀ o, s.Live o → E' o → E o)
    (hothers : ∀ o, ¬ o.IsValue → E' o) : Sound s E' c cs :=
  ⟨h.bounded, h.bounded_locals, h.bounded_program, h.nodup, h.ordered, h.lineage, h.balanced,
    fun o hl ho => h.exact o hl (hE o hl ho), hothers, h.credit, h.rooted, h.positive, h.candidates, h.candidates_live, h.steps⟩

theorem Sound.setFix (h : Sound s E c cs) (b : Bool) : Sound { s with gcFixInProgress := b } E c cs :=
  ⟨h.bounded, h.bounded_locals, h.bounded_program, h.nodup, h.ordered, h.lineage, h.balanced, h.exact, h.exact_others,
    h.credit, h.rooted, h.positive, h.candidates, h.candidates_live, h.steps⟩

theorem State.Under.congr {o q : Obj} (h : s.Under o q) (ht : ∀ l, s.holds (.locals l) = t.holds (.locals l)) :
    t.Under o q := by
  induction h with
  | self o => exact .self o
  | @locals l o q hmem _ ih =>
    rw [ht] at hmem
    exact .locals hmem ih

namespace State

structure Destroyed (s t : State) (cs ds dead : List Ref) : Prop where
  frame : t = { s with value := t.value, candidates := t.candidates }
  value : ∀ r, t.value r = if r ∈ dead then none else s.value r
  heads : t.candidates.heads.isSome
  mem : ∀ r, r ∈ ds ↔ r ∈ cs ∧ r ∉ dead
  count : s.candidates.count = cs.length → t.candidates.count = ds.length
  owned : ∀ o, t.owned o = s.owned o

theorem destroyValue_sound {r : Ref} (h : Sound s E 0 cs) (hh : s.candidates.heads.isSome) (hv : s.value r = some .cleared)
    (hx : s.owned (.external r) = 0) (hord : r ∉ s.values.order) (ht : s.destroyValue r = some t) :
    Sound t E 0 (cs.filter (· ≠ r)) ∧ Destroyed s t cs (cs.filter (· ≠ r)) [r] := by
  unfold destroyValue at ht
  obtain ⟨c', hc', ht⟩ := Option.bind_eq_some_iff.1 ht
  obtain rfl := Option.some.inj ht
  obtain ⟨c1, hc1, hholds, hheads, hcount⟩ := FreeCandidateValues.unregister_some h.candidates hh r
  obtain rfl : c1 = c' := Option.some.inj (hc1.symm.trans hc')
  have hs1 : Sound { s with candidates := c1 } E 0 (cs.filter (· ≠ r)) :=
    h.retable (t := { s with candidates := c1 }) rfl hholds (fun q hq => h.candidates_live q (List.mem_of_mem_filter hq)) h.steps
  refine ⟨hs1.freeValue hv hx (by simp) hord, rfl, fun q => ?_, hheads, fun q => by simp, fun hlen => ?_,
    Sound.owned_freeValue (h.bounded r (by rw [hv]; rfl)) hv⟩
  · by_cases hq : q = r
    · subst hq
      simp [State.setValueAt]
    · simp [State.setValueAt, hq]
  · have hnd := h.candidates.nodup
    have hlength : (cs.filter (· ≠ r)).length = cs.length - if r ∈ cs then 1 else 0 := by
      have : cs.filter (· ≠ r) = cs.erase r := by
        rw [hnd.erase_eq_filter]
        exact List.filter_congr fun q _ => by simp [bne, beq_eq_decide]
      rw [this, List.length_erase]
      split <;> simp
    exact (hcount.trans (by rw [hlen])).trans hlength.symm

theorem destroyAll : ∀ (dead cs : List Ref) (s t : State), Sound s E 0 cs → s.candidates.heads.isSome → dead.Nodup →
    (∀ r ∈ dead, s.value r = some .cleared ∧ s.owned (.external r) = 0 ∧ r ∉ s.values.order) →
    dead.foldlM destroyValue s = some t → ∃ ds, Sound t E 0 ds ∧ Destroyed s t cs ds dead
  | [], cs, s, t, h, hh, _, _, ht => by
    obtain rfl := Option.some.inj ht
    exact ⟨cs, h, rfl, fun r => by simp, hh, fun r => by simp, id, fun _ => rfl⟩
  | r :: dead, cs, s, t, h, hh, hnd, hdead, ht => by
    rw [List.foldlM_cons] at ht
    obtain ⟨u, hu, ht⟩ := Option.bind_eq_some_iff.1 ht
    obtain ⟨hr, hnd⟩ := List.nodup_cons.1 hnd
    obtain ⟨hv, hx, hord⟩ := hdead r List.mem_cons_self
    obtain ⟨hsu, hdu⟩ := destroyValue_sound h hh hv hx hord hu
    have hrest : ∀ q ∈ dead, u.value q = some .cleared ∧ u.owned (.external q) = 0 ∧ q ∉ u.values.order := by
      intro q hq
      obtain ⟨h1, h2, h3⟩ := hdead q (List.mem_cons_of_mem _ hq)
      have hqr : q ≠ r := by
        rintro rfl
        exact hr hq
      refine ⟨?_, by rw [hdu.owned]; exact h2, by rw [hdu.frame]; exact h3⟩
      rw [hdu.value, if_neg (by simpa using hqr)]
      exact h1
    obtain ⟨ds, hst, hdt⟩ := destroyAll dead _ u t hsu hdu.heads hnd hrest ht
    refine ⟨ds, hst, by rw [hdt.frame, hdu.frame], fun q => ?_, hdt.heads, fun q => ?_, fun hlen => hdt.count (hdu.count hlen),
      fun o => (hdt.owned o).trans (hdu.owned o)⟩
    · rw [hdt.value, hdu.value]
      by_cases hq : q ∈ dead
      · simp [hq]
      · simp [hq]
    · rw [hdt.mem, hdu.mem]
      simp only [List.mem_cons, List.not_mem_nil, or_false, not_or, and_assoc]

/-- A collection leaves the stack, the frames, the roots and the host alone, and nothing new is held. -/
structure SameOutside (s t : State) : Prop where
  stack : t.stack = s.stack
  callStack : t.callStack = s.callStack
  root : t.root = s.root
  host : t.host = s.host
  nextId : t.values.nextId = s.values.nextId
  size : t.values.chains.length = s.values.chains.length ∧ t.values.headMask = s.values.headMask
  held : ∀ o, 0 < t.owned o → 0 < s.owned o

theorem SameOutside.refl (s : State) : SameOutside s s := ⟨rfl, rfl, rfl, rfl, rfl, ⟨rfl, rfl⟩, fun _ h => h⟩

theorem SameOutside.trans {u : State} (h : SameOutside s t) (h' : SameOutside t u) : SameOutside s u :=
  ⟨h'.stack.trans h.stack, h'.callStack.trans h.callStack, h'.root.trans h.root, h'.host.trans h.host,
    h'.nextId.trans h.nextId, ⟨h'.size.1.trans h.size.1, h'.size.2.trans h.size.2⟩, fun o ho => h.held o (h'.held o ho)⟩

/-- **What a sweep does**, after the marking. -/
structure Swept (s t : State) (cells : List Ref) (E : Obj → Prop) (cs ds dead : List Ref) : Prop where
  sound : ∃ E', Sound t E' 0 ds
  fix : t.gcFixInProgress = false
  same : SameOutside s t
  listed : Listed t
  value : ∀ r, t.value r = if r ∈ dead then none else s.value r
  unreached : ∀ r ∈ dead, ¬ s.Reached cells (.value r)
  closed : KeptWhole s cells → HostKinds s → Closed s → Closed t
  exact : KeptAfter s cells → Sound t E 0 ds
  complete : Complete s cs → Complete t ds

theorem sweep_swept {cells : List Ref} (h : Sound s E 0 cs) (hs : SweepStart { s with gcFixInProgress := true } cells)
    (hl : Listed s) (ht : s.sweep = some t) : ∃ ds dead, Swept s t cells E cs ds dead := by
  unfold sweep at ht
  obtain ⟨⟨u, dead⟩, hu, ht⟩ := Option.bind_eq_some_iff.1 ht
  obtain ⟨v, hv, ht⟩ := Option.bind_eq_some_iff.1 ht
  obtain rfl := Option.some.inj ht
  have hfix := h.setFix true
  obtain ⟨E', cs', hsw, hcomplete⟩ :=
    Sweeping.sweepAll hfix.bounded hfix.nodup _ _ _ _ _ _ _ (Sweeping.start hfix hs hl) hu
  have hexternal : ∀ r ∈ dead, u.owned (.external r) = 0 := fun r hr =>
    hsw.sound.owned_eq_zero (live_external.2 (by rw [hsw.value, if_pos hr]; rfl)) (hsw.gone r hr).2.2.2
  obtain ⟨ds, hsv, hd⟩ := destroyAll dead cs' u v hsw.sound hsw.heads hsw.dead_nodup
    (fun r hr => ⟨by rw [hsw.value, if_pos hr], hexternal r hr, (hsw.gone r hr).2.2.1⟩) hv
  have hvalue : ∀ r, v.value r = if r ∈ dead then none else s.value r := by
    intro r
    rw [hd.value, hsw.value]
    split <;> rfl
  have hvalues : v.values = u.values := by rw [hd.frame]
  have hsame : ∀ r, (v.value r).isSome → (s.value r).isSome ∧ r ∉ dead := by
    intro r hr
    rw [hvalue] at hr
    split at hr
    · cases hr
    · exact ⟨hr, by assumption⟩
  have hsound := hsv.setFix false
  have hout : SameOutside s { v with gcFixInProgress := false } := by
    refine ⟨?_, ?_, ?_, ?_, ?_, ?_, fun o ho => hsw.owned_before hfix ((hd.owned o) ▸ ho)⟩ <;> rw [hd.frame]
    · exact hsw.stack
    · exact hsw.callStack
    · exact hsw.root
    · exact hsw.host
    · exact hsw.nextId
    · exact hsw.size
  refine ⟨ds, dead, ⟨E', hsound⟩, rfl, hout, fun r hr => ?_, hvalue, fun r hr => (hsw.gone r hr).1,
    fun hk hh hc => ⟨fun r hr => ?_, fun r hr => ?_, fun f hf => ?_⟩, fun hk => ?_, fun hc => ?_⟩
  · obtain ⟨h1, h2⟩ := hsame r hr
    show r ∈ v.values.order
    rw [hvalues]
    exact (hsw.listed r h1).resolve_right h2
  · -- a value that is held was not cleared, and it was held before
    have hr' : 0 < u.owned (.value r) := by
      rw [← hd.owned]
      exact hr
    have hnd := hsw.free hk hh hr'
    have hlive : (s.value r).isSome := by
      exact hc.values r (hsw.owned_before hfix hr')
    show (v.value r).isSome
    rw [hvalue, if_neg hnd]
    exact hlive
  · rw [hout.stack] at hr
    have hreached : s.Reached cells (.value r) := by
      refine reached_of_root ?_
      unfold markRoots
      have : Obj.value r ∈ holdingAll s.stack := List.mem_flatMap.2 ⟨some r, hr, by simp [holding]⟩
      simp only [List.mem_append]
      grind
    show (v.value r).isSome
    rw [hvalue, if_neg fun hdead => (hsw.gone r hdead).1 hreached]
    exact hc.stack r hr
  · rw [hout.callStack] at hf
    show (v.value f.func).isSome
    rw [hvalue, if_neg fun hdead => (hsw.gone _ hdead).1 (reached_running hf cells)]
    exact hc.frames f hf
  · refine hsound.strengthen (fun o ho hE => ?_) h.exact_others
    by_contra hn
    cases o with
    | value r =>
      obtain ⟨h1, h2⟩ := hsame r ho
      have hk' : KeptAfter { s with gcFixInProgress := true } cells := fun xs ys v g r h1 h2 h3 h4 h5 h6 h7 o h8 h9 =>
        hk xs ys v g r h1 h2 h3 h4 h5 h6 h7 o h8 (h9.congr fun _ => rfl)
      rcases hsw.inexact hk' r h1 hE hn with h3 | ⟨h3, -⟩
      · exact h2 h3
      · cases h3
    | external r => exact hn (hsw.sound.exact_others _ id)
    | locals l => exact hn (hsw.sound.exact_others _ id)
    | program p => exact hn (hsw.sound.exact_others _ id)
  · have hcu := hcomplete ⟨hc.zeros, hc.count⟩
    refine ⟨fun r hr h1 h2 => (hd.mem r).2 ⟨hcu.zeros r ?_ ?_ ?_, (hsame r hr).2⟩, hd.count hcu.count⟩
    · rw [hsw.value, if_neg (hsame r hr).2]
      exact (hsame r hr).1
    · have : v.refCount = u.refCount := by rw [hd.frame]
      rw [← this]
      exact h1
    · have : v.refCount = u.refCount := by rw [hd.frame]
      rw [← this]
      exact h2

end State

/-! ## gcFreeCandidateValues -/

open State

theorem LoopStep.same {check : Check} {x y : Config} (h : LoopStep check E x y) : SameOutside x.1 y.1 := by
  have howned := h.owned_le
  have hheld : ∀ o, 0 < y.1.owned o → 0 < x.1.owned o := fun o ho => Nat.lt_of_lt_of_le ho (howned o)
  cases h with
  | drop => exact ⟨rfl, rfl, rfl, rfl, rfl, ⟨rfl, rfl⟩, hheld⟩
  | free _ _ _ _ _ _ _ _ _ heff _ _ =>
    have hnext := congrArg Values.nextId heff.values
    have hlength := congrArg (fun v => v.chains.length) heff.values
    have hmask := congrArg Values.headMask heff.values
    exact ⟨heff.stack, heff.callStack, heff.root, heff.host, hnext, ⟨(List.length_map ..).trans hlength, hmask⟩, hheld⟩

theorem LoopStep.listed {check : Check} {x y : Config} (h : LoopStep check E x y) (hl : Listed x.1) : Listed y.1 := by
  cases h with
  | drop => exact hl
  | @free s t c cs ds i pre xs ys r g _ _ _ _ _ _ _ _ _ heff hsound _ =>
    intro q hq
    have hqr : q ≠ r := by
      rintro rfl
      simp [deleteValue, State.setValueAt] at hq
    refine (Sound.mem_order_unregister hsound.nodup r q).2 ⟨?_, hqr⟩
    have hlive : (t.value q).isSome := by simpa [deleteValue, State.setValueAt, Function.update_of_ne hqr] using hq
    rw [heff.value] at hlive
    rw [heff.values]
    exact hl q (by simpa [State.setValueAt, Function.update_of_ne hqr] using hlive)

theorem LoopSteps.same {check : Check} {x y : Config} (h : LoopSteps check E x y) : SameOutside x.1 y.1 := by
  induction h with
  | refl => exact .refl _
  | tail _ hstep ih => exact ih.trans hstep.same

theorem LoopSteps.listed {check : Check} {x y : Config} (h : LoopSteps check E x y) (hl : Listed x.1) : Listed y.1 := by
  induction h with
  | refl => exact hl
  | tail _ hstep ih => exact hstep.listed ih

/-! ### The check -/

namespace State

section

variable {unlink : Unlink} {check : Check}

theorem candidateChain_checked (hunlink : Unlinks unlink check) (i : Nat) : ∀ (n : Nat) (s t : State) (prev p : Option Ref),
    candidateChain unlink i n s prev p = some t → candidateChain State.unlink i n s prev p = some t
  | 0, _, _, _, _, h => by cases h
  | _ + 1, _, _, _, none, h => h
  | n + 1, s, t, prev, some r, h => by
    simp only [candidateChain] at h ⊢
    split at h
    · rename_i hcount
      rw [if_pos hcount]
      obtain ⟨c', hc', h⟩ := Option.bind_eq_some_iff.1 h
      have hunlinked := (hunlink _ _ _ _ _ hc').1
      exact Option.bind_eq_some_iff.2 ⟨c', hunlinked, candidateChain_checked hunlink i n _ t _ _ h⟩
    · rename_i hcount
      rw [if_neg hcount]
      split at h
      · rename_i hstep
        rw [if_pos hstep]
        exact candidateChain_checked hunlink i n _ t _ _ h
      · rename_i hstep
        rw [if_neg hstep]
        obtain ⟨c', hc', h⟩ := Option.bind_eq_some_iff.1 h
        obtain ⟨u, hu, h⟩ := Option.bind_eq_some_iff.1 h
        have hunlinked := (hunlink _ _ _ _ _ hc').1
        refine Option.bind_eq_some_iff.2 ⟨c', hunlinked, Option.bind_eq_some_iff.2 ⟨u, hu, ?_⟩⟩
        split at h
        · rename_i hmask
          rw [if_pos hmask]
          exact h
        · rename_i hmask
          rw [if_neg hmask]
          exact candidateChain_checked hunlink i n _ t _ _ h

theorem candidateLoop_checked (hunlink : Unlinks unlink check) : ∀ (n i : Nat) (s t : State),
    candidateLoop unlink n i s = some t → candidateLoop State.unlink n i s = some t
  | 0, _, _, _, h => by cases h
  | n + 1, i, s, t, h => by
    unfold candidateLoop at h ⊢
    split at h
    · rename_i hi
      rw [if_pos hi]
      obtain ⟨heads, hh, h⟩ := Option.bind_eq_some_iff.1 h
      obtain ⟨head, hp, h⟩ := Option.bind_eq_some_iff.1 h
      obtain ⟨u, hu, h⟩ := Option.bind_eq_some_iff.1 h
      exact Option.bind_eq_some_iff.2 ⟨heads, hh, Option.bind_eq_some_iff.2 ⟨head, hp, Option.bind_eq_some_iff.2
        ⟨u, candidateChain_checked hunlink i _ _ _ _ _ hu, candidateLoop_checked hunlink n (i + 1) u t h⟩⟩⟩
    · rename_i hi
      rw [if_neg hi]
      exact h

/-- A loop that meets the check does what the code's loop does. -/
theorem freeCandidates_checked (hunlink : Unlinks unlink check) (h : s.freeCandidates unlink = some t) :
    s.freeCandidates State.unlink = some t := by
  unfold freeCandidates at h ⊢
  obtain ⟨u, hu, h⟩ := Option.bind_eq_some_iff.1 h
  exact Option.bind_eq_some_iff.2 ⟨u, hu, candidateLoop_checked hunlink _ _ _ _ h⟩

theorem freeCandidates_checked_steps (hunlink : Unlinks unlink check) (h : Sound s E 0 cs) (hf : s.gcFixInProgress = false)
    (hc : (s.freeCandidates unlink).isSome) (ht : s.freeCandidates State.unlink = some t) :
    ∃ u ds, u = { s with gcStepType := s.gcStepType + 1, gcStep := u.gcStep } ∧ Stamped u cs ∧
      LoopSteps check E (u, cs) (t, ds) ∧ Sound t E 0 ds ∧ t.gcFixInProgress = false := by
  obtain ⟨t', ht'⟩ := Option.isSome_iff_exists.1 hc
  obtain rfl : t' = t := Option.some.inj ((freeCandidates_checked hunlink ht').symm.trans ht)
  obtain ⟨u, ds, hu, -, hrest⟩ := freeCandidates_steps hunlink h hf ht'
  exact ⟨u, ds, hu, hrest⟩

end

/-! ### The collection as one step -/

def waits (s : State) (full : Bool) : Bool := !full && (s.numCreatedValues + 1) &&& 255 != 0

/-- Where the marking of this collection begins, `P` holds. -/
def AtMarking (P : State → List Ref → Prop) (s : State) (full limit : Bool) : Prop := s.waits full = false →
  (full || limit) = true → ∀ u cells, s.freeCandidates unlink = some u → u.candidateCells = some cells →
  P u cells

/-- **No candidate is unlinked through the head of a chain that begins with another one.** -/
def UnlinksHeads (s : State) (full : Bool) : Prop :=
  s.waits full = false → (s.freeCandidates unlinkHead).isSome

instance (s : State) (full : Bool) : Decidable (s.UnlinksHeads full) := by
  unfold UnlinksHeads
  infer_instance

/-- **No candidate that the loop is about to free is a function that runs.** -/
def SparesRunning (s : State) (full : Bool) : Prop := s.waits full = false → (s.freeCandidates unlinkIdle).isSome

instance (s : State) (full : Bool) : Decidable (s.SparesRunning full) := by
  unfold SparesRunning
  infer_instance

end State

def Formed (v : Values) : Prop := v.chains = [] ∧ v.headMask = 0 ∨ v.chains.length = v.headMask + 1

/-- **What holds of a core outside a collection**: counters, tables and owners fit together, up to the credit `c` of the
operation that runs. -/
structure Ready (s : State) (E : Obj → Prop) (c : Obj → Int) (cs : List Ref) : Prop where
  sound : Sound s E c cs
  fix : s.gcFixInProgress = false
  listed : Listed s
  hostKinds : HostKinds s
  formed : Formed s.values
  known : ∀ r, 0 < s.owned (.value r) → r < s.values.nextId

theorem State.SameOutside.known (h : SameOutside s t) (hk : ∀ r, 0 < s.owned (.value r) → r < s.values.nextId) :
    ∀ r, 0 < t.owned (.value r) → r < t.values.nextId := by
  intro r hr
  rw [h.nextId]
  exact hk r (h.held _ hr)

theorem State.SameOutside.formed (h : SameOutside s t) (hf : Formed s.values) : Formed t.values := by
  obtain ⟨hlen, hmask⟩ := h.size
  rcases hf with ⟨h1, h2⟩ | h1
  · refine Or.inl ⟨List.length_eq_zero_iff.1 ?_, hmask.trans h2⟩
    rw [hlen, h1]
    rfl
  · exact Or.inr (by rw [hlen, hmask, h1])

namespace State

/-- **What a collection does.** -/
structure Collected (s t : State) (E : Obj → Prop) (cs ds : List Ref) (full limit : Bool) : Prop where
  ready : ∃ E', Ready t E' 0 ds
  same : SameOutside s t
  closed : AtMarking KeptWhole s full limit → s.SparesRunning full → Closed s → Closed t
  exact : AtMarking KeptAfter s full limit → Sound t E 0 ds
  complete : s.UnlinksHeads full → Complete s cs → Complete t ds

/-- The first part of a collection, with what it does to the candidates when none is lost. -/
theorem freeCandidates_ready (h : Ready s E 0 cs) (ht : s.freeCandidates State.unlink = some t) :
    ∃ ds, Ready t E 0 ds ∧ SameOutside s t ∧ ((s.freeCandidates unlinkHead).isSome → Complete s cs → Complete t ds) := by
  have hboth : ∃ (check : Check) (u : State) (ds : List Ref),
      u = { s with gcStepType := s.gcStepType + 1, gcStep := u.gcStep } ∧ LoopSteps check E (u, cs) (t, ds) ∧
      Sound t E 0 ds ∧ t.gcFixInProgress = false ∧ ((s.freeCandidates unlinkHead).isSome → check = .head) := by
    by_cases hh : (s.freeCandidates unlinkHead).isSome
    · obtain ⟨u, ds, hu, -, hsteps, hsound, hfix⟩ := freeCandidates_checked_steps unlinks_unlinkHead h.sound h.fix hh ht
      exact ⟨.head, u, ds, hu, hsteps, hsound, hfix, fun _ => rfl⟩
    · obtain ⟨u, ds, hu, -, -, hsteps, hsound, hfix⟩ := freeCandidates_steps unlinks_unlink h.sound h.fix ht
      exact ⟨.code, u, ds, hu, hsteps, hsound, hfix, fun hn => absurd hn hh⟩
  obtain ⟨check, u, ds, hu, hsteps, hsound, hfix, hcheck⟩ := hboth
  have hsu : SameOutside s u := by
    rw [hu]
    exact ⟨rfl, rfl, rfl, rfl, rfl, ⟨rfl, rfl⟩, fun _ h => h⟩
  have hlu : Listed u := by
    rw [hu]
    exact h.listed
  have hsame := hsu.trans hsteps.same
  refine ⟨ds, ⟨hsound, hfix, hsteps.listed hlu, ?_, hsame.formed h.formed, hsame.known h.known⟩, hsame, fun hh hc => ?_⟩
  · intro o ho
    rw [hsame.host] at ho
    exact h.hostKinds o ho
  · obtain rfl := hcheck hh
    have hcu : Complete u cs := by
      rw [hu]
      exact ⟨hc.zeros, hc.count⟩
    exact hsteps.complete hcu

/-- **The first part of a collection frees nothing that is referred to**, when it frees no function that runs. -/
theorem freeCandidates_closed (h : Ready s E 0 cs) (hrun : (s.freeCandidates unlinkIdle).isSome)
    (ht : s.freeCandidates State.unlink = some t) (hc : Closed s) : Closed t := by
  obtain ⟨u, ds, hu, hst, hsteps, -, -⟩ := freeCandidates_checked_steps unlinks_unlinkIdle h.sound h.fix hrun ht
  have hcu : Closed u := by
    rw [hu]
    exact ⟨hc.values, hc.stack, hc.frames⟩
  exact (hsteps.closed ⟨hcu, hst⟩).1

theorem markAndSweep_ready (h : Ready s E 0 cs) (ht : s.markAndSweep = some t) : ∃ cells ds, s.candidateCells = some cells ∧
    (∃ E', Ready t E' 0 ds) ∧ SameOutside s t ∧ (KeptWhole s cells → Closed s → Closed t) ∧ (KeptAfter s cells → Sound t E 0 ds) ∧
    (Complete s cs → Complete t ds) := by
  unfold markAndSweep at ht
  obtain ⟨cells, hcells, ht⟩ := Option.bind_eq_some_iff.1 ht
  obtain ⟨u, hu, ht⟩ := Option.bind_eq_some_iff.1 ht
  obtain ⟨hm, hsu⟩ := markAll_marked h.sound hu
  have hheads : u.candidates.heads.isSome := by
    rw [hm.frame]
    cases hh : s.candidates.heads with
    | none => simp [candidateCells, hh] at hcells
    | some heads => rfl
  have hframe := hm.frame
  have hreached : ∀ o, u.Reached cells o ↔ s.Reached cells o := by
    intro o
    rw [hframe]
    exact Iff.rfl
  have hstart : SweepStart { u with gcFixInProgress := true } cells :=
    ⟨fun o => (hm.marks o).trans (hreached o).symm, rfl, hheads⟩
  have hlisted : Listed u := by
    rw [hframe]
    exact h.listed
  have hkinds : HostKinds u := by
    rw [hframe]
    exact h.hostKinds
  obtain ⟨ds, dead, hsw⟩ := sweep_swept hsu hstart hlisted ht
  obtain ⟨E', hsound⟩ := hsw.sound
  have hsame : SameOutside s u := by
    rw [hframe]
    exact ⟨rfl, rfl, rfl, rfl, rfl, ⟨rfl, rfl⟩, fun _ h => h⟩
  have hwhole := hsame.trans hsw.same
  refine ⟨cells, ds, hcells, ⟨E', hsound, hsw.fix, hsw.listed, fun o ho => ?_, hwhole.formed h.formed, hwhole.known h.known⟩,
    hwhole, fun hk hc => ?_,
    fun hk => hsw.exact ?_, fun hc => hsw.complete ?_⟩
  · rw [hsw.same.host] at ho
    exact hkinds o ho
  · refine hsw.closed ?_ hkinds ?_
    · rw [hframe]
      exact hk
    · rw [hframe]
      exact ⟨hc.values, hc.stack, hc.frames⟩
  · have hholds : ∀ l, u.holds (.locals l) = s.holds (.locals l) := fun l => by rw [hframe]; rfl
    intro xs ys v g r h1 h2 h3 h4 h5 h6 h7 o h8 h9
    refine hk xs ys v g r ?_ h2 ?_ (fun hr => h4 ((hreached _).2 hr)) (fun ha => h5 ?_) (fun hr => h6 ((hreached _).2 hr)) ?_ o h8
      (h9.congr hholds)
    · rw [← h1, hframe]
    · rw [← h3, hframe]
    · rw [hframe]
      exact ha
    · rw [hframe] at h7
      exact h7
  · rw [hframe]
    exact ⟨hc.zeros, hc.count⟩

/-- **One collection.** -/
theorem gcFreeCandidateValues_collected {full limit : Bool} (h : Ready s E 0 cs)
    (ht : s.gcFreeCandidateValues full limit = some t) : ∃ ds, Collected s t E cs ds full limit := by
  unfold gcFreeCandidateValues at ht
  split at ht
  · rename_i hw
    obtain rfl := Option.some.inj ht
    exact ⟨cs, ⟨E, h⟩, .refl _, fun _ _ hc => hc, fun _ => h.sound, fun _ hc => hc⟩
  · rename_i hw
    have hwaits : s.waits full = false := by simpa [waits] using hw
    obtain ⟨u, hu, ht⟩ := Option.bind_eq_some_iff.1 ht
    obtain ⟨ds, hru, hsu, hcompu⟩ := freeCandidates_ready h hu
    have hcu := fun hrun : s.SparesRunning full => freeCandidates_closed h (hrun hwaits) hu
    split at ht
    · rename_i hmark
      obtain ⟨cells, es, hcells, hrt, hst, hct, het, hcompt⟩ := markAndSweep_ready hru ht
      exact ⟨es, hrt, hsu.trans hst, fun hk hrun hc => hct (hk hwaits hmark u cells hu hcells) (hcu hrun hc),
        fun hk => het (hk hwaits hmark u cells hu hcells), fun hh hc => hcompt (hcompu (hh hwaits) hc)⟩
    · obtain rfl := Option.some.inj ht
      exact ⟨ds, ⟨E, hru⟩, hsu, fun _ hrun hc => hcu hrun hc, fun _ => hru.sound, fun hh hc => hcompu (hh hwaits) hc⟩

end State

end Gc
end ObjectScript
