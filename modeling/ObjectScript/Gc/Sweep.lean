import ObjectScript.Gc.Mark
/-!
# The sweep

`Sweeping s₀ todo dead s` is what holds while the values `todo` are still to be visited and `dead` have been cleared.
A value that no root reaches survives only when it has external references at its turn; what it refers to is not marked
for it, and a value swept before it does not count it down.  `KeptWhole` and `KeptAfter` say that neither does harm:
with the first, nothing that is referred to is freed (`Sweeping.closed`), with the second, every counter stays exact
(`Sweeping.inexact`).
-/
namespace ObjectScript
namespace Gc

open Links
open ObjectScript.Core (Ref)

variable {s t : State} {E : Obj → Prop} {c : Obj → Int} {cs ds : List Ref}

namespace State

/-- The host, a value that is reached or locals that are reached hold `o`. -/
def HeldByReached (s : State) (cells : List Ref) (o : Obj) : Prop :=
  o ∈ s.host ∨ (∃ v, s.Reached cells (.value v) ∧ o ∈ s.holds (.value v)) ∨
    ∃ l, s.Reached cells (.locals l) ∧ o ∈ s.holds (.locals l)

/-- **An external reference to `r` outlives the sweep**: the host has it, userdata that is reached, or a program that the
host or a reached function or reached locals hold. -/
def Anchored (s : State) (cells : List Ref) (r : Ref) : Prop :=
  s.HeldByReached cells (.external r) ∨
    ∃ p strings, s.program p = some strings ∧ r ∈ strings ∧ s.HeldByReached cells (.program p)

/-- **What an externally held value refers to is reached, or externally held itself**, when no root reaches the value. -/
def KeptWhole (s : State) (cells : List Ref) : Prop := ∀ v g, s.value v = some g → ¬ s.Reached cells (.value v) →
  0 < s.refCount (.external v) → ∀ o ∈ g.fields, s.Reached cells o ∨ ∃ f, o = .value f ∧ s.Anchored cells f

/-- **A value that no root reaches and that is not anchored refers to no externally held value after it in the table**,
unless that one is reached. -/
def KeptAfter (s : State) (cells : List Ref) : Prop := ∀ xs ys v g r, s.values.order = xs ++ v :: ys → r ∈ ys →
  s.value v = some g → ¬ s.Reached cells (.value v) → ¬ s.Anchored cells v → ¬ s.Reached cells (.value r) →
  0 < s.refCount (.external r) → ∀ o ∈ g.held, ¬ s.Under o (.value r)

def HostKinds (s : State) : Prop := ∀ o ∈ s.host, (∃ r, o = .external r) ∨ ∃ p, o = .program p

def Listed (s : State) : Prop := ∀ r, (s.value r).isSome → r ∈ s.values.order

end State

open State

/-- Where a sweep starts: the marks are what is reached. -/
structure SweepStart (s₀ : State) (cells : List Ref) : Prop where
  marks : ∀ o, s₀.gcStep o = s₀.gcStepType ↔ s₀.Reached cells o
  fix : s₀.gcFixInProgress = true
  heads : s₀.candidates.heads.isSome

/-- **What holds in the middle of a sweep.** -/
structure Sweeping (s₀ : State) (cells : List Ref) (E₀ : Obj → Prop) (todo dead : List Ref) (s : State) (E : Obj → Prop) (cs : List Ref) :
    Prop where
  sound : Sound s E 0 cs
  fix : s.gcFixInProgress = true
  heads : s.candidates.heads.isSome
  stack : s.stack = s₀.stack
  callStack : s.callStack = s₀.callStack
  root : s.root = s₀.root
  host : s.host = s₀.host
  gcStepType : s.gcStepType = s₀.gcStepType
  nextId : s.values.nextId = s₀.values.nextId
  size : s.values.chains.length = s₀.values.chains.length ∧ s.values.headMask = s₀.values.headMask
  value : ∀ r, s.value r = if r ∈ dead then some .cleared else s₀.value r
  locals : ∀ l loc, s.locals l = some loc → s₀.locals l = some loc
  program : ∀ p strings, s.program p = some strings → s₀.program p = some strings
  external : ∀ r, s.refCount (.external r) ≤ s₀.refCount (.external r)
  marked : ∀ o, s₀.Reached cells o → s.gcStep o = s.gcStepType
  gone : ∀ r ∈ dead, ¬ s₀.Reached cells (.value r) ∧ ¬ s₀.Anchored cells r ∧ r ∉ s.values.order ∧
    s.refCount (.external r) ≤ 0
  dead_nodup : dead.Nodup
  dead_live : ∀ r ∈ dead, (s₀.value r).isSome
  listed : ∀ r, (s₀.value r).isSome → r ∈ s.values.order ∨ r ∈ dead
  todo_listed : ∀ r ∈ todo, r ∈ s.values.order
  suffix : ∃ done, s₀.values.order = done ++ todo
  stamped : ∀ r, s.gcStep (.value r) = s.gcStepType → s₀.Reached cells (.value r) ∨ 0 < s₀.refCount (.external r)
  kept : ∀ r, (s₀.value r).isSome → r ∉ todo → r ∉ dead → s.gcStep (.value r) = s.gcStepType
  inexact : s₀.KeptAfter cells → ∀ r, (s₀.value r).isSome → E₀ (.value r) → ¬ E (.value r) → r ∈ dead ∨
    r ∈ todo ∧ ¬ s₀.Reached cells (.value r) ∧ s₀.refCount (.external r) ≤ 0

namespace Sweeping

variable {s₀ : State} {cells todo dead : List Ref} {E₀ : Obj → Prop}

theorem value_of_reached (h : Sweeping s₀ cells E₀ todo dead s E cs) {r : Ref} (hr : s₀.Reached cells (.value r)) :
    s.value r = s₀.value r := by
  rw [h.value, if_neg fun hd => (h.gone r hd).1 hr]

theorem parents_live (h : Sound s E c cs) : ∀ (ls : List LocalsRef) (l : LocalsRef) (loc : Locals), s.locals l = some loc →
    loc.parents = ls → ∀ p ∈ ls, (s.locals p).isSome
  | [], _, _, _, _, p, hp => by cases hp
  | q :: ls, l, loc, hl, hls, p, hp => by
    obtain ⟨lq, hq, hpar⟩ := h.lineage l loc hl q ls hls
    rcases List.mem_cons.1 hp with rfl | hp
    · rw [hq]
      rfl
    · exact parents_live h ls q lq hq hpar p hp

theorem mem_held_locals {g : GCValue} {l : LocalsRef} (h : Obj.locals l ∈ g.fields) : Obj.locals l ∈ g.held := by
  unfold GCValue.fields at h
  unfold GCValue.held
  have hno : ∀ v : Slot, Obj.locals l ∉ holding v := by
    intro v hv
    simp [holding] at hv
  have htab : ∀ table : List (Slot × Slot), Obj.locals l ∉ table.flatMap fun p => holding p.1 ++ holding p.2 := by
    intro table hmem
    obtain ⟨p, -, hp⟩ := List.mem_flatMap.1 hmem
    rcases List.mem_append.1 hp with hp | hp
    · exact hno _ hp
    · exact hno _ hp
  have hall : ∀ vs : List Slot, Obj.locals l ∉ holdingAll vs := by
    intro vs hmem
    obtain ⟨v, -, hv⟩ := List.mem_flatMap.1 hmem
    exact hno v hv
  cases hp : g.payload with
  | function prog upvalue env self locals =>
    rw [hp] at h
    simp only [List.mem_append, hno, htab, false_or] at h
    simp only [List.mem_append]
    grind
  | _ =>
    rw [hp] at h
    simp [hno, htab, hall] at h

theorem locals_of_reached (h : Sweeping s₀ cells E₀ todo dead s E cs)
    (hbounded : ∀ r, (s₀.value r).isSome → r < s₀.values.nextId) {o : Obj} (ho : s₀.Reached cells o) :
    ∀ l, o = .locals l → (s.locals l).isSome := by
  have hown : ∀ l, 0 < s.owned (.locals l) → (s.locals l).isSome := fun l hl => h.sound.rooted _ id hl
  obtain ⟨root, hroot, hpath⟩ := ho
  have hreach : ∀ {p}, Relation.ReflTransGen (Marking.Edge s₀.fields) root p → s₀.Reached cells p :=
    fun hp => ⟨root, hroot, hp⟩
  induction hpath with
  | refl =>
    rintro l rfl
    -- a root that is locals belongs to a frame
    refine hown l (owned_pos_of_outside ?_)
    unfold State.markRoots at hroot
    have hno : ∀ v : Slot, Obj.locals l ∉ holding v := fun v hv => by simp [holding] at hv
    have hall : ∀ vs : List Slot, Obj.locals l ∉ holdingAll vs := by
      intro vs hmem
      obtain ⟨v, -, hv⟩ := List.mem_flatMap.1 hmem
      exact hno v hv
    simp only [List.mem_append, List.mem_flatMap, hno, hall, and_false, exists_false, false_or, List.mem_map,
      reduceCtorEq, or_false] at hroot
    obtain ⟨f, hf, hmem⟩ := hroot
    unfold StackFunction.fields at hmem
    simp only [List.mem_cons, List.mem_append, hno, hall, reduceCtorEq, false_or, or_false, List.not_mem_nil] at hmem
    unfold State.outside
    rw [h.callStack]
    refine List.mem_append_left _ (List.mem_append_right _ (List.mem_flatMap.2 ⟨f, hf, ?_⟩))
    rw [hmem]
    exact List.mem_cons_self
  | @tail p q hp hedge ih =>
    rintro l rfl
    obtain ⟨os, hos, hmem⟩ := hedge
    cases p with
    | value v =>
      simp only [State.fields, Option.map_eq_some_iff] at hos
      obtain ⟨g, hg, rfl⟩ := hos
      have hv := h.value_of_reached (hreach hp)
      refine hown l (owned_pos_of_holds (h := .value v) ?_ ?_)
      · rw [mem_objects]
        rw [h.nextId]
        exact hbounded v (by rw [hg]; rfl)
      · simp only [State.holds, hv, hg]
        exact mem_held_locals hmem
    | locals k =>
      simp only [State.fields, Option.map_eq_some_iff] at hos
      obtain ⟨loc, hk, rfl⟩ := hos
      obtain ⟨loc', hk'⟩ := Option.isSome_iff_exists.1 (ih k rfl)
      obtain rfl : loc' = loc := Option.some.inj ((h.locals k loc' hk').symm.trans hk)
      unfold Locals.fields at hmem
      rcases List.mem_append.1 hmem with hmem | hmem
      · obtain ⟨v, -, hv⟩ := List.mem_flatMap.1 hmem
        simp [holding] at hv
      · obtain ⟨q, hq, heq⟩ := List.mem_map.1 hmem
        cases heq
        exact parents_live h.sound _ k loc' hk' rfl l hq
    | external r =>
      obtain rfl := Option.some.inj hos
      cases hmem
    | program q =>
      obtain rfl := Option.some.inj hos
      cases hmem

/-- What a reached object or the host holds still is held. -/
theorem owned_of_heldByReached (h : Sweeping s₀ cells E₀ todo dead s E cs)
    (hbounded : ∀ r, (s₀.value r).isSome → r < s₀.values.nextId) (hlocals : ∀ l, (s.locals l).isSome → l < s.nextLocals)
    {o : Obj} (ho : s₀.HeldByReached cells o) : 0 < s.owned o := by
  rcases ho with ho | ⟨v, hr, hmem⟩ | ⟨l, hr, hmem⟩
  · refine owned_pos_of_outside ?_
    unfold State.outside
    rw [h.host]
    exact List.mem_append_right _ ho
  · have hv := h.value_of_reached hr
    refine owned_pos_of_holds (h := .value v) ?_ (by simp only [State.holds, hv]; exact hmem)
    rw [mem_objects, h.nextId]
    refine hbounded v ?_
    cases hg : s₀.value v with
    | none => simp [State.holds, hg] at hmem
    | some g => rfl
  · obtain ⟨loc, hl⟩ := Option.isSome_iff_exists.1 (h.locals_of_reached hbounded hr l rfl)
    refine owned_pos_of_holds (h := .locals l) ((mem_objects _).2 (hlocals l (by rw [hl]; rfl))) ?_
    have := h.locals l loc hl
    simp only [State.holds, this, hl] at hmem ⊢
    exact hmem

/-- **An anchored value has an external reference.** -/
theorem external_pos (h : Sweeping s₀ cells E₀ todo dead s E cs)
    (hbounded : ∀ r, (s₀.value r).isSome → r < s₀.values.nextId) {r : Ref} (hr : s₀.Anchored cells r) :
    0 < s.refCount (.external r) ∧ (s.value r).isSome := by
  have hown : 0 < s.owned (.external r) := by
    rcases hr with hr | ⟨p, strings, hp, hmem, hheld⟩
    · exact h.owned_of_heldByReached hbounded h.sound.bounded_locals hr
    · have hpos := h.owned_of_heldByReached hbounded h.sound.bounded_locals hheld
      obtain ⟨strings', hp'⟩ := Option.isSome_iff_exists.1 (live_program.1 (h.sound.rooted _ id hpos))
      obtain rfl : strings' = strings := Option.some.inj ((h.program p strings' hp').symm.trans hp)
      refine owned_pos_of_holds (h := .program p) ((mem_objects _).2 (h.sound.bounded_program p (by rw [hp']; rfl))) ?_
      simp only [State.holds, hp', Option.elim_some]
      exact List.mem_map_of_mem hmem
  have hlive := h.sound.rooted _ id hown
  have := h.sound.exact _ hlive (h.sound.exact_others _ id)
  refine ⟨?_, hlive⟩
  rw [this]
  simp only [Pi.zero_apply]
  omega

/-! ## One value of the sweep -/

/-- A value that is marked, or gets the mark because of its external references, stays. -/
theorem visited {r : Ref} (h : Sweeping s₀ cells E₀ (r :: todo) dead s E cs) {f : Obj → Nat}
    (hstep : ∀ o, f o = s.gcStep o ∨ o = .value r ∧ 0 < s.refCount (.external r) ∧ f o = s.gcStepType)
    (hr : f (.value r) = s.gcStepType) : Sweeping s₀ cells E₀ todo dead { s with gcStep := f } E cs := by
  have hstamped : ∀ q, f (.value q) = s.gcStepType → s₀.Reached cells (.value q) ∨ 0 < s₀.refCount (.external q) := by
    intro q hq
    rcases hstep (.value q) with h1 | ⟨heq, hpos, -⟩
    · exact h.stamped q (h1 ▸ hq)
    · cases heq
      exact Or.inr (Int.lt_of_lt_of_le hpos (h.external r))
  refine ⟨h.sound.retable rfl h.sound.candidates h.sound.candidates_live fun o => ?_, h.fix, h.heads, h.stack, h.callStack, h.root,
    h.host, h.gcStepType, h.nextId, h.size, h.value, h.locals, h.program, h.external, fun o ho => ?_, h.gone, h.dead_nodup,
    h.dead_live, h.listed, fun q hq => h.todo_listed q (List.mem_cons_of_mem _ hq), ?_, hstamped, fun q hq hq' hd => ?_,
    fun hafter q hq hE₀ hE => ?_⟩
  · rcases hstep o with h1 | ⟨-, -, h1⟩
    · exact Nat.le_trans (Nat.le_of_eq h1) (h.sound.steps o)
    · exact Nat.le_of_eq h1
  · rcases hstep o with h1 | ⟨-, -, h1⟩
    · exact h1.trans (h.marked o ho)
    · exact h1
  · obtain ⟨done, hdone⟩ := h.suffix
    exact ⟨done ++ [r], by rw [hdone, List.append_assoc]; rfl⟩
  · by_cases hqr : q = r
    · subst hqr
      exact hr
    · have hkept := h.kept q hq (by rw [List.mem_cons, not_or]; exact ⟨hqr, hq'⟩) hd
      rcases hstep (.value q) with h1 | ⟨-, -, h1⟩
      · exact h1.trans hkept
      · exact h1
  · rcases h.inexact hafter q hq hE₀ hE with hd | ⟨hmem, hnr, hext⟩
    · exact Or.inl hd
    · rcases List.mem_cons.1 hmem with rfl | hmem
      · rcases hstamped q hr with h1 | h1
        · exact absurd h1 hnr
        · omega
      · exact Or.inr ⟨hmem, hnr, hext⟩

/-- A value that is not marked and has no external references is cleared. -/
theorem swept {r : Ref} (h : Sweeping s₀ cells E₀ (r :: todo) dead s E cs)
    (hbounded : ∀ r, (s₀.value r).isSome → r < s₀.values.nextId) (hnodup : s₀.values.order.Nodup)
    (hstep : s.gcStep (.value r) ≠ s.gcStepType) (hext : ¬ 0 < s.refCount (.external r)) (ht : s.clearValue r = some t) :
    ∃ E' ds, Effect (s.setValueAt r (some .cleared)) t cs ds ∧
      Sweeping s₀ cells E₀ todo (r :: dead) { t with values := t.values.unregister r } E' ds := by
  obtain ⟨g, hg, ds, heff, hsound⟩ := h.sound.clearValue ht
  rw [spend_earn] at hsound
  have hord : r ∈ s.values.order := h.todo_listed r List.mem_cons_self
  have hrd : r ∉ dead := fun hd => (h.gone r hd).2.2.1 hord
  have hg₀ : s₀.value r = some g := by
    have := h.value r
    rwa [if_neg hrd, hg, eq_comm] at this
  have hnr : ¬ s₀.Reached cells (.value r) := fun hm => hstep (h.marked _ hm)
  have hna : ¬ s₀.Anchored cells r := fun ha => hext (h.external_pos hbounded ha).1
  have hle : ∀ o, t.refCount o ≤ s.refCount o := heff.refCount
  have htype : t.gcStepType = s.gcStepType := heff.gcStepType
  have hvals : t.values = s.values := heff.values
  have hvalue : t.value = Function.update s.value r (some .cleared) := heff.value
  have hst : ∀ o, t.gcStep o = s.gcStep o ∨ ∃ q, o = .value q ∧ t.gcStep o = s.gcStepType ∧
      (s.gcStep o = s.gcStepType ∨ 0 < s.refCount (.external q)) := by
    intro o
    rcases heff.step o with h1 | ⟨q, rfl, hq, hq', h1⟩
    · exact Or.inl h1
    · refine Or.inr ⟨q, rfl, h1, ?_⟩
      rcases (heff.registered q hq hq').2.2 with ⟨hskip, -⟩ | hpos
      · refine Or.inl ?_
        have hfix : (s.setValueAt r (some .cleared)).gcFixInProgress = true := h.fix
        unfold State.skips at hskip
        rw [hfix, Bool.true_and, bne_eq_false_iff_eq] at hskip
        exact hskip
      · exact Or.inr hpos
  have hmem : ∀ q, q ∈ (t.values.unregister r).order ↔ q ∈ s.values.order ∧ q ≠ r := by
    intro q
    rw [hvals]
    exact Sound.mem_order_unregister h.sound.nodup r q
  have hstamped : ∀ q, t.gcStep (.value q) = t.gcStepType → s₀.Reached cells (.value q) ∨ 0 < s₀.refCount (.external q) := by
    intro q hq
    rw [htype] at hq
    rcases hst (.value q) with h1 | ⟨p, heq, -, h2 | h2⟩
    · exact h.stamped q (h1 ▸ hq)
    · exact h.stamped q h2
    · cases heq
      exact Or.inr (Int.lt_of_lt_of_le h2 (h.external q))
  obtain ⟨done, hdone⟩ := h.suffix
  have hnd : (r :: todo).Nodup := by
    rw [hdone] at hnodup
    exact (List.nodup_append.1 hnodup).2.1
  refine ⟨_, ds, heff, hsound.unlist r, heff.gcFixInProgress.trans h.fix,
    heff.grown.heads h.sound.candidates hsound.candidates h.heads, heff.stack.trans h.stack, heff.callStack.trans h.callStack,
    heff.root.trans h.root, heff.host.trans h.host, htype.trans h.gcStepType, ?_, ?_, fun q => ?_,
    fun l loc hl => h.locals l loc (heff.locals l loc hl), fun p ss hp => h.program p ss (heff.program p ss hp),
    fun q => Int.le_trans (hle _) (h.external q), fun o ho => ?_, fun q hq => ?_, List.nodup_cons.2 ⟨hrd, h.dead_nodup⟩,
    fun q hq => ?_, fun q hq => ?_, fun q hq => ?_, ⟨done ++ [r], by rw [hdone, List.append_assoc]; rfl⟩, hstamped,
    fun q hq hq' hd => ?_, fun hafter q hq hE₀ hE => ?_⟩
  · have : (t.values.unregister r).nextId = t.values.nextId := rfl
    rw [this, hvals]
    exact h.nextId
  · have hlen : (t.values.unregister r).chains.length = t.values.chains.length := List.length_map ..
    refine ⟨hlen.trans ?_, ?_⟩
    · rw [hvals]
      exact h.size.1
    · have hmask : (t.values.unregister r).headMask = t.values.headMask := rfl
      rw [hmask, hvals]
      exact h.size.2
  · show t.value q = _
    rw [hvalue]
    by_cases hqr : q = r
    · subst hqr
      rw [Function.update_self, if_pos List.mem_cons_self]
    · rw [Function.update_of_ne hqr, h.value]
      simp [hqr]
  · rcases hst o with h1 | ⟨q, -, h1, -⟩
    · exact h1.trans ((h.marked o ho).trans htype.symm)
    · exact h1.trans htype.symm
  · rcases List.mem_cons.1 hq with rfl | hq
    · refine ⟨hnr, hna, fun hm => ((hmem q).1 hm).2 rfl, ?_⟩
      have := hle (.external q)
      exact Int.le_trans this (by omega)
    · obtain ⟨h1, h2, h3, h4⟩ := h.gone q hq
      exact ⟨h1, h2, fun hm => h3 ((hmem q).1 hm).1, Int.le_trans (hle _) h4⟩
  · rcases List.mem_cons.1 hq with rfl | hq
    · rw [hg₀]
      rfl
    · exact h.dead_live q hq
  · by_cases hqr : q = r
    · subst hqr
      exact Or.inr List.mem_cons_self
    · rcases h.listed q hq with h1 | h1
      · exact Or.inl ((hmem q).2 ⟨h1, hqr⟩)
      · exact Or.inr (List.mem_cons_of_mem _ h1)
  · refine (hmem q).2 ⟨h.todo_listed q (List.mem_cons_of_mem _ hq), ?_⟩
    rintro rfl
    exact (List.nodup_cons.1 hnd).1 hq
  · rw [List.mem_cons, not_or] at hd
    have hkept := h.kept q hq (by rw [List.mem_cons, not_or]; exact ⟨hd.1, hq'⟩) hd.2
    rcases hst (.value q) with h1 | ⟨p, -, h1, -⟩
    · exact h1.trans (hkept.trans htype.symm)
    · exact h1.trans htype.symm
  · by_cases hEq : E (.value q)
    · -- the count of `q` was left alone: it is still to be swept
      have hsk : (s.setValueAt r (some .cleared)).Skipped (.value q) ∧
          ∃ p ∈ g.held, (s.setValueAt r (some .cleared)).Under p (.value q) := by
        by_contra hn
        exact hE ⟨hEq, hn⟩
      obtain ⟨⟨q', heq, hskip⟩, p, hp, hunder⟩ := hsk
      cases heq
      have hunstamped : s.gcStep (.value q) ≠ s.gcStepType := by
        unfold State.skips at hskip
        simp only [Bool.and_eq_true, bne_iff_ne] at hskip
        exact hskip.2
      by_cases hqd : q ∈ dead
      · exact Or.inl (List.mem_cons_of_mem _ hqd)
      by_cases hqt : q ∈ r :: todo
      · rcases List.mem_cons.1 hqt with rfl | hqt
        · exact Or.inl List.mem_cons_self
        · have hqr : ¬ s₀.Reached cells (.value q) := fun hm => hunstamped (h.marked _ hm)
          refine Or.inr ⟨hqt, hqr, ?_⟩
          by_contra hpos
          refine hafter done todo r g q hdone hqt hg₀ hnr hna hqr (by omega) p hp ?_
          -- what lies under `p` did so at the start
          have hmono : ∀ {o o' : Obj}, (s.setValueAt r (some .cleared)).Under o o' → s₀.Under o o' := by
            intro o o' hu
            induction hu with
            | self o => exact .self o
            | @locals l o q hmem _ ih =>
              refine .locals (o := o) ?_ ih
              have hmem' : o ∈ s.holds (.locals l) := hmem
              simp only [State.holds] at hmem' ⊢
              cases hl : s.locals l with
              | none =>
                rw [hl] at hmem'
                cases hmem'
              | some loc =>
                rw [hl] at hmem'
                rw [h.locals l loc hl]
                exact hmem'
          exact hmono hunder
      · exact absurd (h.kept q hq hqt hqd) hunstamped
    · rcases h.inexact hafter q hq hE₀ hEq with hd | ⟨hqt, h1, h2⟩
      · exact Or.inl (List.mem_cons_of_mem _ hd)
      · rcases List.mem_cons.1 hqt with rfl | hqt
        · exact Or.inl List.mem_cons_self
        · exact Or.inr ⟨hqt, h1, h2⟩

/-! ## The whole sweep -/

theorem sweepValue (h : Sweeping s₀ cells E₀ (r :: todo) dead s E cs)
    (hbounded : ∀ r, (s₀.value r).isSome → r < s₀.values.nextId) (hnodup : s₀.values.order.Nodup) {dead' : List Ref}
    (ht : State.sweepValue (s, dead) r = some (t, dead')) :
    ∃ E' ds, Sweeping s₀ cells E₀ todo dead' t E' ds ∧ (Complete s cs → Complete t ds) := by
  unfold State.sweepValue at ht
  simp only at ht
  split at ht
  · rename_i hstep
    obtain ⟨rfl, rfl⟩ := Prod.mk.inj (Option.some.inj ht)
    exact ⟨E, cs, h.visited (f := s.gcStep) (fun _ => Or.inl rfl) hstep, id⟩
  · rename_i hstep
    split at ht
    · rename_i hext
      obtain ⟨rfl, rfl⟩ := Prod.mk.inj (Option.some.inj ht)
      refine ⟨E, cs, h.visited (fun o => ?_) (Function.update_self ..), fun hc => ⟨hc.zeros, hc.count⟩⟩
      by_cases ho : o = .value r
      · subst ho
        exact Or.inr ⟨rfl, hext, Function.update_self ..⟩
      · exact Or.inl (Function.update_of_ne ho _ _)
    · rename_i hext
      obtain ⟨u, hu, ht⟩ := Option.bind_eq_some_iff.1 ht
      obtain ⟨rfl, rfl⟩ := Prod.mk.inj (Option.some.inj ht)
      obtain ⟨E', ds, heff, hsw⟩ := h.swept hbounded hnodup hstep hext hu
      refine ⟨E', ds, hsw, fun hc => ?_⟩
      have hclear : Complete (s.setValueAt r (some .cleared)) cs := by
        refine ⟨fun q hq h1 h2 => hc.zeros q ?_ h1 h2, hc.count⟩
        by_cases hqr : q = r
        · subst hqr
          exact h.sound.ordered q (h.todo_listed q List.mem_cons_self)
        · simpa [State.setValueAt, Function.update_of_ne hqr] using hq
      have hu := hclear.effect heff
      exact ⟨hu.zeros, hu.count⟩

theorem sweepAll {s₀ : State} {cells : List Ref} (hbounded : ∀ r, (s₀.value r).isSome → r < s₀.values.nextId)
    (hnodup : s₀.values.order.Nodup) : ∀ (todo dead dead' : List Ref) (s t : State) (E : Obj → Prop) (cs : List Ref),
    Sweeping s₀ cells E₀ todo dead s E cs → todo.foldlM State.sweepValue (s, dead) = some (t, dead') →
    ∃ E' ds, Sweeping s₀ cells E₀ [] dead' t E' ds ∧ (Complete s cs → Complete t ds)
  | [], dead, dead', s, t, E, cs, h, ht => by
    obtain ⟨rfl, rfl⟩ := Prod.mk.inj (Option.some.inj ht)
    exact ⟨E, cs, h, id⟩
  | r :: todo, dead, dead', s, t, E, cs, h, ht => by
    rw [List.foldlM_cons] at ht
    obtain ⟨⟨u, dead1⟩, hu, ht⟩ := Option.bind_eq_some_iff.1 ht
    obtain ⟨E1, ds1, h1, hc1⟩ := h.sweepValue hbounded hnodup hu
    obtain ⟨E2, ds2, h2, hc2⟩ := sweepAll hbounded hnodup todo dead1 dead' u t E1 ds1 h1 ht
    exact ⟨E2, ds2, h2, fun hc => hc2 (hc1 hc)⟩

theorem start {s₀ : State} {cells : List Ref} (h : Sound s₀ E 0 cs) (hs : SweepStart s₀ cells) (hl : Listed s₀) :
    Sweeping s₀ cells E s₀.values.order [] s₀ E cs := by
  refine ⟨h, hs.fix, hs.heads, rfl, rfl, rfl, rfl, rfl, rfl, ⟨rfl, rfl⟩, fun _ => rfl, fun _ _ h => h, fun _ _ h => h, fun _ => Int.le_refl _,
    fun o ho => (hs.marks o).2 ho, fun r hr => (List.not_mem_nil hr).elim, List.nodup_nil, fun r hr => (List.not_mem_nil hr).elim,
    fun r hr => Or.inl (hl r hr), fun _ hr => hr, ⟨[], rfl⟩, fun r hr => Or.inl ((hs.marks _).1 hr),
    fun r hr hr' => absurd (hl r hr) hr', fun _ r _ hr hr' => absurd hr hr'⟩

end Sweeping

end Gc
end ObjectScript
