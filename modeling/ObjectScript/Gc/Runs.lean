import ObjectScript.Gc.Creation
/-!
# Runs of a core

A run of operations keeps a core ready.  What the collections of a run may do is asked of each of them: that what an
externally held value refers to is marked or externally held too and that the candidate loop frees no function that runs;
that no garbage value refers to an externally held one behind it in the table; and that the candidate loop unlinks through
the head of a chain only the candidate at its head.  Then no reference is ever to a freed value, the counters are exact,
and no candidate is lost.
-/
namespace ObjectScript
namespace Gc

open ObjectScript.Core (Ref)
open State

variable {s t u : State} {E : Obj → Prop} {c d : Obj → Int} {cs ds : List Ref}

/-! ## Calls and the host -/

theorem parentsOf_some {locals : Option LocalsRef} {parents : List LocalsRef} (h : s.parentsOf locals = some parents) :
    parents.head? = locals ∧ ∀ p ps, parents = p :: ps → ∃ lp, s.locals p = some lp ∧ lp.parents = ps := by
  cases locals with
  | none =>
    obtain rfl := Option.some.inj h
    exact ⟨rfl, by rintro p ps ⟨⟩⟩
  | some l =>
    obtain ⟨loc, hl, h⟩ := Option.bind_eq_some_iff.1 h
    obtain rfl := Option.some.inj h
    refine ⟨rfl, ?_⟩
    rintro p ps ⟨⟩
    exact ⟨loc, hl, rfl⟩

theorem enterFunction_keeps {startPos : Nat} {restArguments selfForProto : Slot} (h : Ready s E 0 cs)
    (ht : s.enterFunction startPos restArguments selfForProto = some t) : Keeps s t E cs := by
  unfold enterFunction at ht
  obtain ⟨v, hv, ht⟩ := Option.bind_eq_some_iff.1 ht
  obtain ⟨func, hfunc, ht⟩ := Option.bind_eq_some_iff.1 ht
  obtain ⟨g, hg, ht⟩ := Option.bind_eq_some_iff.1 ht
  have hvalue : (s.value func).isSome := Option.isSome_of_eq_some hg
  split at ht
  · rename_i prog upvalue env self locals hpayload
    obtain ⟨s₁, hs₁, ht⟩ := Option.bind_eq_some_iff.1 ht
    obtain ⟨s₂, hs₂, ht⟩ := Option.bind_eq_some_iff.1 ht
    obtain ⟨parents, hparents, ht⟩ := Option.bind_eq_some_iff.1 ht
    obtain ⟨s₃, hs₃, ht⟩ := Option.bind_eq_some_iff.1 ht
    obtain ⟨s₄, hs₄, ht⟩ := Option.bind_eq_some_iff.1 ht
    have ht' : s₄.addFrame prog upvalue parents func startPos restArguments selfForProto = t := Option.some.inj ht
    subst ht'
    obtain ⟨hhead, hlineage⟩ := parentsOf_some hparents
    have hall : (frameTaken prog parents restArguments selfForProto).foldlM retain s = some s₄ := by
      have hprog : [Obj.program prog].foldlM retain s₁ = some s₂ := by
        rw [List.foldlM_cons, hs₂]
        rfl
      rw [retainSlot_eq] at hs₁ hs₄
      rw [frameTaken, hhead, List.foldlM_append, List.foldlM_append, List.foldlM_append]
      simp only [hs₁, hprog, hs₃, hs₄, Option.bind_eq_bind, Option.bind_some]
    obtain ⟨h₁, hm₁, hlive, hframe⟩ := Ready.retainAll _ _ _ _ h hall
    have hlocals : s₂.locals = s₄.locals := by
      rw [retainSlot_eq] at hs₁
      have hf₁ := foldlM_retain_frame hs₁
      have hf₂ : s₂.locals = s₁.locals := by
        unfold retain at hs₂
        split at hs₂
        · obtain rfl := Option.some.inj hs₂
          rfl
        · cases hs₂
      rw [hf₂, hf₁, hframe]
    have hkeeps : Keeps s₄ (s₄.addFrame prog upvalue parents func startPos restArguments selfForProto) E cs := addFrame_keeps h₁
      (fun o ho => by
        rw [hframe]
        exact hlive o ho)
      (by
        rw [hframe]
        exact hvalue)
      (fun p ps hp => by
        rw [← hlocals]
        exact hlineage p ps hp)
    obtain ⟨ds, h₂, hm₂⟩ := hkeeps
    exact ⟨ds, h₂, hm₁.trans hm₂⟩
  · cases ht

theorem addSubFunc_keeps (h : Ready s E 0 cs) (k : Nat) : Keeps s (s.addSubFunc k) E cs := by
  have hx : Exchanged s (s.addSubFunc k) [] [] := by
    refine (exchanged_frames fun f hf => ?_).congr fun o => ?_
    · obtain ⟨x, hx, rfl | rfl⟩ := mem_modify hf
      · exact ⟨f, hx, rfl⟩
      · exact ⟨x, hx, rfl⟩
    · rw [List.count_nil, Nat.zero_add, Nat.add_zero]
      cases hk : s.callStack[k]? with
      | none => rw [List.modify_eq_self (List.getElem?_eq_none_iff.1 hk)]
      | some f =>
        have hcount := count_flatMap_set (f := StackFunction.held) (y := { f with subFuncs := f.subFuncs ++ [none] }) hk o
        have hsame : ({ f with subFuncs := f.subFuncs ++ [none] } : StackFunction).held = f.held := by
          simp only [StackFunction.held, holdingAll, List.flatMap_append, List.flatMap_singleton, holding, Option.toList_none,
            List.map_nil, List.append_nil]
        rw [hsame] at hcount
        rw [modify_eq_set hk]
        omega
  obtain ⟨h₁, hm₁⟩ := hx.give (c := 0) (by rw [earn_nil]; exact h) zero_nonneg (by rintro o ⟨⟩)
  exact ⟨cs, h₁, hm₁⟩

theorem retainString_keeps {r : Ref} (h : Ready s E 0 cs) (ht : s.retainString r = some t) : Keeps s t E cs := by
  unfold retainString at ht
  obtain ⟨s₁, hs₁, ht⟩ := Option.bind_eq_some_iff.1 ht
  obtain rfl := Option.some.inj ht
  have hrun : [Obj.external r].foldlM retain s = some s₁ := by
    rw [List.foldlM_cons, hs₁]
    rfl
  obtain ⟨h₁, hm₁, hlive, hframe⟩ := Ready.retainAll _ _ _ _ h hrun
  have hx : Exchanged s₁ { s₁ with host := .external r :: s₁.host } [] [.external r] := by
    refine (exchanged_host fun hk o ho => ?_).congr fun o => ?_
    · rcases List.mem_cons.1 ho with rfl | ho
      · exact .inl ⟨r, rfl⟩
      · exact hk o ho
    · rw [List.count_cons, List.count_singleton, List.count_nil]
      omega
  obtain ⟨h₂, hm₂⟩ := hx.give h₁ zero_nonneg fun o ho => by
    rw [hframe]
    exact hlive o ho
  exact ⟨cs, h₂, hm₁.trans hm₂⟩

theorem releaseHost_keeps {o : Obj} (h : Ready s E 0 cs) (ht : s.releaseHost o = some t) : Keeps s t E cs := by
  unfold releaseHost at ht
  split at ht
  · rename_i hmem
    have hx : Exchanged s { s with host := s.host.erase o } [o] [] := by
      refine (exchanged_host fun hk q hq => hk q (List.mem_of_mem_erase hq)).congr fun q => ?_
      have hperm := (List.perm_cons_erase hmem).count_eq q
      rw [List.count_cons] at hperm
      rw [List.count_singleton, List.count_nil]
      omega
    obtain ⟨h₁, hm₁⟩ := hx.take h
    have hrun : [o].foldlM State.release { s with host := s.host.erase o } = some t := by
      rw [List.foldlM_cons, ht]
      rfl
    obtain ⟨ds, h₂, hm₂, -⟩ := h₁.giveBack hrun
    exact ⟨ds, h₂, hm₁.trans hm₂⟩
  · cases ht

theorem captureLocals_keeps {stack : List Slot} {l : LocalsRef} (h : Ready s E c cs)
    (ht : s.captureLocals stack l = some t) : Ready t E c cs ∧ Moved s t cs cs := by
  unfold captureLocals at ht
  cases hl : s.locals l with
  | none =>
    rw [hl] at ht
    obtain rfl := Option.some.inj ht
    exact ⟨h, .refl _ _⟩
  | some loc =>
    rw [hl] at ht
    dsimp only at ht
    split at ht
    · rename_i pos hpos
      obtain ⟨s₁, hs₁, ht⟩ := Option.bind_eq_some_iff.1 ht
      obtain rfl := Option.some.inj ht
      have hrun : (holdingAll (captured stack pos loc.upvalue)).foldlM retain s = some s₁ := by
        rw [← hs₁]
        exact (foldlM_retainSlot _ _).symm
      obtain ⟨h₁, hm₁, hlive, hframe⟩ := Ready.retainAll _ _ _ _ h hrun
      have hl₁ : s₁.locals l = some loc := by
        rw [hframe]
        exact hl
      have hstack : loc.heapValues = [] := by
        unfold Locals.heapValues
        rw [hpos]
      have hnone : loc.upvalue.any id = false → holdingAll (captured stack pos loc.upvalue) = [] := by
        intro hany
        rw [List.any_eq_false] at hany
        refine List.flatMap_eq_nil_iff.2 fun v hv => ?_
        obtain ⟨p, hp, rfl⟩ := List.mem_map.1 hv
        have hfalse := hany p.1 (List.fst_mem_of_mem_zipIdx hp)
        rw [if_neg (by simpa using hfalse)]
        rfl
      have hx : Exchanged s₁ (s₁.setLocalsAt l (some { loc with
          values := if loc.upvalue.any id then .heap (captured stack pos loc.upvalue) else .none })) []
          (holdingAll (captured stack pos loc.upvalue)) := by
        refine (exchanged_locals hl₁ (h₁.sound.bounded_locals l (Option.isSome_of_eq_some hl₁)) (by rfl)).congr fun o => ?_
        have hheap : holdingAll ({ loc with values := if loc.upvalue.any id then .heap (captured stack pos loc.upvalue) else .none } :
            Locals).heapValues = holdingAll (captured stack pos loc.upvalue) := by
          cases hany : loc.upvalue.any id with
          | false => rw [hnone hany]; rfl
          | true => rfl
        unfold Locals.held
        rw [hheap, hstack]
        simp only [List.count_append, List.count_cons, List.count_nil, holdingAll, List.flatMap_nil]
        omega
      obtain ⟨h₂, hm₂⟩ := hx.give h₁ h.sound.credit fun o ho => by
        rw [hframe]
        exact hlive o ho
      exact ⟨h₂, hm₁.trans hm₂⟩
    · cases ht

theorem clearStackFunction_keeps {stack : List Slot} {f : StackFunction} (h : Ready s E (earn 0 f.held) cs)
    (ht : s.clearStackFunction stack f = some t) : Keeps s t E cs := by
  unfold clearStackFunction at ht
  obtain ⟨s₁, hs₁, ht⟩ := Option.bind_eq_some_iff.1 ht
  obtain ⟨s₂, hs₂, ht⟩ := Option.bind_eq_some_iff.1 ht
  have hfirst := count_le_earn zero_nonneg f.held (.locals f.locals)
  have hone : 1 ≤ f.held.count (.locals f.locals) := List.count_pos_iff.2 List.mem_cons_self
  obtain ⟨cs₁, h₁, hm₁, -⟩ := h.release (by omega) hs₁
  obtain ⟨h₂, hm₂⟩ := captureLocals_keeps h₁ hs₂
  have hcredit : spend (earn 0 f.held) [.locals f.locals] = earn 0 (holding f.arguments ++ holding f.restArguments ++
      holding f.selfForProto ++ holdingAll f.subFuncs) := by
    funext o
    simp only [spend, earn, StackFunction.held, List.count_cons, List.count_nil]
    omega
  rw [hcredit] at h₂
  have hback : (holding f.arguments ++ holding f.restArguments ++ holding f.selfForProto ++
      holdingAll f.subFuncs).foldlM State.release s₂ = some t := by
    obtain ⟨s₃, hs₃, ht⟩ := Option.bind_eq_some_iff.1 ht
    obtain ⟨s₄, hs₄, ht⟩ := Option.bind_eq_some_iff.1 ht
    obtain ⟨s₅, hs₅, ht⟩ := Option.bind_eq_some_iff.1 ht
    rw [releaseSlot_eq] at hs₃ hs₄ hs₅
    rw [foldlM_releaseSlot] at ht
    simp only [List.foldlM_append, hs₃, hs₄, hs₅, Option.bind_eq_bind, Option.bind_some, ht]
  obtain ⟨ds, h₃, hm₃, -⟩ := h₂.giveBack hback
  exact ⟨ds, h₃, hm₁.trans (hm₂.trans hm₃)⟩

theorem leaveFunction_keeps {written stack : List Slot} (h : Ready s E 0 cs)
    (ht : s.leaveFunction written stack = some t) : Keeps s t E cs := by
  unfold leaveFunction at ht
  obtain ⟨f, hf, ht⟩ := Option.bind_eq_some_iff.1 ht
  split at ht
  · obtain ⟨s₁, hs₁, ht⟩ := Option.bind_eq_some_iff.1 ht
    have hstack : s.callStack.dropLast ++ [f] = s.callStack := List.dropLast_append_getLast? f hf
    have hx : Exchanged s { s with callStack := s.callStack.dropLast } f.held [] := by
      refine (exchanged_frames fun f' hf' => ⟨f', List.mem_of_mem_dropLast hf', rfl⟩).congr fun o => ?_
      have hcount : (s.callStack.flatMap StackFunction.held).count o =
          (s.callStack.dropLast.flatMap StackFunction.held).count o + f.held.count o := by
        rw [← hstack, List.flatMap_append, List.flatMap_singleton, List.count_append, hstack]
      rw [List.count_nil]
      omega
    obtain ⟨h₁, hm₁⟩ := hx.take h
    obtain ⟨cs₁, h₂, hm₂⟩ := clearStackFunction_keeps h₁ hs₁
    obtain ⟨ds, h₃, hm₃⟩ := setStack_keeps h₂ ht
    exact ⟨ds, h₃, hm₁.trans (hm₂.trans hm₃)⟩
  · cases ht

/-! ## Steps -/

namespace Op

/-- What is asked of a step when it is a collection. -/
def AtCollection (P : State → Bool → Bool → Prop) (s : State) : Op → Prop
  | .gcFreeCandidateValues full limit => P s full limit
  | _ => True

end Op

/-- **An operation is a collection, or it does no harm.** -/
theorem step_cases {op : Op} (h : Ready s E 0 cs) (ht : s.step op = some t) :
    (∃ full limit, op = .gcFreeCandidateValues full limit ∧ s.gcFreeCandidateValues full limit = some t) ∨ Keeps s t E cs := by
  cases op with
  | gcFreeCandidateValues full limit => exact .inl ⟨full, limit, rfl, ht⟩
  | setStack stack => exact .inr (setStack_keeps h ht)
  | setValue place b => exact .inr (setValue_keeps h ht)
  | addTableProperty r index value => exact .inr (addTableProperty_keeps h ht)
  | deleteTableProperty r i => exact .inr (deleteTableProperty_keeps h ht)
  | clearTable r => exact .inr (clearTable_keeps h ht)
  | sortTable r table => exact .inr (sortTable_keeps h ht)
  | sortElements r values => exact .inr (sortElements_keeps h ht)
  | insertElement r i v => exact .inr (insertElement_keeps h ht)
  | removeElement r i => exact .inr (removeElement_keeps h ht)
  | registerValueAndPush g => exact .inr (registerValueAndPush_keeps h ht)
  | enterFunction startPos restArguments selfForProto => exact .inr (enterFunction_keeps h ht)
  | addSubFunc k =>
    obtain rfl := Option.some.inj ht
    exact .inr (addSubFunc_keeps h k)
  | leaveFunction written stack => exact .inr (leaveFunction_keeps h ht)
  | retainString r => exact .inr (retainString_keeps h ht)
  | compile strings => exact .inr (compile_keeps h ht)
  | releaseHost o => exact .inr (releaseHost_keeps h ht)

/-! ## Runs -/

namespace State

/-- Every step of the run meets `P` where it begins. -/
def Along (P : State → Op → Prop) : State → List Op → Prop
  | _, [] => True
  | s, op :: ops => P s op ∧ ∀ t, s.step op = some t → Along P t ops

/-- What every step keeps that meets `P`, holds after a run whose steps do. -/
theorem run_induction {P : State → Op → Prop} {I : State → Prop}
    (step : ∀ {s t op}, I s → P s op → s.step op = some t → I t) : ∀ {ops s t}, I s → Along P s ops → s.run ops = some t → I t
  | [], s, t, hs, _, ht => by
    obtain rfl := Option.some.inj ht
    exact hs
  | op :: ops, s, t, hs, hm, ht => by
    rw [run, List.foldlM_cons] at ht
    obtain ⟨u, hu, ht⟩ := Option.bind_eq_some_iff.1 ht
    exact run_induction step (step hs hm.1 hu) (hm.2 u hu) ht

theorem start_owned (o : Obj) : start.owned o = 0 := rfl

theorem start_ready : Ready start (fun _ => True) 0 [] := by
  refine ⟨⟨?_, ?_, ?_, List.nodup_nil, ?_, ?_, ?_, ?_, fun _ _ => trivial, zero_nonneg, ?_, ?_, FreeCandidateValues.holds_new,
    ?_, fun _ => Nat.le_refl 0⟩, rfl, ?_, ?_, .inl ⟨rfl, rfl⟩, ?_⟩
  · rintro r ⟨⟩
  · rintro l ⟨⟩
  · rintro p ⟨⟩
  · rintro r ⟨⟩
  · rintro l loc ⟨⟩
  · intro o _
    exact Int.le_refl 0
  · intro o _ _
    rfl
  · intro o _ ho
    rw [start_owned] at ho
    exact absurd ho (Nat.lt_irrefl 0)
  · rintro l ⟨⟩
  · rintro r ⟨⟩
  · rintro r ⟨⟩
  · rintro o ⟨⟩
  · intro r hr
    rw [start_owned] at hr
    exact absurd hr (Nat.lt_irrefl 0)

theorem start_closed : Closed start := by
  refine ⟨fun r hr => ?_, ?_, ?_⟩
  · rw [start_owned] at hr
    exact absurd hr (Nat.lt_irrefl 0)
  · rintro r ⟨⟩
  · rintro f ⟨⟩

theorem start_complete : Complete start [] := by
  refine ⟨?_, rfl⟩
  rintro r ⟨⟩

end State

theorem along_collection {P : State → Bool → Bool → Prop} {full limit : Bool} : ∀ {ops : List Op} {s : State},
    (∀ op ∈ ops, ∀ t, op.AtCollection P t) → (∀ t, s.run ops = some t → P t full limit) →
    s.Along (fun s op => op.AtCollection P s) (ops ++ [.gcFreeCandidateValues full limit])
  | [], s, _, h => ⟨h s rfl, fun _ _ => trivial⟩
  | op :: ops, s, hops, h => by
    refine ⟨hops op List.mem_cons_self s, fun t ht => along_collection (fun op hop => hops op (List.mem_cons_of_mem _ hop)) ?_⟩
    intro u hu
    refine h u ?_
    rw [run, List.foldlM_cons, ht]
    exact hu

theorem along_always : ∀ (ops : List Op) (s : State), Along (fun _ _ => True) s ops
  | [], _ => trivial
  | _ :: ops, _ => ⟨trivial, fun t _ => along_always ops t⟩

theorem ready_step {op : Op} (h : ∃ E cs, Ready s E 0 cs) (ht : s.step op = some t) : ∃ E cs, Ready t E 0 cs := by
  obtain ⟨E, cs, hs⟩ := h
  rcases step_cases hs ht with ⟨full, limit, rfl, hg⟩ | ⟨ds, hready, -⟩
  · obtain ⟨ds, hcollected⟩ := gcFreeCandidateValues_collected hs hg
    obtain ⟨E', hready⟩ := hcollected.ready
    exact ⟨E', ds, hready⟩
  · exact ⟨E, ds, hready⟩

/-- **After any run counters, tables and owners fit together.** -/
theorem ready_run {ops : List Op} (ht : start.run ops = some t) : ∃ E cs, Ready t E 0 cs :=
  run_induction (P := fun _ _ => True) (fun h _ ht => ready_step h ht) ⟨_, _, start_ready⟩ (along_always ops start) ht

/-! ## Runs on fixed operations -/

def GCValue.plain (payload : Payload) : GCValue := { prototype := none, name := none, table := [], payload := payload }

/-- What a collection keeps and what it frees: 1 is a global object, 2 its key, 3 a string of the host with the name 2, 4 an
object that refers to itself and to 3, 5 an array on the stack and 6 a function that runs, kept by 1 alone. -/
def oneOfEach : List Op :=
  [.registerValueAndPush (.plain .object), .setValue (.root .globalVars) (some 1), .registerValueAndPush (.plain .string),
    .registerValueAndPush (.plain .string), .setValue (.value 3 .name) (some 2), .retainString 3,
    .registerValueAndPush (.plain .object), .addTableProperty 4 (some 3) (some 4),
    .registerValueAndPush (.plain (.array [some 1, some 2])), .compile [],
    .registerValueAndPush (.plain (.function 0 [] none none none)), .addTableProperty 1 (some 2) (some 6),
    .setStack [some 6], .enterFunction 0 none none, .setStack [some 5]]

/-- What the marking of `oneOfEach` starts from. -/
structure OneOfEach (u : State) : Prop where
  order : u.values.order = [1, 2, 3, 4, 5, 6]
  globalVars : u.root .globalVars = some 1
  object : (u.value 1).map GCValue.fields = some [.value 2, .value 6]
  string : (u.value 3).map GCValue.fields = some [.value 2]
  external : [1, 2, 4, 5, 6].map (fun r => u.refCount (.external r)) = [0, 0, 0, 0, 0]

theorem of_marking {p : State → Prop} [DecidablePred p] (ht : start.run oneOfEach = some t)
    (hu : t.freeCandidates State.unlink = some u)
    (hall : ((start.run oneOfEach).bind (freeCandidates State.unlink)).all (fun u => decide (p u)) = true) : p u := by
  rw [ht, Option.bind_some, hu, Option.all_some] at hall
  exact of_decide_eq_true hall

theorem oneOfEach_marking (ht : start.run oneOfEach = some t) (hu : t.freeCandidates State.unlink = some u) : OneOfEach u :=
  { order := of_marking (p := fun u => u.values.order = [1, 2, 3, 4, 5, 6]) ht hu (by decide +kernel)
    globalVars := of_marking (p := fun u => u.root .globalVars = some 1) ht hu (by decide +kernel)
    object := of_marking (p := fun u => (u.value 1).map GCValue.fields = some [.value 2, .value 6]) ht hu (by decide +kernel)
    string := of_marking (p := fun u => (u.value 3).map GCValue.fields = some [.value 2]) ht hu (by decide +kernel)
    external := of_marking (p := fun u => [1, 2, 4, 5, 6].map (fun r => u.refCount (.external r)) = [0, 0, 0, 0, 0]) ht hu
      (by decide +kernel) }

namespace OneOfEach

theorem reached_object (h : OneOfEach u) (cells : List Ref) : u.Reached cells (.value 1) := by
  refine reached_of_root ?_
  have hroot : Obj.value 1 ∈ Root.all.flatMap (fun i => holding (u.root i)) :=
    List.mem_flatMap.2 ⟨.globalVars, by decide, by rw [h.globalVars]; exact List.mem_cons_self⟩
  unfold markRoots
  simp only [List.mem_append]
  grind

theorem reached_key (h : OneOfEach u) (cells : List Ref) : u.Reached cells (.value 2) :=
  (h.reached_object cells).step h.object List.mem_cons_self

theorem eq_string (h : OneOfEach u) {r : Ref} (hr : r ∈ u.values.order) (hpos : 0 < u.refCount (.external r)) : r = 3 := by
  by_contra hne
  have hmem : r ∈ [1, 2, 4, 5, 6] := by
    rw [h.order] at hr
    simp only [List.mem_cons, List.not_mem_nil, or_false] at hr ⊢
    grind
  have hzero : u.refCount (.external r) ∈ ([0, 0, 0, 0, 0] : List Int) := by
    rw [← h.external]
    exact List.mem_map_of_mem hmem
  have heq : u.refCount (Obj.external r) = 0 := by simpa using hzero
  omega

end OneOfEach

theorem oneOfEach_along {P : State → Bool → Bool → Prop} (h : ∀ t, start.run oneOfEach = some t → P t true false) :
    start.Along (fun s op => op.AtCollection P s) (oneOfEach ++ [.gcFreeCandidateValues true false]) := by
  refine along_collection (fun op hop t => ?_) h
  unfold oneOfEach at hop
  simp only [List.mem_cons, List.not_mem_nil, or_false] at hop
  rcases hop with rfl | rfl | rfl | rfl | rfl | rfl | rfl | rfl | rfl | rfl | rfl | rfl | rfl | rfl | rfl <;> trivial

theorem oneOfEach_keptWhole (ht : start.run oneOfEach = some t) : AtMarking KeptWhole t true false := by
  intro _ _ u cells hu _ v g hv _ hpos o ho
  have hfacts := oneOfEach_marking ht hu
  obtain ⟨E, cs, hready⟩ := ready_run ht
  obtain ⟨ds, hmarked, -, -⟩ := freeCandidates_ready hready hu
  obtain rfl := hfacts.eq_string (hmarked.listed v (Option.isSome_of_eq_some hv)) hpos
  have hfields := hfacts.string
  rw [hv, Option.map_some, Option.some.injEq] at hfields
  rw [hfields, List.mem_singleton] at ho
  rw [ho]
  exact .inl (hfacts.reached_key cells)

/-- The string of the host has only what is reached before it in the table. -/
theorem oneOfEach_keptAfter (ht : start.run oneOfEach = some t) : AtMarking KeptAfter t true false := by
  intro _ _ u cells hu _ xs ys v g r horder hr _ hnot _ _ hpos
  have hfacts := oneOfEach_marking ht hu
  have hmem : r ∈ u.values.order := by
    rw [horder]
    exact List.mem_append_right _ (List.mem_cons_of_mem _ hr)
  obtain rfl := hfacts.eq_string hmem hpos
  rw [hfacts.order] at horder
  have hv : v = 1 ∨ v = 2 := by
    rcases xs with _ | ⟨x, _ | ⟨y, zs⟩⟩
    · exact .inl (List.cons.inj horder).1.symm
    · exact .inr (List.cons.inj (List.cons.inj horder).2).1.symm
    · have hrest : [3, 4, 5, 6] = zs ++ v :: ys := (List.cons.inj (List.cons.inj horder).2).2
      rcases zs with _ | ⟨z, zs⟩
      · rw [← (List.cons.inj hrest).2] at hr
        exact absurd hr (by decide)
      · have hmem : 3 ∈ [4, 5, 6] := by
          rw [(List.cons.inj hrest).2]
          exact List.mem_append_right _ (List.mem_cons_of_mem _ hr)
        exact absurd hmem (by decide)
  rcases hv with rfl | rfl
  · exact absurd (hfacts.reached_object cells) hnot
  · exact absurd (hfacts.reached_key cells) hnot

theorem oneOfEach_unlinksHeads (ht : start.run oneOfEach = some t) : t.UnlinksHeads true := by
  have hall : (start.run oneOfEach).all (fun t => decide (t.UnlinksHeads true)) = true := by decide +kernel
  rw [ht, Option.all_some] at hall
  exact of_decide_eq_true hall

theorem oneOfEach_sparesRunning (ht : start.run oneOfEach = some t) : t.SparesRunning true := by
  have hall : (start.run oneOfEach).all (fun t => decide (t.SparesRunning true)) = true := by decide +kernel
  rw [ht, Option.all_some] at hall
  exact of_decide_eq_true hall

/-- The host holds a string that is the property of an object, and has its name from there. -/
def namedString : List Op :=
  [.registerValueAndPush (.plain .string), .registerValueAndPush (.plain .string), .registerValueAndPush (.plain .object),
    .setValue (.value 1 .name) (some 2), .addTableProperty 3 (some 2) (some 1), .retainString 1, .setStack [],
    .gcFreeCandidateValues true false, .gcFreeCandidateValues true false]

/-- A function that nothing refers to runs, and writes to its local 0. -/
def overwritten : List Op :=
  [.compile [], .registerValueAndPush (.plain (.function 0 [] none none none)), .enterFunction 0 none none, .setStack [none]]

/-- An object that refers to itself and to a string that the host holds. -/
def garbageBefore : List Op :=
  [.registerValueAndPush (.plain .object), .registerValueAndPush (.plain .string), .registerValueAndPush (.plain .string),
    .addTableProperty 1 (some 3) (some 2), .addTableProperty 1 (some 3) (some 1), .retainString 2, .setStack [],
    .gcFreeCandidateValues true false]

/-- `n` objects that nothing refers to, and a collection that finds only `kept` on the stack. -/
def createAndCollect (n : Nat) (kept : List Slot) : List Op :=
  List.replicate n (.registerValueAndPush (.plain .object)) ++ [.setStack kept, .gcFreeCandidateValues true false]

/-- The values 1, 33 and 65 have one chain; 65 is an array that holds 1. -/
def oneChain : List Op :=
  [.registerValueAndPush (.plain .object), .setValue (.root .globalVars) (some 1)] ++ createAndCollect 0 [] ++
    createAndCollect 30 [] ++ createAndCollect 2 [some 33] ++ createAndCollect 30 [some 33] ++
    createAndCollect 1 [some 33] ++
    [.registerValueAndPush (.plain (.array [some 1])), .setValue (.root .globalVars) none] ++ createAndCollect 0 []

/-! ## No value is freed that is still referred to -/

/-- What is asked of a collection: that what externally held values refer to is kept, and functions that run. -/
def Spares (s : State) (full limit : Bool) : Prop := AtMarking KeptWhole s full limit ∧ s.SparesRunning full

theorem closed_step {op : Op} (h : (∃ E cs, Ready s E 0 cs) ∧ Closed s) (hm : op.AtCollection Spares s)
    (ht : s.step op = some t) : (∃ E cs, Ready t E 0 cs) ∧ Closed t := by
  obtain ⟨⟨E, cs, hs⟩, hc⟩ := h
  rcases step_cases hs ht with ⟨full, limit, rfl, hg⟩ | ⟨ds, hready, hmoved⟩
  · obtain ⟨ds, hcollected⟩ := gcFreeCandidateValues_collected hs hg
    obtain ⟨E', hready⟩ := hcollected.ready
    exact ⟨⟨E', ds, hready⟩, hcollected.closed hm.1 hm.2 hc⟩
  · exact ⟨⟨E, ds, hready⟩, hmoved.closed hc⟩

/-- **Whatever is referred to is there**, when every externally held value that a collection meets is whole and it frees no
function that runs. -/
theorem referred_live {ops : List Op} {t : State} (hm : start.Along (fun s op => op.AtCollection Spares s) ops)
    (ht : start.run ops = some t) : (∀ o, 0 < t.owned o → t.Live o) ∧ (∀ r, some r ∈ t.stack → t.Live (.value r)) ∧
      ∀ f ∈ t.callStack, t.Live (.value f.func) := by
  obtain ⟨⟨E, cs, hready⟩, hclosed⟩ := run_induction closed_step ⟨⟨_, _, start_ready⟩, start_closed⟩ hm ht
  refine ⟨fun o ho => ?_, hclosed.stack, hclosed.frames⟩
  cases o with
  | value r => exact hclosed.values r ho
  | _ => exact hready.sound.rooted _ id ho

theorem referred_live_oneOfEach : ∃ t, start.run (oneOfEach ++ [.gcFreeCandidateValues true false]) = some t ∧
    t.stack = [some 5] ∧ t.callStack.map StackFunction.func = [6] ∧ ¬ t.Live (.value 4) ∧
    (∀ o, 0 < t.owned o → t.Live o) ∧ (∀ r, some r ∈ t.stack → t.Live (.value r)) ∧ ∀ f ∈ t.callStack, t.Live (.value f.func) := by
  have hrun : (start.run (oneOfEach ++ [.gcFreeCandidateValues true false])).map (fun t =>
      (t.stack, t.callStack.map StackFunction.func, (t.value 4).isSome)) = some ([some 5], [6], false) := by decide +kernel
  obtain ⟨t, ht, heq⟩ := Option.map_eq_some_iff.1 hrun
  simp only [Prod.mk.injEq] at heq
  obtain ⟨hstack, hcalls, hfreed⟩ := heq
  refine ⟨t, ht, hstack, hcalls, ?_, referred_live (oneOfEach_along fun t ht => ⟨oneOfEach_keptWhole ht, oneOfEach_sparesRunning ht⟩) ht⟩
  rw [live_value, hfreed]
  decide

/-- **The name of a string that the host holds is freed.** -/
theorem name_freed : ∃ t, start.run namedString = some t ∧ t.Live (.value 1) ∧ t.Live (.external 1) ∧
    0 < t.refCount (.external 1) ∧ (t.value 1).map GCValue.name = some (some 2) ∧ ¬ t.Live (.value 2) := by
  have hrun : (start.run namedString).map (fun t => ((t.value 1).isSome, t.refCount (.external 1),
      (t.value 1).map GCValue.name, (t.value 2).isSome)) = some (true, 1, some (some 2), false) := by decide +kernel
  obtain ⟨t, ht, heq⟩ := Option.map_eq_some_iff.1 hrun
  simp only [Prod.mk.injEq] at heq
  obtain ⟨hlive, href, hname, hfreed⟩ := heq
  refine ⟨t, ht, hlive, hlive, ?_, hname, ?_⟩
  · rw [href]
    decide
  · rw [live_value, hfreed]
    decide

/-- **A function that runs is freed by the candidate loop** once it has overwritten its slot of the stack. -/
theorem running_freed : ∃ t u, start.run overwritten = some t ∧ t.freeCandidates State.unlink = some u ∧
    u.callStack.map StackFunction.func = [1] ∧ ¬ u.Live (.value 1) := by
  have hrun : (start.run overwritten).map (fun t => (t.freeCandidates State.unlink).map fun u =>
      (u.callStack.map StackFunction.func, (u.value 1).isSome)) = some (some ([1], false)) := by decide +kernel
  obtain ⟨t, ht, heq⟩ := Option.map_eq_some_iff.1 hrun
  obtain ⟨u, hu, heq⟩ := Option.map_eq_some_iff.1 heq
  simp only [Prod.mk.injEq] at heq
  refine ⟨t, u, ht, hu, heq.1, ?_⟩
  rw [live_value, heq.2]
  decide

/-! ## Counters -/

theorem exact_step {op : Op} (h : ∃ cs, Ready s (fun _ => True) 0 cs) (hm : op.AtCollection (AtMarking KeptAfter) s)
    (ht : s.step op = some t) : ∃ cs, Ready t (fun _ => True) 0 cs := by
  obtain ⟨cs, hs⟩ := h
  rcases step_cases hs ht with ⟨full, limit, rfl, hg⟩ | ⟨ds, hready, hmoved⟩
  · obtain ⟨ds, hcollected⟩ := gcFreeCandidateValues_collected hs hg
    obtain ⟨E', hready⟩ := hcollected.ready
    exact ⟨ds, hcollected.exact hm, hready.fix, hready.listed, hready.hostKinds, hready.formed, hready.known⟩
  · exact ⟨ds, hready⟩

/-- **Every counter is the number of owning references**, when no garbage refers to an externally held value behind it. -/
theorem refCount_exact {ops : List Op} {t : State} (hm : start.Along (fun s op => op.AtCollection (AtMarking KeptAfter) s) ops)
    (ht : start.run ops = some t) (o : Obj) (ho : t.Live o) : t.refCount o = t.owned o ∧ 0 ≤ t.refCount o := by
  obtain ⟨cs, hready⟩ := run_induction exact_step ⟨_, start_ready⟩ hm ht
  have hexact := hready.sound.exact o ho trivial
  have hzero : (0 : Obj → Int) o = 0 := rfl
  omega

theorem refCount_exact_oneOfEach : ∃ t, start.run (oneOfEach ++ [.gcFreeCandidateValues true false]) = some t ∧
    t.Live (.value 2) ∧ t.refCount (.value 2) = 3 ∧ t.refCount (.value 2) = t.owned (.value 2) ∧ 0 ≤ t.refCount (.value 2) := by
  have hrun : (start.run (oneOfEach ++ [.gcFreeCandidateValues true false])).map (fun t =>
      ((t.value 2).isSome, t.refCount (.value 2))) = some (true, 3) := by decide +kernel
  obtain ⟨t, ht, heq⟩ := Option.map_eq_some_iff.1 hrun
  simp only [Prod.mk.injEq] at heq
  exact ⟨t, ht, heq.1, heq.2, refCount_exact (oneOfEach_along fun _ => oneOfEach_keptAfter) ht (.value 2) heq.1⟩

/-- **The counter of a string that the host holds stays at one** when the garbage that refers to it is gone. -/
theorem refCount_left : ∃ t, start.run garbageBefore = some t ∧ t.Live (.value 2) ∧ t.refCount (.value 2) = 1 ∧
    t.owned (.value 2) = 0 := by
  have hrun : (start.run garbageBefore).map (fun t => ((t.value 2).isSome, t.refCount (.value 2), t.owned (.value 2))) =
      some (true, 1, 0) := by decide +kernel
  obtain ⟨t, ht, heq⟩ := Option.map_eq_some_iff.1 hrun
  simp only [Prod.mk.injEq] at heq
  exact ⟨t, ht, heq⟩

/-! ## Candidates -/

theorem complete_step {op : Op} (h : ∃ E cs, Ready s E 0 cs ∧ Complete s cs)
    (hm : op.AtCollection (fun s full _ => s.UnlinksHeads full) s) (ht : s.step op = some t) :
    ∃ E cs, Ready t E 0 cs ∧ Complete t cs := by
  obtain ⟨E, cs, hs, hc⟩ := h
  rcases step_cases hs ht with ⟨full, limit, rfl, hg⟩ | ⟨ds, hready, hmoved⟩
  · obtain ⟨ds, hcollected⟩ := gcFreeCandidateValues_collected hs hg
    obtain ⟨E', hready⟩ := hcollected.ready
    exact ⟨E', ds, hready, hcollected.complete hm hc⟩
  · exact ⟨E, ds, hready, hmoved.complete hc⟩

/-- **The chains hold every value that nothing refers to**, each once and in the chain of its slot, no value that is not
there, and as many as are counted, when every candidate without a predecessor was the head of its chain. -/
theorem candidates_complete {ops : List Op} {t : State}
    (hm : start.Along (fun s op => op.AtCollection (fun s full _ => s.UnlinksHeads full) s) ops) (ht : start.run ops = some t) :
    ∃ cs, t.candidates.Holds cs ∧ t.candidates.count = cs.length ∧ (∀ r ∈ cs, t.Live (.value r)) ∧
      ∀ r, t.Live (.value r) → t.refCount (.value r) = 0 → t.refCount (.external r) = 0 → r ∈ cs := by
  obtain ⟨E, cs, hready, hcomplete⟩ := run_induction complete_step ⟨_, _, start_ready, start_complete⟩ hm ht
  exact ⟨cs, hready.sound.candidates, hcomplete.count, hready.sound.candidates_live, hcomplete.zeros⟩

theorem candidates_complete_oneOfEach : ∃ t, start.run (oneOfEach ++ [.gcFreeCandidateValues true false]) = some t ∧
    t.candidateCells = some [3, 5] ∧ ∃ cs, t.candidates.Holds cs ∧ t.candidates.count = cs.length ∧ (∀ r ∈ cs, t.Live (.value r)) ∧
      ∀ r, t.Live (.value r) → t.refCount (.value r) = 0 → t.refCount (.external r) = 0 → r ∈ cs := by
  have hrun : (start.run (oneOfEach ++ [.gcFreeCandidateValues true false])).bind candidateCells = some [3, 5] := by decide +kernel
  obtain ⟨t, ht, hcells⟩ := Option.bind_eq_some_iff.1 hrun
  exact ⟨t, ht, hcells, candidates_complete (oneOfEach_along fun _ => oneOfEach_unlinksHeads) ht⟩

/-- **A candidate is counted that is in no chain**: it came in front of the one that was unlinked from the head. -/
theorem candidate_lost : ∃ t, start.run oneChain = some t ∧ t.candidateCells = some [] ∧ t.candidates.count = 1 := by
  have hrun : (start.run oneChain).map (fun t => (t.candidateCells, t.candidates.count)) = some (some [], 1) := by decide +kernel
  obtain ⟨t, ht, heq⟩ := Option.map_eq_some_iff.1 hrun
  simp only [Prod.mk.injEq] at heq
  exact ⟨t, ht, heq⟩

end Gc
end ObjectScript
