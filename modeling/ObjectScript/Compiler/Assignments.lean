import ObjectScript.Compiler.PostCompileRuns
/-!
# Assignments and their registers

An assignment to a local lets the last operator of its value write to the local, or moves the value there.  A compound
assignment and `++` read the target, run the operator and write the answer back, all in registers of their own.

`compiled_override` is the first way, taken where the value leaves its operator as the last instruction and the local is
in this frame (`LocalVar.upCount` is zero); every other target takes the value from a register that the value was
computed to.
-/
namespace ObjectScript
namespace Compiler
namespace NewVM

open Registers

variable {V W τ : Type} {f : Function} {M : Machine V W τ}

/-! ## Negations -/

/-- The register `s` gets an answer to what it has. -/
def answer (M : Machine V W τ) (s : Nat) (g : Bool → Bool) : Run (Frame V W) V τ := fun σ =>
  .ok ⟨σ.frame, update σ.temps s (M.ofBool (g (M.toBool (σ.temps s))))⟩

theorem answer_answer (s : Nat) (g h : Bool → Bool) : (answer M s g).seq (answer M s h) = answer M s (h ∘ g) := by
  funext σ
  show Except.ok ⟨σ.frame, update (update σ.temps s (M.ofBool (g (M.toBool (σ.temps s))))) s (M.ofBool (h (M.toBool
    (update σ.temps s (M.ofBool (g (M.toBool (σ.temps s)))) s))))⟩ = (Except.ok _ : Except τ (State (Frame V W) V))
  rw [update_update, update_same, M.toBool_ofBool]
  rfl

theorem finishNot_shape {s : Nat} {n : Node} (ha : n.type.isTest = true → n.a = s) :
    (finishNot s n).a = s ∧ (finishNot s n).type.isTest = true := by
  obtain ⟨type, a, b, c, list⟩ := n
  cases type <;> first | exact ⟨rfl, rfl⟩ | exact ⟨ha rfl, rfl⟩

theorem finishBool_shape {s : Nat} {n : Node} (ha : n.type.isTest = true → n.a = s) :
    (finishBool s n).a = s ∧ (finishBool s n).type.isTest = true := by
  obtain ⟨type, a, b, c, list⟩ := n
  cases type <;> first | exact ⟨rfl, rfl⟩ | exact ⟨ha rfl, rfl⟩

section

variable {s : Nat} (hs : f.numLocals ≤ s)

include hs

theorem exec_logicNot {b c : Int} {list : List Node} :
    exec f M ⟨.logicNot, s, b, c, list⟩ = (execList f M list).seq (answer M s not) := by
  rw [exec_of_type (by simp) (by simp) (by simp)]
  congr 1
  funext σ
  rw [act, slotValue_temp hs, setSlot_temp hs]
  rfl

theorem exec_logicBool {b c : Int} {list : List Node} :
    exec f M ⟨.logicBool, s, b, c, list⟩ = (execList f M list).seq (answer M s id) := by
  rw [exec_of_type (by simp) (by simp) (by simp)]
  congr 1
  funext σ
  rw [act, slotValue_temp hs, setSlot_temp hs]
  rfl

theorem exec_finishNot {n : Node} (ha : n.type.isTest = true → n.a = s) :
    exec f M (finishNot s n) = (exec f M n).seq (answer M s not) := by
  obtain ⟨type, a, b, c, list⟩ := n
  cases type with
  | logicNot =>
    obtain rfl : a = s := ha rfl
    show exec f M ⟨.logicBool, s, b, c, list⟩ = _
    rw [exec_logicBool hs, exec_logicNot hs, Run.seq_assoc, answer_answer]
    congr 2
    funext x
    exact (Bool.not_not x).symm
  | logicBool =>
    obtain rfl : a = s := ha rfl
    show exec f M ⟨.logicNot, s, b, c, list⟩ = _
    rw [exec_logicNot hs, exec_logicBool hs, Run.seq_assoc, answer_answer]
    rfl
  | _ => rw [finishNot, exec_logicNot hs, execList_cons, execList_nil, Run.seq_done]

theorem exec_finishBool {n : Node} (ha : n.type.isTest = true → n.a = s) :
    exec f M (finishBool s n) = (exec f M n).seq (answer M s id) := by
  obtain ⟨type, a, b, c, list⟩ := n
  cases type with
  | logicNot =>
    obtain rfl : a = s := ha rfl
    show exec f M ⟨.logicNot, s, b, c, list⟩ = _
    rw [exec_logicNot hs, Run.seq_assoc, answer_answer]
    rfl
  | logicBool =>
    obtain rfl : a = s := ha rfl
    show exec f M ⟨.logicBool, s, b, c, list⟩ = _
    rw [exec_logicBool hs, Run.seq_assoc, answer_answer]
    rfl
  | _ => rw [finishBool, exec_logicBool hs, execList_cons, execList_nil, Run.seq_done]

theorem answer_realises {e : Exp} {n : Node} (ha : n.a = s) (hret : e.retValues = 1) (g : Bool → Bool) (x : V) :
    Realises s (fun σ => σ.temps s = x) (Pure.pure [.value (M.ofBool (g (M.toBool x)))] : Comp (Frame V W) τ _)
      (answer M s g) (Left f M e s n) := by
  refine write_realises hs ha hret (X := fun _ => Pure.pure (M.ofBool (g (M.toBool x)))) (fun σ hσ => ?_) fun σ _ => rfl
  rw [store_temp hs, answer, hσ]
  rfl

theorem compiled_logicNot {e : Exp} {n : Node} (he : Compiled f M e s n) (he1 : e.retValues = 1) :
    Compiled f M (.logicNot e) s (finishNot s n) := by
  obtain ⟨ha, htype⟩ := finishNot_shape fun h => (he.isTest h).1
  refine .of_leaves ?_ rfl ha (fun h => by rw [h] at htype; cases htype) (fun h => by rw [h] at htype; cases htype)
    fun h => by rw [h] at htype; cases htype
  rw [exec_finishNot hs fun h => (he.isTest h).1, eval]
  exact (he.now he1).bind fun x => answer_realises hs ha rfl not x

theorem compiled_logicBool {e : Exp} {n : Node} (he : Compiled f M e s n) (he1 : e.retValues = 1) :
    Compiled f M (.logicBool e) s (finishBool s n) := by
  obtain ⟨ha, htype⟩ := finishBool_shape fun h => (he.isTest h).1
  refine .of_leaves ?_ rfl ha (fun h => by rw [h] at htype; cases htype) (fun h => by rw [h] at htype; cases htype)
    fun h => by rw [h] at htype; cases htype
  rw [exec_finishBool hs fun h => (he.isTest h).1, eval]
  exact (he.now he1).bind fun x => answer_realises hs ha rfl id x

/-! ## Assignments -/

end

/-- `k` does what `m` does, but the value for the register `a` goes to the local `i`. -/
structure Redirects (m k : Run (Frame V W) V τ) (a i : Nat) : Prop where
  stops : ∀ σ t, m σ = .error t → k σ = .error t
  gives : ∀ σ ρ, m σ = .ok ρ → ∃ T, k σ = .ok ⟨ρ.frame.setLocal i (ρ.temps a), T⟩ ∧ ∀ j, j ≠ a → T j = ρ.temps j

theorem Redirects.seq {m k : Run (Frame V W) V τ} {a i : Nat} (h : Redirects m k a i) (l : Run (Frame V W) V τ) :
    Redirects (l.seq m) (l.seq k) a i := by
  refine ⟨fun σ t ht => ?_, fun σ ρ hρ => ?_⟩
  · cases hl : l σ with
    | error t' =>
      rw [Run.seq_of_error hl] at ht ⊢
      exact ht
    | ok ρ =>
      rw [Run.seq_of_ok hl] at ht ⊢
      exact h.stops ρ t ht
  · cases hl : l σ with
    | error t' =>
      rw [Run.seq_of_error hl] at hρ
      cases hρ
    | ok ρ' =>
      rw [Run.seq_of_ok hl] at hρ ⊢
      exact h.gives ρ' ρ hρ

/-- An operator that may write elsewhere is one instruction behind its operands. -/
theorem exec_setA {n : Node} {a i : Nat} (h : n.allowOverrideOpcodeResult = true) (ha : n.a = a) (hs : f.numLocals ≤ a)
    (hi : i < f.numLocals) : Redirects (exec f M n) (exec f M (n.setA i)) a i := by
  have htype : n.type.stores = true := by
    unfold Node.allowOverrideOpcodeResult at h
    cases hn : n.type <;> first | rfl | (rw [hn] at h; cases h)
  rw [exec_stores htype, exec_stores (n := n.setA i) htype]
  show Redirects ((execList f M n.list).seq _)
    ((execList f M n.list).seq fun σ => store f i (result f M n.type n.b n.c σ) σ) a i
  rw [ha]
  refine Redirects.seq ⟨fun σ t ht => ?_, fun σ ρ hρ => ?_⟩ _
  · cases hx : result f M n.type n.b n.c σ σ.frame with
    | error t' => rwa [store_of_error hx] at ht ⊢
    | ok r =>
      rw [store_of_ok hx] at ht
      cases ht
  · cases hx : result f M n.type n.b n.c σ σ.frame with
    | error t' =>
      rw [store_of_error hx] at hρ
      cases hρ
    | ok r =>
      rw [store_of_ok hx, setSlot_temp hs] at hρ
      rw [store_of_ok hx, setSlot_local hi]
      cases hρ
      refine ⟨σ.temps, ?_, fun j hj => (update_ne _ _ hj).symm⟩
      exact congrArg (fun v : V => (Except.ok ⟨r.2.setLocal i v, σ.temps⟩ : Except τ (State (Frame V W) V)))
        (update_same _ a r.1).symm

theorem modify_last (ns : List Node) (m : Node) (g : Node → Node) :
    (ns ++ [m]).modify ((ns ++ [m]).length - 1) g = ns ++ [g m] := by
  rw [List.modify_eq_take_cons_drop (by simp)]
  simp

theorem exec_override {n m : Node} {a i : Nat} (h : n.overridable f = true) (hm : n.lastOperator = some m) (ha : m.a = a)
    (hi : i < f.numLocals) : Redirects (exec f M n) (exec f M (n.override i)) a i := by
  rw [Node.overridable, hm, Option.any_some, Bool.and_eq_true, decide_eq_true_eq, ha] at h
  obtain ⟨hallow, hs⟩ := h
  have hset := exec_setA (M := M) hallow ha (Int.ofNat_le.1 hs) hi
  unfold Node.override
  by_cases hlist : n.type = .params ∨ n.type = .codeList
  · rw [Node.lastOperator, if_pos hlist] at hm
    obtain ⟨ns, hns⟩ := List.getLast?_eq_some_iff.1 hm
    have htype : n.type.isList = true := by
      rcases hlist with h | h <;> rw [h] <;> rfl
    rw [if_pos hlist, exec_list htype, exec_list (n := { n with list := _ }) htype, hns, modify_last, execList_append,
      execList_append, execList_cons, execList_cons, execList_nil, Run.seq_done, Run.seq_done]
    exact hset.seq _
  · rw [Node.lastOperator, if_neg hlist] at hm
    cases hm
    rwa [if_neg hlist]

/-- The move of a temporary to a local of this function. -/
theorem act_moveLocal {v : LocalVar} (hv : v.Valid f) (hup : v.upCount = 0) {p : Nat} (hp : f.numLocals ≤ p) (c : Int)
    (σ : State (Frame V W) V) :
    act f M .move v.index p c σ = Run.keep (setLocal M v (σ.temps p)) (fun _ T => T) σ := by
  show Except.ok (setSlot f v.index (slotValue f M σ p) σ) = _
  rw [slotValue_temp hp, setSlot_local (hv hup), Run.keep, setLocal]
  simp [Comp.modify, hup]

/-- The move of a temporary to a local of an outer function. -/
theorem act_setUpvalue {type : NodeType} (htype : type = .setUpvalue ∨ type = .setUpvalueNoPop) {v : LocalVar}
    (hup : v.upCount ≠ 0) {p : Nat} (hp : f.numLocals ≤ p) (σ : State (Frame V W) V) :
    act f M type v.index p v.upCount σ = Run.keep (setLocal M v (σ.temps p)) (fun _ T => T) σ := by
  have hact : act f M type v.index p v.upCount σ =
      .ok ⟨M.setUpvalue v.index v.upCount (slotValue f M σ p) σ.frame, σ.temps⟩ := by
    rcases htype with rfl | rfl <;> rfl
  rw [hact, slotValue_temp hp, Run.keep, setLocal]
  simp [Comp.modify, hup]

theorem exec_assignNode {v : LocalVar} (hv : v.Valid f) {p : Nat} (hp : f.numLocals ≤ p) (n : Node) :
    exec f M (assignNode v p n) = (exec f M n).seq fun σ => Run.keep (setLocal M v (σ.temps p)) (fun _ T => T) σ := by
  unfold assignNode
  by_cases hup : v.upCount = 0
  · rw [if_neg (not_not.2 hup), exec_of_type (by simp) (by simp) (by simp), execList_cons, execList_nil, Run.seq_done]
    congr 1
    funext σ
    exact act_moveLocal hv hup hp 0 σ
  · rw [if_pos hup, exec_of_type (by simp) (by simp) (by simp), execList_cons, execList_nil, Run.seq_done]
    congr 1
    funext σ
    exact act_setUpvalue (.inl rfl) hup hp σ

theorem leftOf_map (noPop : Bool) (vs : List V) :
    leftOf noPop (vs.map Operand.value) = (bif noPop then vs else vs.dropLast).map Operand.value := by
  cases noPop with
  | true => rfl
  | false => exact List.map_dropLast.symm

/-- **The operator writes to the local.** -/
theorem compiled_override {v : LocalVar} {e : Exp} {s : Nat} {n : Node} (he : Compiled f M e s n) (hv : v.Valid f) (hup : v.upCount = 0)
    (hover : n.overridable f = true) (b c : Int) :
    Compiled f M (.setLocalVar false v e) s ⟨.nop, v.index, b, c, [n.override v.index]⟩ where
  leaves := by
    obtain ⟨hret, m, hm, ha⟩ := he.last hover
    obtain ⟨p, hp⟩ : ∃ p : Nat, m.a = p := ⟨m.a.toNat, by omega⟩
    have hredirect := exec_override (M := M) hover hm hp (hv hup)
    rw [exec_list rfl, execList_cons, execList_nil, Run.seq_done, eval]
    have hset : ∀ (x : V) (g : Frame V W), setLocal (τ := τ) M v x g = .ok ((), g.setLocal v.index x) := by
      intro x g
      simp [setLocal, hup, Comp.modify]
    refine ⟨fun σ t _ ht => ?_, fun σ os fr _ hos => ?_⟩
    · rcases Comp.bind_error ht with hx | ⟨vs, g, -, hy⟩
      · exact hredirect.stops σ t (he.finish.stops σ t trivial hx)
      · rw [Comp.bind_of_ok (hset _ g)] at hy
        cases hy
    · obtain ⟨vs, g, hx, hy⟩ := Comp.bind_ok hos
      rw [Comp.bind_of_ok (hset _ g)] at hy
      cases hy
      obtain ⟨T, hrun, hT, hlen, htemps⟩ := he.finish.gives σ vs g trivial hx
      obtain ⟨T', hrun', hT'⟩ := hredirect.gives σ _ hrun
      have hlast : T p = vs.getLastD (null f M) := htemps.top hlen hret (by omega) _
      refine ⟨T', ?_, fun i hi => (hT' i (by omega)).trans (hT i hi), ?_⟩
      · rw [hrun', ← hlast]
      · rw [leftOf_map]
        refine Left.values ?_ (htemps.dropLast.congr fun i hi => hT' i ?_) fun ht => by simp [Exp.tested] at ht
        · rw [cond_false, List.length_dropLast, hlen]
          simp [Exp.retValues]
        · rw [List.length_dropLast, hlen] at hi
          omega
  moved hm := by simp [Node.movesOperand] at hm
  last ho := by simp [Node.overridable, Node.lastOperator, Node.allowOverrideOpcodeResult] at ho
  isTest ht := by cases ht
  move hm := by cases hm

theorem act_setProperty {type : NodeType} (htype : type = .setProperty ∨ type = .setPropertyNoPop) (a b c : Int)
    (σ : State (Frame V W) V) : act f M type a b c σ =
      Run.keep (M.setProperty (slotValue f M σ a) (slotValue f M σ b) (slotValue f M σ c)) (fun _ T => T) σ := by
  rcases htype with rfl | rfl <;> rfl

theorem setMember_realises {type : NodeType} (htype : type = .setProperty ∨ type = .setPropertyNoPop) {a b c : Int}
    {x o i : Operand V} {s p : Nat} {K : (Nat → V) → Prop} :
    Realises s (fun σ => K σ.temps ∧ Located f M p c x σ.temps ∧ Located f M (p + 1) a o σ.temps ∧
        Located f M (p + 2) b i σ.temps)
      (x.get >>= setMember M o i) (act f M type a b c) (fun _ σ => K σ.temps) := by
  refine Realises.keep (k := fun _ T => T) (fun σ hσ => ?_) (fun _ _ _ _ => rfl) fun σ _ fr hσ _ => hσ.1
  obtain ⟨-, hx, ho, hi⟩ := hσ
  rw [act_setProperty htype, ho.read, hi.read, hx.read]
  rfl

theorem setEnv_realises {s : Nat} {b : Int} {name p : Nat} (hp : f.numLocals ≤ p) {x : V} {P : State (Frame V W) V → Prop}
    {K : (Nat → V) → Prop} (hP : ∀ σ, P σ → σ.temps p = x ∧ slotValue f M σ b = M.constant (f.constIndex (.string name)) ∧
      K σ.temps) : Realises s P (setEnv f M name x) (act f M .setProperty f.envSlot b p) fun _ σ => K σ.temps := by
  refine Realises.keep (k := fun _ T => T) (fun σ hσ => ?_) (fun _ _ _ _ => rfl) fun σ _ fr hσ _ => (hP σ hσ).2.2
  obtain ⟨hx, hb, -⟩ := hP σ hσ
  rw [act_setProperty (.inl rfl), slotValue_env, hb, slotValue_temp hp, hx]
  rfl

section

variable {s : Nat} (hs : f.numLocals ≤ s)

include hs

theorem compiled_assignNode {noPop : Bool} {v : LocalVar} {e : Exp} {n : Node} (he : Compiled f M e s n) (hv : v.Valid f)
    (hret : 1 ≤ e.retValues) (hone : noPop = true → e.retValues = 1) {p : Nat} (hp : p + 1 = s + e.retValues) :
    Compiled f M (.setLocalVar noPop v e) s (assignNode v p n) where
  leaves := by
    rw [exec_assignNode hv (by omega), eval]
    refine he.finish.bind fun vs => ?_
    simp only [leftOf_map]
    refine (Realises.keep (P := fun σ => vs.length = e.retValues ∧ Temps s vs σ.temps) (k := fun _ T => T)
      (Q := fun _ σ => vs.length = e.retValues ∧ Temps s vs σ.temps ∧
        (v.upCount = 0 → σ.frame.locals v.index = vs.getLastD (null f M)))
      (fun σ hσ => ?_) (fun _ _ _ _ => rfl) fun σ _ fr hσ hfr => ?_).map _ fun _ σ hσ => ?_
    · -- the temporary at the top has the last value
      have hlast : σ.temps p = vs.getLastD (null f M) := hσ.2.top hσ.1 hret hp _
      rw [hlast]
    · refine ⟨hσ.1, hσ.2, fun hup => ?_⟩
      cases hfr
      simp [hup, Frame.setLocal]
    · obtain ⟨hlen, htemps, hlocal⟩ := hσ
      cases noPop with
      | true =>
        refine Left.values (hlen.trans (hone rfl)) htemps fun ht x hx => ?_
        have hup : v.upCount = 0 := by simpa [Exp.tested] using ht
        rw [cond_true] at hx
        rw [assignNode, if_neg (not_not.2 hup), slotValue_local (hv hup), hlocal hup, hx]
        rfl
      | false =>
        refine Left.values ?_ htemps.dropLast fun ht => by simp [Exp.tested] at ht
        rw [cond_false, List.length_dropLast, hlen]
        simp [Exp.retValues]
  moved hm := by
    by_cases hup : v.upCount = 0
    · have := hv hup
      simp [assignNode, hup, Node.movesOperand] at hm
      omega
    · simp [assignNode, hup, Node.movesOperand] at hm
  last ho := by
    by_cases hup : v.upCount = 0
    · have := hv hup
      simp [assignNode, hup, Node.overridable, Node.lastOperator, Node.allowOverrideOpcodeResult] at ho
      omega
    · simp [assignNode, hup, Node.overridable, Node.lastOperator, Node.allowOverrideOpcodeResult] at ho
  isTest ht := by
    by_cases hup : v.upCount = 0 <;> simp [assignNode, hup, NodeType.isTest] at ht
  move hm := by
    by_cases hup : v.upCount = 0
    · refine .inl ⟨by simp [Exp.assignsLocal, hup], ?_⟩
      simpa [assignNode, hup] using hv hup
    · simp [assignNode, hup] at hm

/-- The value, the object and the index of an assignment to a property. -/
theorem memberOperands {value obj index : Exp} {nv no ni : Node} {p : Nat} (hv : Compiled f M value s nv)
    (ho : Compiled f M obj (p + 1) no) (hi : Compiled f M index (p + 2) ni) (hret : 1 ≤ value.retValues)
    (hp : p + 1 = s + value.retValues) (ho1 : obj.retValues = 1) (hi1 : index.retValues = 1) :
    Realises s (fun _ => True)
      (do
        let os ← eval f M value
        let o ← single f M (eval f M obj)
        let i ← single f M (eval f M index)
        return (os, o, i))
      ((exec f M (nv.elide (nv.movesOperand f) p).1).seq ((exec f M (no.elide (no.movesOperand f) (p + 1)).1).seq
        (exec f M (ni.elide (ni.movesOperand f) (p + 2)).1)))
      fun r σ => Held f M s value.retValues p (nv.elide (nv.movesOperand f) p).2 r.1 σ.temps ∧
        Located f M (p + 1) (no.elide (no.movesOperand f) (p + 1)).2 r.2.1 σ.temps ∧
        Located f M (p + 2) (ni.elide (ni.movesOperand f) (p + 2)).2 r.2.2 σ.temps := by
  refine (hv.operands hret hs (fun h => h) (fun h _ => h) hp).bind fun os => ?_
  have hobj := (ho.operand ho1 (by omega) (fun h => h) fun h _ => h).after (s := s)
    (K := Held f M s value.retValues p (nv.elide (nv.movesOperand f) p).2 os) (by omega) fun T T' hT h => h.congr hp hT
  refine hobj.bind fun o => ?_
  have hindex := (hi.operand hi1 (by omega) (fun h => h) fun h _ => h).after (s := s)
    (K := fun T => Located f M (p + 1) (no.elide (no.movesOperand f) (p + 1)).2 o T ∧
      Held f M s value.retValues p (nv.elide (nv.movesOperand f) p).2 os T) (by omega)
    fun T T' hT h => ⟨h.1.congr (hT _ (Nat.lt_succ_self _)), h.2.congr hp fun i hi => hT i (Nat.lt_succ_of_lt hi)⟩
  exact hindex.map _ fun i σ hσ => ⟨hσ.2.2, hσ.2.1, hσ.1⟩

/-- The operands of an assignment to a property, and the assignment. -/
theorem setProperty_realises {value obj index : Exp} {nv no ni : Node} {p : Nat} (hv : Compiled f M value s nv)
    (ho : Compiled f M obj (p + 1) no) (hi : Compiled f M index (p + 2) ni) (hret : 1 ≤ value.retValues)
    (hp : p + 1 = s + value.retValues) (ho1 : obj.retValues = 1) (hi1 : index.retValues = 1) (noPop : Bool) {type : NodeType}
    (htype : type = .setProperty ∨ type = .setPropertyNoPop) :
    Realises s (fun _ => True) (eval f M (.setProperty noPop value obj index))
      (exec f M ⟨type, (no.elide (no.movesOperand f) (p + 1)).2, (ni.elide (ni.movesOperand f) (p + 2)).2,
        (nv.elide (nv.movesOperand f) p).2,
        [(nv.elide (nv.movesOperand f) p).1, (no.elide (no.movesOperand f) (p + 1)).1,
          (ni.elide (ni.movesOperand f) (p + 2)).1]⟩)
      fun os σ => ∃ os', os = leftOf noPop os' ∧ Held f M s value.retValues p (nv.elide (nv.movesOperand f) p).2 os' σ.temps := by
  rw [exec_of_type (by rcases htype with rfl | rfl <;> simp) (by rcases htype with rfl | rfl <;> simp)
    (by rcases htype with rfl | rfl <;> simp)]
  simp only [execList_cons, execList_nil, Run.seq_done]
  have hset : ∀ r : List (Operand V) × Operand V × Operand V,
      Realises s (fun σ => Held f M s value.retValues p (nv.elide (nv.movesOperand f) p).2 r.1 σ.temps ∧
        Located f M (p + 1) (no.elide (no.movesOperand f) (p + 1)).2 r.2.1 σ.temps ∧
        Located f M (p + 2) (ni.elide (ni.movesOperand f) (p + 2)).2 r.2.2 σ.temps)
      ((r.1.getLastD (.value (null f M))).get >>= setMember M r.2.1 r.2.2)
      (act f M type (no.elide (no.movesOperand f) (p + 1)).2 (ni.elide (ni.movesOperand f) (p + 2)).2
        (nv.elide (nv.movesOperand f) p).2)
      fun _ σ => Held f M s value.retValues p (nv.elide (nv.movesOperand f) p).2 r.1 σ.temps := by
    intro r
    refine (setMember_realises htype (K := Held f M s value.retValues p (nv.elide (nv.movesOperand f) p).2 r.1)).conseq
      (fun σ hσ => ⟨hσ.1, ?_, hσ.2⟩) (fun _ _ h => h) (Nat.le_refl s)
    obtain ⟨x, hx, hloc⟩ := hσ.1.last
    rw [List.getLastD_eq_getLast?, hx]
    exact hloc
  refine ((memberOperands hs hv ho hi hret hp ho1 hi1).bind fun r => (hset r).map (fun _ => leftOf noPop r.1)
    (R := fun os σ => ∃ os', os = leftOf noPop os' ∧ Held f M s value.retValues p (nv.elide (nv.movesOperand f) p).2 os' σ.temps)
    fun _ σ hσ => ⟨r.1, rfl, hσ⟩).congr ?_
  simp only [eval, bind_assoc, pure_bind]

theorem compiled_setProperty {value obj index : Exp} {nv no ni : Node} {p : Nat} (hv : Compiled f M value s nv)
    (ho : Compiled f M obj (p + 1) no) (hi : Compiled f M index (p + 2) ni) (hret : 1 ≤ value.retValues)
    (hp : p + 1 = s + value.retValues) (ho1 : obj.retValues = 1) (hi1 : index.retValues = 1) :
    Compiled f M (.setProperty false value obj index) s
      ⟨.setProperty, (no.elide (no.movesOperand f) (p + 1)).2, (ni.elide (ni.movesOperand f) (p + 2)).2,
        (nv.elide (nv.movesOperand f) p).2,
        [(nv.elide (nv.movesOperand f) p).1, (no.elide (no.movesOperand f) (p + 1)).1,
          (ni.elide (ni.movesOperand f) (p + 2)).1]⟩ where
  leaves := by
    refine (setProperty_realises hs hv ho hi hret hp ho1 hi1 false (.inl rfl)).post fun os σ hos => ?_
    obtain ⟨os', rfl, hheld⟩ := hos
    obtain ⟨vs, hvs, htemps⟩ := hheld.below
    show Left f M _ s _ os'.dropLast σ
    rw [hvs]
    refine Left.values ?_ htemps fun ht => by simp [Exp.tested] at ht
    have hlen := congrArg List.length hvs
    rw [List.length_dropLast, List.length_map, hheld.length] at hlen
    simp [Exp.retValues, hlen]
  moved hm := by simp [Node.movesOperand] at hm
  last ho := by simp [Node.overridable, Node.lastOperator, Node.allowOverrideOpcodeResult] at ho
  isTest ht := by cases ht
  move hm := by cases hm

theorem compiled_setPropertyNoPop {value obj index : Exp} {nv no ni : Node} (hv : Compiled f M value s nv)
    (ho : Compiled f M obj (s + 1) no) (hi : Compiled f M index (s + 2) ni) (hret : value.retValues = 1)
    (ho1 : obj.retValues = 1) (hi1 : index.retValues = 1) (c : Int) :
    Compiled f M (.setProperty true value obj index) s
      ⟨moveType (nv.elide (nv.movesOperand f) s).2, s, (nv.elide (nv.movesOperand f) s).2, c,
        [⟨.setPropertyNoPop, (no.elide (no.movesOperand f) (s + 1)).2, (ni.elide (ni.movesOperand f) (s + 2)).2,
        (nv.elide (nv.movesOperand f) s).2,
        [(nv.elide (nv.movesOperand f) s).1, (no.elide (no.movesOperand f) (s + 1)).1,
          (ni.elide (ni.movesOperand f) (s + 2)).1]⟩]⟩ := by
  refine compiled_move hs rfl (fun r hr => by cases hr; rfl) ?_
  rw [execList_cons, execList_nil, Run.seq_done]
  refine (setProperty_realises hs hv ho hi (Nat.le_of_eq hret.symm) (by omega) ho1 hi1 true (.inr rfl)).post fun os σ hos => ?_
  obtain ⟨os', rfl, hheld⟩ := hos
  obtain ⟨o, ho, hloc⟩ := hheld.last
  obtain ⟨o', rfl⟩ := List.length_eq_one_iff.1 (hheld.length.trans hret)
  cases ho
  exact ⟨_, rfl, hloc⟩

/-- The node of an assignment to a variable of the environment. -/
def envNode (f : Function) (name p : Nat) (n : Node) : Node :=
  if isXConst (f.constSlot (.string name)) then
    ⟨.setProperty, f.envSlot, p + 1, p, [n, ⟨.getXConst, p + 1, f.constSlot (.string name), 0, []⟩]⟩
  else ⟨.setProperty, f.envSlot, f.constSlot (.string name), p, [n]⟩

theorem compiled_setEnvVar {noPop : Bool} {name : Nat} {e : Exp} {n : Node} (he : Compiled f M e s n) (hret : 1 ≤ e.retValues)
    (hone : noPop = true → e.retValues = 1) {p : Nat} (hp : p + 1 = s + e.retValues) :
    Compiled f M (.setEnvVar noPop name e) s (envNode f name p n) where
  leaves := by
    have hleft : ∀ n' vs σ, vs.length = e.retValues ∧ Temps s vs σ.temps →
        Left f M (.setEnvVar noPop name e) s n' (leftOf noPop (vs.map .value)) σ := by
      intro n' vs σ hσ
      rw [leftOf_map]
      cases noPop with
      | true => exact Left.values (hσ.1.trans (hone rfl)) hσ.2 fun ht => by simp [Exp.tested] at ht
      | false =>
        refine Left.values ?_ hσ.2.dropLast fun ht => by simp [Exp.tested] at ht
        rw [cond_false, List.length_dropLast, hσ.1]
        simp [Exp.retValues]
    rw [eval]
    unfold envNode
    cases isXConst (f.constSlot (.string name)) with
    | false =>
      simp only [Bool.false_eq_true, if_false]
      rw [exec_of_type (by simp) (by simp) (by simp), execList_cons, execList_nil, Run.seq_done]
      exact he.finish.bind fun vs => (setEnv_realises (by omega) (K := fun T => vs.length = e.retValues ∧ Temps s vs T)
        fun σ hσ => ⟨hσ.2.top hσ.1 hret hp _, slotValue_const _ σ, hσ⟩).map _ fun _ σ hσ => hleft _ vs σ hσ
    | true =>
      simp only [if_true]
      rw [exec_of_type (by simp) (by simp) (by simp), execList_cons, execList_cons, execList_nil, Run.seq_done, Run.seq_assoc]
      refine he.finish.bind fun vs => ?_
      have hload := load_realises (M := M) hs (show s ≤ p + 1 by omega) (.string name)
        (P := fun σ => vs.length = e.retValues ∧ Temps s vs σ.temps)
        (Q := fun k σ => σ.temps (p + 1) = k ∧ k = M.constant (f.constIndex (.string name)) ∧ vs.length = e.retValues ∧
          Temps s vs σ.temps)
        fun σ hσ => ⟨update_same _ _ _, rfl, hσ.1, hσ.2.congr fun i hi => update_ne _ _ (by omega)⟩
      refine (hload.bind fun k => (setEnv_realises (x := vs.getLastD (null f M)) (p := p) (by omega)
        (K := fun T => vs.length = e.retValues ∧ Temps s vs T) fun σ hσ => ⟨hσ.2.2.2.top hσ.2.2.1 hret hp _, ?_, hσ.2.2⟩).map
          (fun _ => leftOf noPop (vs.map .value)) fun _ σ hσ => hleft _ vs σ hσ).congr (pure_bind _ _).symm
      exact (slotValue_temp (by omega) σ).trans (hσ.1.trans hσ.2.1)
  moved hm := by
    cases hx : isXConst (f.constSlot (.string name)) <;> simp [envNode, hx, Node.movesOperand] at hm
  last ho := by
    cases hx : isXConst (f.constSlot (.string name)) <;>
      simp [envNode, hx, Node.overridable, Node.lastOperator, Node.allowOverrideOpcodeResult] at ho
  isTest ht := by cases hx : isXConst (f.constSlot (.string name)) <;> simp [envNode, hx, NodeType.isTest] at ht
  move hm := by cases hx : isXConst (f.constSlot (.string name)) <;> simp [envNode, hx] at hm

end

end NewVM
end Compiler
end ObjectScript
