import ObjectScript.Compiler.ExpEval
/-!
# The registers hold the values

`postCompileNewVM` keeps the meaning of an expression: from the height at which it begins the temporaries get its values,
those below are left alone, and the locals and the world end as `eval` says.  What an operator of the code reads late,
the meaning reads late.

An operator of the code may read a local when its other operand has already run, so a pending value is a computation and
not a value (`Compiled`).  The lemmas here are about one instruction and about what an expression leaves behind when it
stops half way.
-/
namespace ObjectScript
namespace Compiler
namespace NewVM

open Registers

variable {V W τ : Type}

/-! ## Values in temporaries -/

/-- The temporaries from `s` on have the values. -/
def Temps (s : Nat) (vs : List V) (T : Nat → V) : Prop := ∀ i v, vs[i]? = some v → T (s + i) = v

theorem Temps.nil (s : Nat) (T : Nat → V) : Temps s [] T := by
  intro i v h
  simp at h

theorem Temps.singleton {s : Nat} {v : V} {T : Nat → V} : Temps s [v] T ↔ T s = v := by
  refine ⟨fun h => h 0 v rfl, fun h i w hi => ?_⟩
  cases i with
  | zero =>
    obtain rfl : v = w := by simpa using hi
    exact h
  | succ i => simp at hi

theorem Temps.append {s : Nat} {l m : List V} {T : Nat → V} :
    Temps s (l ++ m) T ↔ Temps s l T ∧ Temps (s + l.length) m T := by
  refine ⟨fun h => ⟨fun i v hi => h i v ?_, fun i v hi => ?_⟩, fun h i v hi => ?_⟩
  · exact List.getElem?_append_left (List.getElem?_eq_some_iff.1 hi).1 ▸ hi
  · rw [Nat.add_assoc]
    exact h (l.length + i) v (by rw [List.getElem?_append_right (Nat.le_add_right _ _), Nat.add_sub_cancel_left]; exact hi)
  · rcases Nat.lt_or_ge i l.length with hlt | hge
    · exact h.1 i v (List.getElem?_append_left hlt ▸ hi)
    · have := h.2 (i - l.length) v (List.getElem?_append_right hge ▸ hi)
      rwa [Nat.add_assoc, Nat.add_sub_cancel' hge] at this

theorem Temps.congr {s : Nat} {vs : List V} {T T' : Nat → V} (h : Temps s vs T) (hT : ∀ i < s + vs.length, T' i = T i) :
    Temps s vs T' := by
  intro i v hi
  rw [hT _ (Nat.add_lt_add_left (List.getElem?_eq_some_iff.1 hi).1 s)]
  exact h i v hi

theorem Temps.getLast {s : Nat} {vs : List V} {T : Nat → V} (h : Temps s vs T) {v : V} (hv : vs.getLast? = some v) :
    T (s + vs.length - 1) = v := by
  have hpos : 0 < vs.length := List.length_pos_of_mem (List.mem_of_getLast? hv)
  rw [Nat.add_sub_assoc hpos]
  exact h _ v (List.getLast?_eq_getElem? ▸ hv)

theorem Temps.top {s ret p : Nat} {vs : List V} {T : Nat → V} (h : Temps s vs T) (hlen : vs.length = ret) (hret : 1 ≤ ret)
    (hp : p + 1 = s + ret) (d : V) : T p = vs.getLastD d := by
  cases hvs : vs.getLast? with
  | none =>
    rw [List.getLast?_eq_none_iff.1 hvs] at hlen
    simp at hlen
    omega
  | some x => rw [List.getLastD_eq_getLast?, hvs, Option.getD_some, ← h.getLast hvs, hlen, show s + ret - 1 = p by omega]

theorem Temps.dropLast {s : Nat} {vs : List V} {T : Nat → V} (h : Temps s vs T) : Temps s vs.dropLast T := by
  cases hv : vs.getLast? with
  | none =>
    rw [List.getLast?_eq_none_iff.1 hv]
    exact Temps.nil s T
  | some v =>
    obtain ⟨ws, rfl⟩ := List.getLast?_eq_some_iff.1 hv
    rw [List.dropLast_concat]
    exact (Temps.append.1 h).1

theorem map_value_of_no_local {os : List (Operand V)} (h : ∀ i : Nat, .local i ∈ os → False) (fr : Frame V W) :
    (os.map (Operand.read fr)).map Operand.value = os := by
  rw [List.map_map]
  refine (List.map_congr_left fun o ho => ?_).trans (List.map_id os)
  cases o with
  | value v => rfl
  | «local» i => exact (h i ho).elim

theorem map_read_value (vs : List V) (fr : Frame V W) : (vs.map Operand.value).map (Operand.read fr) = vs := by
  rw [List.map_map]
  exact List.map_id vs

section

variable (f : Function) (M : Machine V W τ)

/-! ## Places of operands -/

/-- Where an operand is: a constant, a local, or the temporary `s`. -/
def Located (s : Nat) (b : Int) (o : Operand V) (T : Nat → V) : Prop :=
  b < 0 ∧ o = .value (M.constant (-1 - b).toNat) ∨ (∃ i : Nat, i < f.numLocals ∧ b = i ∧ o = .local i) ∨
    b = s ∧ f.numLocals ≤ s ∧ o = .value (T s)

/-- The operands of an expression with `ret` values: the last one at `c`, the others in their temporaries. -/
structure Held (s ret p : Nat) (c : Int) (os : List (Operand V)) (T : Nat → V) : Prop where
  length : os.length = ret
  below : ∃ vs, os.dropLast = vs.map Operand.value ∧ Temps s vs T
  last : ∃ o, os.getLast? = some o ∧ Located f M p c o T

variable {f M}

theorem Located.read {s : Nat} {b : Int} {o : Operand V} {σ : State (Frame V W) V} (h : Located f M s b o σ.temps) :
    slotValue f M σ b = o.read σ.frame := by
  rcases h with ⟨hb, rfl⟩ | ⟨i, hi, rfl, rfl⟩ | ⟨rfl, hs, rfl⟩
  · rw [slotValue, if_pos hb]
    rfl
  · rw [slotValue, if_neg (by omega), if_pos (by omega)]
    rfl
  · rw [slotValue, if_neg (by omega), if_neg (by omega)]
    rfl

theorem Located.congr {s : Nat} {b : Int} {o : Operand V} {T T' : Nat → V} (h : Located f M s b o T) (hT : T' s = T s) :
    Located f M s b o T' := by
  rcases h with h | h | ⟨hb, hs, ho⟩
  · exact .inl h
  · exact .inr (.inl h)
  · exact .inr (.inr ⟨hb, hs, hT ▸ ho⟩)

theorem Held.congr {s ret p : Nat} {c : Int} {os : List (Operand V)} {T T' : Nat → V} (h : Held f M s ret p c os T)
    (hp : p + 1 = s + ret) (hT : ∀ i < p + 1, T' i = T i) : Held f M s ret p c os T' where
  length := h.length
  below := by
    obtain ⟨vs, hvs, htemps⟩ := h.below
    refine ⟨vs, hvs, htemps.congr fun i hi => hT i ?_⟩
    have hlen := congrArg List.length hvs
    rw [List.length_dropLast, List.length_map, h.length] at hlen
    omega
  last := by
    obtain ⟨o, ho, hloc⟩ := h.last
    exact ⟨o, ho, hloc.congr (hT p (Nat.lt_succ_self p))⟩

theorem slotValue_temp {s : Nat} (hs : f.numLocals ≤ s) (σ : State (Frame V W) V) : slotValue f M σ s = σ.temps s := by
  rw [slotValue, if_neg (by omega), if_neg (by omega)]
  rfl

theorem slotValue_local {i : Nat} (hi : i < f.numLocals) (σ : State (Frame V W) V) :
    slotValue f M σ i = σ.frame.locals i := by
  rw [slotValue, if_neg (by omega), if_pos (by omega)]
  rfl

theorem slotValue_const (c : Const) (σ : State (Frame V W) V) :
    slotValue f M σ (f.constSlot c) = M.constant (f.constIndex c) := by
  have h : (-1 - f.constSlot c).toNat = f.constIndex c := by
    unfold Function.constSlot
    omega
  rw [slotValue, if_pos (by unfold Function.constSlot; omega), h]

theorem slotValue_env (σ : State (Frame V W) V) :
    slotValue f M σ f.envSlot = σ.frame.locals (f.numParams + postVarEnv) :=
  slotValue_local (Nat.lt_trans (Nat.lt_succ_self _) f.globals_lt) σ

theorem setSlot_temp {s : Nat} (hs : f.numLocals ≤ s) (v : V) (σ : State (Frame V W) V) :
    setSlot f s v σ = ⟨σ.frame, update σ.temps s v⟩ := by
  rw [setSlot, if_neg (by omega)]
  rfl

theorem setSlot_local {i : Nat} (hi : i < f.numLocals) (v : V) (σ : State (Frame V W) V) :
    setSlot f i v σ = ⟨σ.frame.setLocal i v, σ.temps⟩ := by
  rw [setSlot, if_pos (by omega)]
  rfl

/-! ## What the code of an expression does -/

variable (f M)

/-- What holds behind the code of an expression that began at the height `s`. -/
structure Left (e : Exp) (s : Nat) (n : Node) (os : List (Operand V)) (σ : State (Frame V W) V) : Prop where
  length : os.length = e.retValues
  temps : Temps s (os.map (Operand.read σ.frame)) σ.temps
  late : ∀ i : Nat, .local i ∈ os → n.movesOperand f = true ∧ n.b = i
  tested : e.tested = true → ∀ o, os = [o] → slotValue f M σ n.a = o.read σ.frame

/-- The code of an expression.  Where its value may be taken from elsewhere, or its last operator may write elsewhere, that
is so too. -/
structure Compiled (e : Exp) (s : Nat) (n : Node) : Prop where
  leaves : Realises s (fun _ => True) (eval f M e) (exec f M n) (Left f M e s n)
  moved : n.movesOperand f = true → e.retValues = 1 ∧ Realises s (fun _ => True) (eval f M e) (exec f M (n.setType .nop))
    fun os σ => ∃ o, os = [o] ∧ Located f M s n.b o σ.temps
  last : n.overridable f = true → 1 ≤ e.retValues ∧ ∃ m, n.lastOperator = some m ∧ m.a + 1 = s + e.retValues
  isTest : n.type.isTest = true → n.a = s ∧ e.retValues = 1
  move : n.type = .move → e.assignsLocal = true ∧ n.a < f.numLocals ∨
    (f.numLocals : Int) ≤ n.a ∧ ∀ r, n.list = [r] → r.movesOperand f = false

structure CompiledAll (es : List Exp) (s : Nat) (ns : List Node) : Prop where
  leaves : Realises s (fun _ => True) (evalAll f M es) (execList f M ns) fun vs σ => vs.length = retSum es ∧ Temps s vs σ.temps
  last : ∀ m, ns.getLast? = some m → m.allowOverrideOpcodeResult = true → (f.numLocals : Int) ≤ m.a →
    1 ≤ retSum es ∧ m.a + 1 = s + retSum es

variable {f M}

namespace Compiled

variable {e : Exp} {s : Nat} {n : Node} (h : Compiled f M e s n)

include h

theorem finish : Realises s (fun _ => True) (finish (eval f M e)) (exec f M n)
    fun vs σ => vs.length = e.retValues ∧ Temps s vs σ.temps :=
  h.leaves.reads _ fun os σ hos => ⟨by rw [List.length_map, hos.length], hos.temps⟩

/-- The one value, read behind the code, and in the register of the node where it is to be tested. -/
theorem now_tested (hret : e.retValues = 1) (ht : e.tested = true) : Realises s (fun _ => True) (now f M (eval f M e))
    (exec f M n) fun v σ => σ.temps s = v ∧ slotValue f M σ n.a = v := by
  refine ((h.leaves.map (fun os => os.getLastD (.value (null f M))) (R := fun o σ => σ.temps s = o.read σ.frame ∧
    slotValue f M σ n.a = o.read σ.frame) fun os σ hos => ?_).reads _ fun o σ ho => ho).congr rfl
  obtain ⟨o, rfl⟩ := List.length_eq_one_iff.1 (hos.length.trans hret)
  exact ⟨Temps.singleton.1 hos.temps, hos.tested ht o rfl⟩

theorem now (hret : e.retValues = 1) : Realises s (fun _ => True) (now f M (eval f M e)) (exec f M n)
    fun v σ => σ.temps s = v := by
  refine ((h.leaves.map (fun os => os.getLastD (.value (null f M))) (R := fun o σ => σ.temps s = o.read σ.frame)
    fun os σ hos => ?_).reads _ fun o σ ho => ho).congr rfl
  obtain ⟨o, rfl⟩ := List.length_eq_one_iff.1 (hos.length.trans hret)
  exact Temps.singleton.1 hos.temps

/-- The values, the last one where it is read when its move is left out. -/
theorem operands (hret : 1 ≤ e.retValues) (hs : f.numLocals ≤ s) {el : Bool} (hel : el = true → n.movesOperand f = true)
    (hb : n.movesOperand f = true → 0 ≤ n.b → el = true) {p : Nat} (hp : p + 1 = s + e.retValues) :
    Realises s (fun _ => True) (eval f M e) (exec f M (n.elide el p).1)
      fun os σ => Held f M s e.retValues p (n.elide el p).2 os σ.temps := by
  cases el with
  | true =>
    obtain ⟨h1, hmoved⟩ := h.moved (hel rfl)
    obtain rfl : p = s := by omega
    refine hmoved.post fun os σ hos => ?_
    obtain ⟨o, rfl, ho⟩ := hos
    exact ⟨h1.symm, ⟨[], rfl, Temps.nil p _⟩, ⟨o, rfl, ho⟩⟩
  | false =>
    refine h.leaves.post fun os σ hos => ?_
    -- a local that is still to be read would have been moved, and its move left out
    have hvalue : ∀ i : Nat, .local i ∈ os → False := by
      intro i hi
      obtain ⟨hm, hbi⟩ := hos.late i hi
      cases hb hm (by omega)
    obtain ⟨ws, rfl⟩ : ∃ ws : List V, os = ws.map Operand.value := ⟨_, (map_value_of_no_local hvalue σ.frame).symm⟩
    have htemps : Temps s ws σ.temps := map_read_value ws σ.frame ▸ hos.temps
    have hlen : ws.length = e.retValues := by rw [← hos.length, List.length_map]
    refine ⟨hos.length, ⟨ws.dropLast, List.map_dropLast.symm, htemps.dropLast⟩, ?_⟩
    cases hlast : ws.getLast? with
    | none =>
      rw [List.getLast?_eq_none_iff.1 hlast] at hlen
      simp at hlen
      omega
    | some v =>
      refine ⟨.value v, by rw [List.getLast?_map, hlast]; rfl, .inr (.inr ⟨rfl, by omega, ?_⟩)⟩
      rw [← htemps.getLast hlast, show p = s + ws.length - 1 by omega]

/-- The one operand, where it is read when its move is left out. -/
theorem operand (hret : e.retValues = 1) (hs : f.numLocals ≤ s) {el : Bool} (hel : el = true → n.movesOperand f = true)
    (hb : n.movesOperand f = true → 0 ≤ n.b → el = true) :
    Realises s (fun _ => True) (single f M (eval f M e)) (exec f M (n.elide el s).1)
      fun o σ => Located f M s (n.elide el s).2 o σ.temps := by
  refine (h.operands (Nat.le_of_eq hret.symm) hs hel hb (p := s) (by omega)).map _ fun os σ hos => ?_
  obtain ⟨o, ho, hloc⟩ := hos.last
  rw [List.getLastD_eq_getLast?, ho]
  exact hloc

theorem operand_now (hret : e.retValues = 1) (hs : f.numLocals ≤ s) {d : Bool}
    (hel : d = true → n.movesOperand f = true) :
    Realises s (fun _ => True) (single f M (eval f M e)) (exec f M (n.elide d s).1)
      fun o σ => slotValue f M σ (n.elide d s).2 = o.read σ.frame := by
  cases d with
  | true =>
    refine (h.moved (hel rfl)).2.map _ fun os σ hos => ?_
    obtain ⟨o, rfl, ho⟩ := hos
    exact ho.read
  | false =>
    refine h.leaves.map _ fun os σ hos => ?_
    obtain ⟨o, rfl⟩ := List.length_eq_one_iff.1 (hos.length.trans hret)
    exact (slotValue_temp hs σ).trans (Temps.singleton.1 hos.temps)

end Compiled

/-! ## Instructions -/

theorem exec_of_type {n : Node} (hand : n.type ≠ .logicAnd) (hor : n.type ≠ .logicOr) (hq : n.type ≠ .question) :
    exec f M n = (execList f M n.list).seq (act f M n.type n.a n.b n.c) := by
  obtain ⟨type, a, b, c, list⟩ := n
  rw [exec]
  · rintro l r rfl
    exact absurd rfl hand
  · rintro l r rfl
    exact absurd rfl hor
  · rintro c l r rfl
    exact absurd rfl hq

def NodeType.isList : NodeType → Bool
  | .nop | .codeList | .params | .popValue => true
  | _ => false

theorem exec_list {n : Node} (h : n.type.isList = true) : exec f M n = execList f M n.list := by
  rw [exec_of_type (fun hn => by rw [hn] at h; cases h) (fun hn => by rw [hn] at h; cases h)
    (fun hn => by rw [hn] at h; cases h)]
  have hact : act f M n.type n.a n.b n.c = Run.done := by
    cases hn : n.type <;> first | rfl | (rw [hn] at h; cases h)
  rw [hact, Run.seq_done]

@[simp] theorem execList_cons (n : Node) (ns : List Node) : execList f M (n :: ns) = (exec f M n).seq (execList f M ns) := by
  rw [execList]

theorem execList_append (ns ms : List Node) : execList f M (ns ++ ms) = (execList f M ns).seq (execList f M ms) := by
  induction ns with
  | nil => simp [Run.done_seq]
  | cons n ns ih => rw [List.cons_append, execList_cons, execList_cons, ih, Run.seq_assoc]

/-- The instructions that write to their register what `result` says. -/
def NodeType.stores : NodeType → Bool
  | .move | .getXConst | .getUpvalue | .getProperty | .unary _ | .binary _ => true
  | _ => false

theorem act_stores {type : NodeType} (h : type.stores = true) (a b c : Int) (σ : State (Frame V W) V) :
    act f M type a b c σ = store f a (result f M type b c σ) σ := by
  cases type <;> first | rfl | cases h

theorem exec_stores {n : Node} (h : n.type.stores = true) :
    exec f M n = (execList f M n.list).seq fun σ => store f n.a (result f M n.type n.b n.c σ) σ := by
  rw [exec_of_type (fun hn => by rw [hn] at h; cases h) (fun hn => by rw [hn] at h; cases h)
    (fun hn => by rw [hn] at h; cases h)]
  congr 1
  funext σ
  exact act_stores h _ _ _ σ

theorem exec_leaf {type : NodeType} (h : type.stores = true) (a b c : Int) :
    exec f M ⟨type, a, b, c, []⟩ = act f M type a b c := by
  rw [exec_stores h, execList_nil, Run.done_seq]
  funext σ
  exact (act_stores h a b c σ).symm

theorem store_of_ok {a : Int} {X : Comp (Frame V W) τ V} {σ : State (Frame V W) V} {v : V} {fr : Frame V W}
    (h : X σ.frame = .ok (v, fr)) : store f a X σ = .ok (setSlot f a v ⟨fr, σ.temps⟩) := by
  rw [store, h]

theorem store_of_error {a : Int} {X : Comp (Frame V W) τ V} {σ : State (Frame V W) V} {t : τ} (h : X σ.frame = .error t) :
    store f a X σ = .error t := by
  rw [store, h]

theorem store_temp {a : Nat} (ha : f.numLocals ≤ a) (X : Comp (Frame V W) τ V) :
    store f a X = Run.keep X fun v T => update T a v := by
  funext σ
  cases h : X σ.frame with
  | error t => rw [store_of_error h, Run.keep_of_error h]
  | ok r => rw [store_of_ok h, Run.keep_of_ok h, setSlot_temp ha]

/-- **An instruction that writes a temporary.** -/
theorem store_realises {s a : Nat} (hs : f.numLocals ≤ s) (hsa : s ≤ a) {type : NodeType} (htype : type.stores = true)
    {b c : Int} {P : State (Frame V W) V → Prop} {X : Comp (Frame V W) τ V} {Q : V → State (Frame V W) V → Prop}
    (hX : ∀ σ, P σ → result f M type b c σ σ.frame = X σ.frame)
    (hQ : ∀ σ v fr, P σ → X σ.frame = .ok (v, fr) → Q v ⟨fr, update σ.temps a v⟩) :
    Realises s P X (act f M type a b c) Q := by
  refine Realises.keep (k := fun v T => update T a v) (fun σ hσ => ?_) (fun v T i hi => update_ne T v (by omega)) hQ
  rw [act_stores htype, store_temp (Nat.le_trans hs hsa), Run.keep, Run.keep, hX σ hσ]

theorem Left.values {e : Exp} {s : Nat} {n : Node} {l : List V} {σ : State (Frame V W) V} (hlen : l.length = e.retValues)
    (htemps : Temps s l σ.temps) (htested : e.tested = true → ∀ v, l = [v] → slotValue f M σ n.a = v) :
    Left f M e s n (l.map .value) σ where
  length := by rw [List.length_map, hlen]
  temps := (map_read_value l σ.frame).symm ▸ htemps
  late i hi := by simp at hi
  tested ht o ho := by
    obtain ⟨v, rfl, rfl⟩ := List.map_eq_singleton_iff.1 ho
    exact htested ht v rfl

theorem Left.single {e : Exp} {s : Nat} {n : Node} (hret : e.retValues = 1) {v : V} {σ : State (Frame V W) V}
    (htemp : σ.temps s = v) (htested : e.tested = true → slotValue f M σ n.a = v) : Left f M e s n [.value v] σ :=
  Left.values (l := [v]) hret.symm (Temps.singleton.2 htemp) fun ht w hw => by
    obtain rfl : v = w := List.head_eq_of_cons_eq hw
    exact htested ht

/-- **The last instruction of an expression with one value.** -/
theorem write_realises {s : Nat} (hs : f.numLocals ≤ s) {n : Node} (ha : n.a = s) {e : Exp} (hret : e.retValues = 1)
    {P : State (Frame V W) V → Prop} {Z : Comp (Frame V W) τ (List (Operand V))} {m : Run (Frame V W) V τ}
    {X : State (Frame V W) V → Comp (Frame V W) τ V} (hm : ∀ σ, P σ → m σ = store f s (X σ) σ)
    (hZ : ∀ σ, P σ → Z σ.frame = (X σ >>= fun v => Pure.pure [.value v] : Comp (Frame V W) τ (List (Operand V))) σ.frame) :
    Realises s P Z m (Left f M e s n) := by
  refine ⟨fun σ t hσ ht => ?_, fun σ os fr hσ hos => ?_⟩
  · rw [hZ σ hσ] at ht
    rcases Comp.bind_error ht with hx | ⟨v, g, -, hv⟩
    · rw [hm σ hσ, store_temp hs, Run.keep_of_error hx]
    · cases hv
  · rw [hZ σ hσ] at hos
    obtain ⟨v, g, hx, hv⟩ := Comp.bind_ok hos
    cases hv
    rw [hm σ hσ, store_temp hs, Run.keep_of_ok hx]
    refine ⟨_, rfl, fun i hi => update_ne _ v (by omega), Left.single hret (update_same _ s v) fun _ => ?_⟩
    rw [ha]
    exact (slotValue_temp hs _).trans (update_same _ s v)

theorem value_realises {s : Nat} (hs : f.numLocals ≤ s) {type : NodeType} (htype : type.stores = true) {b c : Int}
    {list : List Node} {e : Exp} (hret : e.retValues = 1) {P : State (Frame V W) V → Prop}
    {Z : Comp (Frame V W) τ (List (Operand V))} {X : State (Frame V W) V → Comp (Frame V W) τ V}
    (hX : ∀ σ, P σ → result f M type b c σ = X σ)
    (hZ : ∀ σ, P σ → Z σ.frame = (X σ >>= fun v => Pure.pure [.value v] : Comp (Frame V W) τ (List (Operand V))) σ.frame) :
    Realises s P Z (act f M type s b c) (Left f M e s ⟨type, s, b, c, list⟩) :=
  write_realises hs rfl hret (fun σ hσ => by rw [act_stores htype, hX σ hσ]) hZ

/-- An expression with one value in the register of its node. -/
theorem Compiled.of_leaves {e : Exp} {s : Nat} {n : Node}
    (h : Realises s (fun _ => True) (eval f M e) (exec f M n) (Left f M e s n)) (hret : e.retValues = 1) (ha : n.a = s)
    (hmove : n.type ≠ .move) (hparams : n.type ≠ .params) (hcode : n.type ≠ .codeList) : Compiled f M e s n where
  leaves := h
  moved hm := absurd hm (by simp [Node.movesOperand, hmove])
  last _ := ⟨Nat.le_of_eq hret.symm, n, by rw [Node.lastOperator, if_neg (by simp [hparams, hcode])], by rw [ha, hret]; rfl⟩
  isTest _ := ⟨ha, hret⟩
  move hm := absurd hm hmove

theorem Compiled.of_list {e : Exp} {s : Nat} {n : Node} (htype : n.type = .params ∨ n.type = .codeList)
    (h : Realises s (fun _ => True) (eval f M e) (exec f M n) (Left f M e s n))
    (hlast : ∀ m, n.list.getLast? = some m → m.allowOverrideOpcodeResult = true → (f.numLocals : Int) ≤ m.a →
      1 ≤ e.retValues ∧ m.a + 1 = s + e.retValues) : Compiled f M e s n where
  leaves := h
  moved hm := by
    rcases htype with h | h <;> simp [Node.movesOperand, h] at hm
  last ho := by
    rw [Node.overridable, Node.lastOperator, if_pos htype] at ho
    obtain ⟨m, hm, ho⟩ := (Option.any_eq_true _ _).1 ho
    rw [Bool.and_eq_true, decide_eq_true_eq] at ho
    obtain ⟨h1, ha⟩ := hlast m hm ho.1 ho.2
    exact ⟨h1, m, by rw [Node.lastOperator, if_pos htype, hm], ha⟩
  isTest ht := by
    rcases htype with h | h <;> rw [h] at ht <;> cases ht
  move hm := by
    rcases htype with h | h <;> rw [h] at hm <;> cases hm

/-- What a comparison or a negation tests, it writes to its register. -/
theorem exec_test {n : Node} (h : n.type.isTest = true) {s : Nat} (ha : n.a = s) :
    exec f M n = (execList f M n.list).seq fun σ => store f s (M.ofBool <$> testSlots f M n σ) σ := by
  rw [exec_of_type (fun hn => by rw [hn] at h; cases h) (fun hn => by rw [hn] at h; cases h)
    (fun hn => by rw [hn] at h; cases h)]
  congr 1
  funext σ
  obtain ⟨type, a, b, c, list⟩ := n
  obtain rfl : a = s := ha
  cases type <;> first | rfl | cases h

theorem load_realises {s a : Nat} (hs : f.numLocals ≤ s) (hsa : s ≤ a) (c : Const) {P : State (Frame V W) V → Prop}
    {Q : V → State (Frame V W) V → Prop}
    (hQ : ∀ σ, P σ → Q (M.constant (f.constIndex c)) ⟨σ.frame, update σ.temps a (M.constant (f.constIndex c))⟩) :
    Realises s P (Pure.pure (M.constant (f.constIndex c))) (exec f M ⟨.getXConst, a, f.constSlot c, 0, []⟩) Q := by
  rw [exec_leaf rfl]
  refine store_realises hs hsa rfl (fun σ _ => ?_) fun σ v fr hσ hv => ?_
  · exact congrFun (congrArg Pure.pure (slotValue_const c σ)) σ.frame
  · cases hv
    exact hQ σ hσ

theorem moveType_cases (b : Int) : moveType b = .move ∨ moveType b = .getXConst ∧ b < 0 := by
  unfold moveType
  cases h : isXConst b with
  | false => exact .inl rfl
  | true =>
    have hb : b < -(2 ^ (9 - 1) - 1) := of_decide_eq_true h
    exact .inr ⟨rfl, by omega⟩

theorem moveType_local (i : Nat) : moveType i = .move := by
  rcases moveType_cases i with h | ⟨-, h⟩
  · exact h
  · omega

theorem move_realises {e : Exp} {s : Nat} (hs : f.numLocals ≤ s) {b c : Int} {list : List Node} {type : NodeType}
    (htype : type = .move ∨ type = .getXConst) (h : Realises s (fun _ => True) (eval f M e) (execList f M list)
      fun os σ => ∃ o, os = [o] ∧ Located f M s b o σ.temps) :
    Realises s (fun _ => True) (eval f M e) (exec f M ⟨type, s, b, c, list⟩)
      fun os σ => ∃ o, os = [o] ∧ σ.temps s = o.read σ.frame ∧ ∀ i : Nat, o = .local i → b = i := by
  have hstores : type.stores = true := by rcases htype with rfl | rfl <;> rfl
  have hresult : ∀ σ : State (Frame V W) V, result f M type b c σ = Pure.pure (slotValue f M σ b) := by
    rcases htype with rfl | rfl <;> exact fun _ => rfl
  rw [exec_stores hstores]
  refine (h.bind (y := Pure.pure) fun os => ?_).congr (bind_pure _).symm
  refine ⟨?_, ?_⟩
  · rintro σ t - ⟨⟩
  rintro σ os' fr hσ ⟨⟩
  obtain ⟨o, rfl, ho⟩ := hσ
  show ∃ T, store f s (result f M type b c σ) σ = .ok ⟨σ.frame, T⟩ ∧ _
  rw [hresult, store_temp hs]
  refine ⟨_, rfl, fun i hi => update_ne _ _ (Nat.ne_of_lt hi), o, rfl, (update_same _ s _).trans ho.read, ?_⟩
  rintro i rfl
  rcases ho with ⟨-, ho⟩ | ⟨j, -, rfl, ho⟩ | ⟨-, -, ho⟩
  · cases ho
  · cases ho
    rfl
  · cases ho

/-- The value of a node may stay where it is: what its move would do is left to whoever reads it. -/
theorem compiled_move {e : Exp} {s : Nat} (hs : f.numLocals ≤ s) {b c : Int} {list : List Node} (hret : e.retValues = 1)
    (hlist : ∀ r, list = [r] → r.movesOperand f = false) (h : Realises s (fun _ => True) (eval f M e) (execList f M list)
      fun os σ => ∃ o, os = [o] ∧ Located f M s b o σ.temps) : Compiled f M e s ⟨moveType b, s, b, c, list⟩ := by
  rcases moveType_cases b with htype | ⟨htype, hb⟩
  · rw [htype]
    refine ⟨(move_realises hs (.inl rfl) h).post fun os σ hos => ?_, fun _ => ⟨hret, h.congr_run (exec_list rfl)⟩,
      fun _ => ⟨Nat.le_of_eq hret.symm, _, rfl, by rw [hret]; rfl⟩, (fun ht => by cases ht),
      fun _ => .inr ⟨Int.ofNat_le.2 hs, hlist⟩⟩
    obtain ⟨o, rfl, hread, hlocal⟩ := hos
    refine ⟨hret.symm, Temps.singleton.2 hread, fun i hi => ?_, fun _ o' ho' => ?_⟩
    · exact ⟨by simp [Node.movesOperand, hs], hlocal i (List.mem_singleton.1 hi).symm⟩
    · obtain rfl : o = o' := List.head_eq_of_cons_eq ho'
      exact (slotValue_temp hs _).trans hread
  · rw [htype]
    refine .of_leaves ((move_realises hs (.inr rfl) h).post fun os σ hos => ?_) hret rfl (by simp) (by simp) (by simp)
    obtain ⟨o, rfl, hread, hlocal⟩ := hos
    cases o with
    | value v => exact Left.single hret hread fun _ => (slotValue_temp hs _).trans hread
    | «local» i =>
      have := hlocal i rfl
      omega

theorem pure_located {s : Nat} {e : Exp} {o : Operand V} {b : Int} (he : eval f M e = Pure.pure [o])
    (ho : ∀ T, Located f M s b o T) : Realises s (fun _ => True) (eval f M e) (execList f M [])
      fun os σ => ∃ o, os = [o] ∧ Located f M s b o σ.temps := by
  rw [he, execList_nil]
  exact Realises.pure fun σ _ => ⟨o, rfl, ho σ.temps⟩

/-! ## Operands -/

section

variable {s : Nat} (hs : f.numLocals ≤ s)

include hs

theorem compiled_const (c : Const) : Compiled f M (.const c) s ⟨moveType (f.constSlot c), s, f.constSlot c, 0, []⟩ :=
  compiled_move hs rfl (fun r h => by cases h) (pure_located (by rw [eval]) fun _ => .inl ⟨by unfold Function.constSlot; omega,
    by rw [Function.constSlot]; congr 2; omega⟩)

theorem compiled_local {e : Exp} {i : Nat} (hi : i < f.numLocals) (hret : e.retValues = 1)
    (he : eval f M e = Pure.pure [.local i]) : Compiled f M e s ⟨.move, s, i, 0, []⟩ :=
  moveType_local i ▸ compiled_move hs hret (fun r h => by cases h) (pure_located he fun _ => .inr (.inl ⟨i, hi, rfl, rfl⟩))

theorem compiled_upvalue {v : LocalVar} (hup : v.upCount ≠ 0) :
    Compiled f M (.getLocalVar v) s ⟨.getUpvalue, s, v.index, v.upCount, []⟩ := by
  refine .of_leaves ?_ rfl rfl (by simp) (by simp) (by simp)
  rw [exec_leaf rfl, eval, getLocal, if_pos hup, if_pos hup]
  exact value_realises hs rfl rfl (fun σ _ => rfl) fun σ _ => rfl

/-! ## Operators -/

theorem compiled_unary {op : UnaryType} {e : Exp} {n : Node} (he : Compiled f M e s n) (he1 : e.retValues = 1) :
    Compiled f M (.unary op e) s ⟨.unary op, s, (n.elide (n.movesOperand f) s).2, 0, [(n.elide (n.movesOperand f) s).1]⟩ := by
  refine .of_leaves ?_ rfl rfl (by simp) (by simp) (by simp)
  rw [exec_of_type (by simp) (by simp) (by simp), eval]
  simp only [execList_cons, execList_nil, Run.seq_done, now, bind_assoc]
  refine (he.operand_now he1 hs fun h => h).bind fun o => ?_
  refine value_realises hs rfl rfl (X := fun σ => M.unary op (o.read σ.frame)) (fun σ hσ => ?_) fun σ hσ => rfl
  rw [result, hσ]

theorem compiled_binary {op : BinaryType} {l r : Exp} {nl nr : Node} (hl : Compiled f M l s nl)
    (hr : Compiled f M r (s + 1) nr) (hl1 : l.retValues = 1) (hr1 : r.retValues = 1) (hkept : r.assignsLocal = false) :
    Compiled f M (.binary op l r) s (finishBinary f op s nl nr) := by
  refine .of_leaves ?_ rfl rfl (by simp [finishBinary]) (by simp [finishBinary]) (by simp [finishBinary])
  rw [exec_of_type (by simp [finishBinary]) (by simp [finishBinary]) (by simp [finishBinary]), eval]
  simp only [finishBinary, execList_cons, execList_nil, Run.seq_done, Run.seq_assoc]
  refine (hl.operand hl1 hs (fun h => h) fun h _ => h).bind fun a => ?_
  -- the second move is left out only where there is one
  have hel : (decide (nr.type = .move) && decide ((f.numLocals : Int) ≤ nl.a)) = true → nr.movesOperand f = true := by
    intro h
    have htype := of_decide_eq_true (Bool.and_eq_true_iff.1 h).1
    rcases hr.move htype with ⟨hassigns, -⟩ | ⟨ha, -⟩
    · rw [hassigns] at hkept
      cases hkept
    · simp [Node.movesOperand, htype, ha]
  have hframe := (hr.operand_now hr1 (Nat.le_succ_of_le hs) hel).after
    (K := Located f M s (nl.elide (nl.movesOperand f) s).2 a) (Nat.le_succ s) fun T T' hT h => h.congr (hT s (Nat.lt_succ_self s))
  refine hframe.bind fun b => ?_
  refine value_realises hs rfl rfl (X := fun σ => M.binary op (a.read σ.frame) (b.read σ.frame)) (fun σ hσ => ?_) fun σ hσ => rfl
  rw [result, hσ.2.read]
  exact congrArg _ hσ.1

theorem compiled_getProperty {obj index : Exp} {no ni : Node} (ho : Compiled f M obj s no) (hi : Compiled f M index (s + 1) ni)
    (ho1 : obj.retValues = 1) (hi1 : index.retValues = 1) :
    Compiled f M (.getProperty obj index) s (finishGetProperty f s no ni) := by
  refine .of_leaves ?_ rfl rfl (by simp [finishGetProperty]) (by simp [finishGetProperty]) (by simp [finishGetProperty])
  rw [exec_of_type (by simp [finishGetProperty]) (by simp [finishGetProperty]) (by simp [finishGetProperty]), eval]
  simp only [finishGetProperty, execList_cons, execList_nil, Run.seq_done, Run.seq_assoc]
  have hel : (no.movesOperand f && decide (0 ≤ no.b)) = true → no.movesOperand f = true := fun h => (Bool.and_eq_true_iff.1 h).1
  refine (ho.operand ho1 hs hel fun h hb => by simp [h, hb]).bind fun a => ?_
  have hindex := (hi.operand_now hi1 (Nat.le_succ_of_le hs) (d := ni.movesOperand f) fun h => h).after
    (K := Located f M s (no.elide (no.movesOperand f && decide (0 ≤ no.b)) s).2 a) (Nat.le_succ s)
    fun T T' hT h => h.congr (hT s (Nat.lt_succ_self s))
  refine hindex.bind fun b => ?_
  refine value_realises hs rfl rfl (X := fun σ => M.getProperty (a.read σ.frame) (b.read σ.frame)) (fun σ hσ => ?_)
    fun σ hσ => rfl
  rw [result, hσ.2.read]
  exact congrArg _ hσ.1

theorem compiled_getEnvVar (name : Nat) :
    Compiled f M (.getEnvVar name) s (if isXConst (f.constSlot (.string name)) then
      addXconst ⟨.getProperty, s, f.envSlot, s, []⟩ (some ⟨.getXConst, s, f.constSlot (.string name), 0, []⟩)
      else ⟨.getProperty, s, f.envSlot, f.constSlot (.string name), []⟩) := by
  cases isXConst (f.constSlot (.string name)) with
  | false =>
    refine .of_leaves ?_ rfl rfl (by simp) (by simp) (by simp)
    simp only [Bool.false_eq_true, if_false]
    rw [exec_leaf rfl, eval]
    refine value_realises hs rfl rfl (X := fun σ => M.getProperty (σ.frame.locals (f.numParams + postVarEnv))
      (M.constant (f.constIndex (.string name)))) (fun σ _ => ?_) fun σ _ => rfl
    rw [result, slotValue_env, slotValue_const]
  | true =>
    refine .of_list (.inr rfl) ?_ fun m hm _ _ => ?_
    · rw [exec_list rfl]
      simp only [if_true, addXconst, execList_cons, execList_nil, Run.seq_done]
      have hx := load_realises (M := M) hs (Nat.le_refl s) (.string name) (P := fun _ => True)
        (Q := fun v σ => σ.temps s = v) fun σ _ => update_same _ s _
      refine ((hx.bind (y := fun k => (Operand.local (f.numParams + postVarEnv)).get >>= fun env =>
        M.getProperty env k >>= fun v => Pure.pure [.value v]) fun k => ?_).congr ?_)
      · rw [exec_leaf rfl]
        refine write_realises hs rfl rfl (X := fun σ => M.getProperty (σ.frame.locals (f.numParams + postVarEnv)) k)
          (fun σ hσ => ?_) fun σ _ => rfl
        rw [act_stores rfl, result, slotValue_env, slotValue_temp hs, hσ]
      · rw [pure_bind, eval, getEnv, bind_assoc]
    · obtain rfl : _ = m := Option.some.inj hm
      exact ⟨Nat.le_refl 1, rfl⟩

/-! ## Conditions -/

theorem compiled_logic {op : LogicType} {l r : Exp} {nl nr : Node} (hl : Compiled f M l s nl)
    (hr : Compiled f M r (s + 1) nr) (hl1 : l.retValues = 1) (hr1 : r.retValues = 1) :
    Compiled f M (.logic op l r) s ⟨.logic op, s, 0, 0, [nl, nr]⟩ := by
  refine .of_leaves ?_ rfl rfl (by simp) (by simp) (by simp)
  rw [exec_test rfl rfl, eval]
  simp only [execList_cons, execList_nil, Run.seq_done, Run.seq_assoc]
  refine (hl.now hl1).bind fun x => ?_
  refine ((hr.now hr1).after (K := fun T => T s = x) (Nat.le_succ s)
    fun T T' hT h => (hT s (Nat.lt_succ_self s)).trans h).bind fun y => ?_
  refine write_realises hs rfl rfl (X := fun _ => M.ofBool <$> M.logic op x y) (fun σ hσ => ?_) fun σ hσ => ?_
  · simp only [testSlots, compareSlots]
    rw [slotValue_temp hs, show (s : Int) + 1 = (s + 1 : Nat) from rfl,
      slotValue_temp (Nat.le_succ_of_le hs), hσ.1, hσ.2]
  · rw [bind_map_left]

/-- A condition leads to one of two pieces of code, whether or not its answer was written to a register. -/
theorem condition_decides {e : Exp} {n : Node} (h : Compiled f M e s n) (hret : e.retValues = 1) (ht : e.tested = true) :
    Decides s (now f M (eval f M e) >>= fun x => Pure.pure (M.toBool x))
      fun m k => (if n.type.isTest then execList f M n.list else exec f M n).seq (branchOn (testSlots f M n) m k) := by
  cases htest : n.type.isTest with
  | false =>
    have hslots : ∀ σ, testSlots f M n σ = Pure.pure (M.toBool (slotValue f M σ n.a)) := by
      intro σ
      rw [testSlots]
      cases hn : n.type <;> first | rfl | (rw [hn] at htest; cases htest)
    have hbranch : ∀ m k, branchOn (testSlots f M n) m k = Run.branch (fun σ => M.toBool (slotValue f M σ n.a)) m k := by
      intro m k
      funext σ
      rw [branchOn, hslots]
      rfl
    simp only [Bool.false_eq_true, if_false, hbranch]
    exact ((h.now_tested hret ht).map _ fun x σ hσ => congrArg M.toBool hσ.2).decides
  | true =>
    simp only [if_true]
    have ha := (h.isTest htest).1
    have hnow := h.now hret
    rw [exec_test htest ha] at hnow
    refine ⟨fun σ t m k hx => ?_, fun σ b fr hb => ?_⟩
    · rcases Comp.bind_error hx with hx | ⟨x, g, -, hy⟩
      · have hrun := hnow.stops σ t trivial hx
        cases hlist : execList f M n.list σ with
        | error t' =>
          rw [Run.seq_of_error hlist] at hrun ⊢
          exact congrArg Except.error (Except.error.inj hrun)
        | ok ρ =>
          rw [Run.seq_of_ok hlist] at hrun ⊢
          rw [branchOn]
          cases htest : testSlots f M n ρ ρ.frame with
          | error t' =>
            rw [store_temp hs, Run.keep_of_error (Comp.map_of_error htest)] at hrun
            exact congrArg Except.error (Except.error.inj hrun)
          | ok r =>
            rw [store_temp hs, Run.keep_of_ok (Comp.map_of_ok htest)] at hrun
            cases hrun
      · cases hy
    · obtain ⟨x, g, hx, hy⟩ := Comp.bind_ok hb
      cases hy
      obtain ⟨T, hrun, hT, hvalue⟩ := hnow.gives σ x fr trivial hx
      cases hlist : execList f M n.list σ with
      | error t' =>
        rw [Run.seq_of_error hlist] at hrun
        cases hrun
      | ok ρ =>
        rw [Run.seq_of_ok hlist, store_temp hs] at hrun
        cases htest : testSlots f M n ρ ρ.frame with
        | error t' =>
          rw [Run.keep_of_error (Comp.map_of_error htest)] at hrun
          cases hrun
        | ok r =>
          obtain ⟨b, g⟩ := r
          rw [Run.keep_of_ok (Comp.map_of_ok htest)] at hrun
          cases hrun
          obtain rfl : M.ofBool b = x := (update_same _ s _).symm.trans hvalue
          refine ⟨ρ.temps, fun i hi => ?_, fun m k => ?_⟩
          · rw [← hT i hi, update_ne _ _ (Nat.ne_of_lt hi)]
          · rw [Run.seq_of_ok hlist, branchOn, htest, M.toBool_ofBool]
            cases b <;> rfl

theorem compiled_question {c l r : Exp} {nc nl nr : Node} (hc : Compiled f M c s nc) (hl : Compiled f M l s nl)
    (hr : Compiled f M r s nr) (hc1 : c.retValues = 1) (hl1 : l.retValues = 1) (hr1 : r.retValues = 1)
    (ht : c.tested = true) : Compiled f M (.question c l r) s ⟨.question, s, 0, 0, [nc, nl, nr]⟩ := by
  refine .of_leaves ?_ rfl rfl (by simp) (by simp) (by simp)
  rw [exec, eval]
  have hbranch := (condition_decides hs hc hc1 ht).bind
    (y := fun b => if b then now f M (eval f M l) else now f M (eval f M r)) (hl.now hl1) (hr.now hr1)
  refine ((hbranch.map (fun y => [Operand.value y]) (R := Left f M (.question c l r) s ⟨.question, s, 0, 0, [nc, nl, nr]⟩)
    fun y σ hσ => ?_).congr ?_)
  · exact Left.single rfl hσ fun _ => (slotValue_temp hs σ).trans hσ
  · simp only [bind_assoc, pure_bind]
    refine bind_congr fun x => ?_
    cases M.toBool x <;> rfl

theorem compiled_logicAnd {l r : Exp} {nl nr : Node} (hl : Compiled f M l s nl) (hr : Compiled f M r s nr)
    (hl1 : l.retValues = 1) (hr1 : r.retValues = 1) : Compiled f M (.logicAnd l r) s ⟨.logicAnd, s, 0, 0, [nl, nr]⟩ := by
  refine .of_leaves ?_ rfl rfl (by simp) (by simp) (by simp)
  rw [exec, eval]
  refine (hl.now hl1).bind fun x => Realises.branch (b := M.toBool x) (fun σ hσ => ?_) (fun hx => ?_) fun hx => ?_
  · rw [slotValue_temp hs, hσ]
  · rw [if_pos hx]
    refine ((hr.now hr1).conseq (fun _ _ => trivial) (fun _ _ h => h) (Nat.le_refl s)).map _ fun y σ hσ => ?_
    exact Left.single rfl hσ fun _ => (slotValue_temp hs σ).trans hσ
  · rw [if_neg (by simp [hx])]
    exact Realises.pure fun σ hσ => Left.single rfl hσ fun _ => (slotValue_temp hs σ).trans hσ

theorem compiled_logicOr {l r : Exp} {nl nr : Node} (hl : Compiled f M l s nl) (hr : Compiled f M r s nr)
    (hl1 : l.retValues = 1) (hr1 : r.retValues = 1) : Compiled f M (.logicOr l r) s ⟨.logicOr, s, 0, 0, [nl, nr]⟩ := by
  refine .of_leaves ?_ rfl rfl (by simp) (by simp) (by simp)
  rw [exec, eval]
  refine (hl.now hl1).bind fun x => Realises.branch (b := M.toBool x) (fun σ hσ => ?_) (fun hx => ?_) fun hx => ?_
  · rw [slotValue_temp hs, hσ]
  · rw [if_pos hx]
    exact Realises.pure fun σ hσ => Left.single rfl hσ fun _ => (slotValue_temp hs σ).trans hσ
  · rw [if_neg (by simp [hx])]
    refine ((hr.now hr1).conseq (fun _ _ => trivial) (fun _ _ h => h) (Nat.le_refl s)).map _ fun y σ hσ => ?_
    exact Left.single rfl hσ fun _ => (slotValue_temp hs σ).trans hσ

end

end

end NewVM
end Compiler
end ObjectScript
