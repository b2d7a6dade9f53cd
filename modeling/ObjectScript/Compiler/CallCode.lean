import ObjectScript.Compiler.CompoundAssignments
/-!
# Lists and calls

The values of a list of expressions come one behind the other, and a call takes those from a register on.  The operators
that are methods of the globals are calls, and a chain of concatenations is one call with all its parts.

`call_realises` is behind all of them: when the callee, `this` and the arguments are in a row of registers, the
instruction reads this row, and the results come where it began.  What is below the row stays.
-/
namespace ObjectScript
namespace Compiler
namespace NewVM

open Registers

variable {V W τ : Type} {f : Function} {M : Machine V W τ}

/-! ## Lists -/

theorem compiledAll_nil (s : Nat) : CompiledAll f M [] s [] where
  leaves := by
    rw [evalAll_nil, execList_nil]
    exact Realises.pure fun σ _ => ⟨rfl, Temps.nil s _⟩
  last m hm := by cases hm

/-- The last operator of a node of its own is the node. -/
theorem Compiled.last_of_allowed {e : Exp} {s : Nat} {n : Node} (h : Compiled f M e s n)
    (hallow : n.allowOverrideOpcodeResult = true) (ha : (f.numLocals : Int) ≤ n.a) : 1 ≤ e.retValues ∧ n.a + 1 = s + e.retValues := by
  have hlist : ¬ (n.type = .params ∨ n.type = .codeList) := by
    rintro (hn | hn) <;> rw [Node.allowOverrideOpcodeResult, hn] at hallow <;> cases hallow
  have hlast : n.lastOperator = some n := by rw [Node.lastOperator, if_neg hlist]
  obtain ⟨h1, m, hm, hma⟩ := h.last (by rw [Node.overridable, hlast, Option.any_some, hallow, decide_eq_true ha]; rfl)
  obtain rfl : n = m := Option.some.inj (hlast.symm.trans hm)
  exact ⟨h1, hma⟩

theorem compiledAll_cons {e : Exp} {es : List Exp} {s : Nat} {n : Node} {ns : List Node} (he : Compiled f M e s n)
    (hes : CompiledAll f M es (s + e.retValues) ns) (hnil : ns = [] → es = []) : CompiledAll f M (e :: es) s (n :: ns) where
  leaves := by
    rw [evalAll, execList_cons]
    refine he.finish.bind fun vs => ?_
    refine (hes.leaves.after (s := s) (K := fun T => vs.length = e.retValues ∧ Temps s vs T) (Nat.le_add_right s _)
      fun T T' hT h => ⟨h.1, h.2.congr fun i hi => hT i (by omega)⟩).map _ fun ws σ hσ => ?_
    obtain ⟨⟨hlen, htemps⟩, hlen', htemps'⟩ := hσ
    refine ⟨by rw [List.length_append, hlen, hlen', retSum], Temps.append.2 ⟨htemps', ?_⟩⟩
    rwa [hlen']
  last m hm hallow ha := by
    cases hns : ns with
    | nil =>
      rw [hns] at hm
      cases hm
      rw [hnil hns, retSum, retSum]
      exact he.last_of_allowed hallow ha
    | cons n' ns' =>
      rw [hns, List.getLast?_cons_cons, ← hns] at hm
      obtain ⟨h1, h2⟩ := hes.last m hm hallow ha
      rw [retSum]
      omega

theorem compiled_params {es : List Exp} {s : Nat} {ns : List Node} (h : CompiledAll f M es s ns) :
    Compiled f M (.params es) s ⟨.params, 0, 0, 0, ns⟩ := by
  refine .of_list (.inl rfl) ?_ fun m hm hallow ha => ?_
  · rw [exec_list rfl, eval]
    exact h.leaves.map _ fun vs σ hσ => Left.values (hσ.1.trans (by rw [Exp.retValues])) hσ.2 fun ht => by
      simp [Exp.tested] at ht
  · rw [Exp.retValues]
    exact h.last m hm hallow ha

theorem retLast_eq_retSum : ∀ {es : List Exp}, (∀ e ∈ es.dropLast, e.retValues = 0) → retLast es = retSum es
  | [], _ => by rw [retLast, retSum]
  | [e], _ => by rw [retLast, retSum, retSum, Nat.add_zero]
  | e :: e' :: es, h => by
    rw [retLast, retSum, retLast_eq_retSum fun x hx => h x (List.mem_cons_of_mem e hx),
      h e (List.mem_cons_self), Nat.zero_add]
    exact List.cons_ne_nil e' es

theorem compiled_codeList {es : List Exp} {s : Nat} {ns : List Node} (h : CompiledAll f M es s ns)
    (hempty : ∀ e ∈ es.dropLast, e.retValues = 0) (a : Int) : Compiled f M (.codeList es) s ⟨.codeList, a, 0, 0, ns⟩ := by
  refine .of_list (.inr rfl) ?_ fun m hm hallow ha => ?_
  · rw [exec_list rfl, eval]
    exact h.leaves.map _ fun vs σ hσ => Left.values (hσ.1.trans (by rw [Exp.retValues, retLast_eq_retSum hempty])) hσ.2
      fun ht => by simp [Exp.tested] at ht
  · rw [Exp.retValues, retLast_eq_retSum hempty]
    exact h.last m hm hallow ha

theorem compiled_popValue {e : Exp} {s : Nat} {n : Node} (h : Compiled f M e s n) :
    Compiled f M (.popValue e) s ⟨.popValue, 0, 0, 0, [n]⟩ where
  leaves := by
    rw [exec_list rfl, execList_cons, execList_nil, Run.seq_done, eval]
    refine h.finish.map _ fun vs σ hσ => ?_
    rw [← List.map_dropLast]
    refine Left.values ?_ hσ.2.dropLast fun ht => by simp [Exp.tested] at ht
    rw [List.length_dropLast, hσ.1, Exp.retValues]
  moved hm := by simp [Node.movesOperand] at hm
  last ho := by simp [Node.overridable, Node.lastOperator, Node.allowOverrideOpcodeResult] at ho
  isTest ht := by cases ht
  move hm := by cases hm

/-! ## Calls -/

theorem args_eq {s : Nat} (hs : f.numLocals ≤ s) {vs : List V} {σ : State (Frame V W) V} (h : Temps s vs σ.temps) :
    ((List.range vs.length).map fun i : Nat => slotValue f M σ (s + i)) = vs := by
  refine List.ext_getElem? fun i => ?_
  rw [List.getElem?_map]
  rcases Nat.lt_or_ge i vs.length with hi | hi
  · rw [List.getElem?_range hi, List.getElem?_eq_getElem hi]
    have hslot := slotValue_temp (f := f) (M := M) (s := s + i) (by omega) σ
    rw [h i vs[i] (List.getElem?_eq_getElem hi)] at hslot
    exact congrArg some hslot
  · rw [List.getElem?_eq_none (by simpa using hi), List.getElem?_eq_none hi]
    rfl

/-- **A call**, behind its values. -/
theorem call_realises {s : Nat} (hs : f.numLocals ≤ s) {kind : CallType} {ret : Nat} {e : Exp} (hret : e.retValues = ret)
    {n : Node} (ha : n.a = s) {vs : List V} {k : Nat} :
    Realises s (fun σ => vs.length = k ∧ Temps s vs σ.temps) (callValues M kind ret vs) (act f M (.call kind) s k ret)
      (Left f M e s n) := by
  refine (Realises.keep (k := place s) (x := M.call kind vs ret) (Q := fun r σ => r.1.length = ret ∧ Temps s r.1 σ.temps)
    (fun σ hσ => ?_) (fun r T i hi => if_pos hi) fun σ r fr _ hr => ?_).map (fun r => r.1.map Operand.value) fun r σ hσ => ?_
  · show Run.keep (M.call kind _ _) _ σ = _
    rw [← hσ.1]
    exact congrArg (fun vs => Run.keep (M.call kind vs ret) (place s) σ) (args_eq hs hσ.2)
  · obtain ⟨vs', junk⟩ := r
    refine ⟨M.call_length kind vs ret _ _ fr hr, fun i v hi => ?_⟩
    show (if s + i < s then _ else vs'.getD (s + i - s) (junk (s + i))) = v
    rw [if_neg (by omega), Nat.add_sub_cancel_left, List.getD_eq_getElem?_getD, hi, Option.getD_some]
  · refine Left.values (hσ.1.trans hret.symm) hσ.2 fun _ v hv => ?_
    rw [ha, slotValue_temp hs]
    exact Temps.singleton.1 (hv ▸ hσ.2)

theorem compiled_call {s : Nat} (hs : f.numLocals ≤ s) {kind : CallType} {e : Exp} {ps : List Exp} {ret : Nat} {n : Node}
    {ns : List Node} (he : Compiled f M e s n) (hps : CompiledAll f M ps (s + e.retValues) ns) :
    Compiled f M (.call kind e ps ret) s
      ⟨.call kind, s, (e.retValues + retSum ps : Nat), ret, [n, ⟨.params, 0, 0, 0, ns⟩]⟩ where
  leaves := by
    rw [exec_of_type (by simp) (by simp) (by simp), execList_cons, execList_cons, execList_nil, Run.seq_done, Run.seq_assoc,
      exec_list (n := ⟨.params, 0, 0, 0, ns⟩) rfl, eval]
    refine he.finish.bind fun vs => ?_
    refine (hps.leaves.after (s := s) (K := fun T => vs.length = e.retValues ∧ Temps s vs T) (Nat.le_add_right s _)
      fun T T' hT h => ⟨h.1, h.2.congr fun i hi => hT i (by omega)⟩).bind fun ws => ?_
    refine (call_realises hs (by rw [Exp.retValues]) rfl (k := e.retValues + retSum ps)).conseq (fun σ hσ => ?_) (fun _ _ h => h)
      (Nat.le_refl s)
    obtain ⟨⟨hlen, htemps⟩, hlen', htemps'⟩ := hσ
    refine ⟨by rw [List.length_append, hlen, hlen'], Temps.append.2 ⟨htemps', ?_⟩⟩
    rwa [hlen']
  moved hm := by simp [Node.movesOperand] at hm
  last ho := by simp [Node.overridable, Node.lastOperator, Node.allowOverrideOpcodeResult] at ho
  isTest ht := by cases ht
  move hm := by cases hm

/-! ## Methods of the globals -/

/-- What a call of a method of the globals takes. -/
def globalArgs (f : Function) (M : Machine V W τ) (name : Nat) (x : Comp (Frame V W) τ (List V)) : Comp (Frame V W) τ (List V) := do
  let g ← (Operand.local (f.numParams + postVarGlobals)).get
  let vs ← x
  return g :: M.constant (f.constIndex (.string name)) :: vs

theorem callGlobal_eq (name ret : Nat) (x : Comp (Frame V W) τ (List V)) :
    callGlobal f M name ret x = globalArgs f M name x >>= callValues M .callMethod ret := by
  simp only [callGlobal, globalArgs, bind_assoc, pure_bind]

/-- The code of a chain of concatenations: one call with all its parts. -/
def ConcatCode (f : Function) (M : Machine V W τ) (e : Exp) (s : Nat) (n : Node) : Prop :=
  ∃ (g : Node) (list : List Node) (k : Nat), n = ⟨.call .callMethod, s, k, 1, [g, ⟨.params, 0, 0, 0, list⟩]⟩ ∧
    Realises s (fun _ => True) (globalArgs f M e.concatName (evalParts f M e)) ((exec f M g).seq (execList f M list))
      fun vs σ => vs.length = k ∧ Temps s vs σ.temps

theorem ConcatCode.addOperand {l r : Exp} {s name : Nat} {nl nr : Node} (hl : ConcatCode f M l s nl) (hconcat : l.isConcat = true)
    {p : Nat} (hp : nl.a + nl.b = p) (hr : Compiled f M r p nr) (hr1 : r.retValues = 1) :
    ConcatCode f M (.concat name l r) s (nl.addOperand nr) := by
  obtain ⟨g, list, k, rfl, hrun⟩ := hl
  refine ⟨g, list ++ [nr], k + 1, rfl, ?_⟩
  have hpk : p = s + k := by
    have : (s : Int) + k = p := hp
    omega
  subst hpk
  rw [execList_append, execList_cons, execList_nil, Run.seq_done, ← Run.seq_assoc]
  refine (hrun.bind (y := fun ws => now f M (eval f M r) >>= fun y => Pure.pure (ws ++ [y])) fun ws => ?_).congr ?_
  · refine ((hr.now hr1).after (s := s) (K := fun T => ws.length = k ∧ Temps s ws T) (Nat.le_add_right s k)
      fun T T' hT h => ⟨h.1, h.2.congr fun i hi => hT i (by omega)⟩).map _ fun y σ hσ => ?_
    obtain ⟨hy, hlen, htemps⟩ := hσ
    refine ⟨by rw [List.length_append, hlen]; rfl, Temps.append.2 ⟨htemps, Temps.singleton.2 ?_⟩⟩
    rwa [hlen]
  · simp only [globalArgs, Exp.concatName, evalParts, hconcat, if_true, bind_assoc, pure_bind]
    rfl

section

variable {s : Nat} (hs : f.numLocals ≤ s)

include hs

theorem globalArgs_realises (name : Nat) {x : Comp (Frame V W) τ (List V)} {list : List Node} {k : Nat}
    (hx : Realises (s + 2) (fun _ => True) x (execList f M list) fun vs σ => vs.length = k ∧ Temps (s + 2) vs σ.temps) :
    Realises s (fun _ => True) (globalArgs f M name x)
      ((exec f M ⟨moveType f.globalsSlot, s, f.globalsSlot, 0, []⟩).seq
        (execList f M (⟨moveType (f.constSlot (.string name)), (s + 1 : Nat), f.constSlot (.string name), 0, []⟩ :: list)))
      fun vs σ => vs.length = k + 2 ∧ Temps s vs σ.temps := by
  have hglobals := (compiled_local (f := f) (M := M) hs (e := .getLocalVar ⟨f.numParams + postVarGlobals, 0⟩) f.globals_lt rfl
    (by simp [eval])).now rfl
  have hname := (compiled_const (f := f) (M := M) (Nat.le_succ_of_le hs) (.string name)).now rfl
  rw [now_getLocalVar] at hglobals
  rw [execList_cons, show f.globalsSlot = (f.numParams + postVarGlobals : Nat) from rfl, moveType_local]
  refine (hglobals.bind (y := fun g => now f M (eval f M (.const (.string name))) >>= fun k => x >>= fun vs =>
    Pure.pure (g :: k :: vs)) fun g => ?_).congr ?_
  · refine (hname.after (s := s) (K := fun T => T s = g) (Nat.le_succ s)
      fun T T' hT h => (hT s (Nat.lt_succ_self s)).trans h).bind fun k => ?_
    refine (hx.after (s := s) (K := fun T => T (s + 1) = k ∧ T s = g) (by omega)
      fun T T' hT h => ⟨(hT _ (by omega)).trans h.1, (hT s (by omega)).trans h.2⟩).map _ fun vs σ hσ => ?_
    obtain ⟨⟨hlen, htemps⟩, hk, hg⟩ := hσ
    refine ⟨by rw [List.length_cons, List.length_cons, hlen], ?_⟩
    exact Temps.append (l := [g]).2 ⟨Temps.singleton.2 hg, Temps.append (l := [k]).2 ⟨Temps.singleton.2 hk, htemps⟩⟩
  · simp only [globalArgs, eval, now, single, pure_bind, List.getLastD_cons]
    rfl

/-- The call of a method of the globals, behind its arguments. -/
theorem compiled_callGlobal {e : Exp} {name ret : Nat} (hret : e.retValues = ret) {x : Comp (Frame V W) τ (List V)}
    {g : Node} {list : List Node} {k : Nat} (heval : eval f M e = callGlobal f M name ret x)
    (hx : Realises s (fun _ => True) (globalArgs f M name x) ((exec f M g).seq (execList f M list))
      fun vs σ => vs.length = k ∧ Temps s vs σ.temps) :
    Compiled f M e s ⟨.call .callMethod, s, k, ret, [g, ⟨.params, 0, 0, 0, list⟩]⟩ where
  leaves := by
    rw [exec_of_type (by simp) (by simp) (by simp), execList_cons, execList_cons, execList_nil, Run.seq_done,
      exec_list (n := ⟨.params, 0, 0, 0, list⟩) rfl, heval, callGlobal_eq]
    exact hx.bind fun vs => call_realises hs hret rfl
  moved hm := by simp [Node.movesOperand] at hm
  last ho := by simp [Node.overridable, Node.lastOperator, Node.allowOverrideOpcodeResult] at ho
  isTest ht := by cases ht
  move hm := by cases hm

theorem ConcatCode.compiled {l r : Exp} {name : Nat} {n : Node} (h : ConcatCode f M (.concat name l r) s n) :
    Compiled f M (.concat name l r) s n := by
  obtain ⟨g, list, k, rfl, hrun⟩ := h
  refine compiled_callGlobal hs (by simp [Exp.retValues]) ?_ hrun
  rw [eval, evalParts]

end

end NewVM
end Compiler
end ObjectScript
