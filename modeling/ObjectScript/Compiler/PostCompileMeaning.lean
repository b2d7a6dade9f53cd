import ObjectScript.Compiler.CallCode
/-!
# The pass keeps the meaning

Every expression the passes before leave, if `postCompileNewVM` accepts it, has code that does what the expression means.

`postCompileNewVM_meaning` is an induction over the expression, with one lemma for each constructor from the modules
before.  `WellFormed` leaves out a condition whose register does not hold its value, and the second operands of
`postCompileNewVM_loses_assignment`: an assignment to a local, whose move is left out although the local is not in a
register that the operator reads.
-/
namespace ObjectScript
namespace Compiler
namespace NewVM

open Registers

variable {V W τ : Type} {f : Function} {M : Machine V W τ}

/-- What the pass promises of an expression, wherever the stack of temporaries is. -/
def Correct (f : Function) (M : Machine V W τ) (e : Exp) : Prop :=
  ∀ (s : Nat) (st : Stack) (n : Node) (st' : Stack), st.cur = s → f.numLocals ≤ s → postCompileNewVM f e st = .ok (n, st') →
    st'.cur = (s + e.retValues : Nat) ∧ Compiled f M e s n ∧ (e.isConcat = true → ConcatCode f M e s n)

theorem correctAll {es : List Exp} (h : ∀ e ∈ es, Correct f M e) : ∀ {s : Nat} {st : Stack} {ns : List Node} {st' : Stack},
    st.cur = s → f.numLocals ≤ s → postCompileList f es st = .ok (ns, st') →
    st'.cur = (s + retSum es : Nat) ∧ CompiledAll f M es s ns ∧ (ns = [] → es = []) := by
  induction es with
  | nil =>
    intro s st ns st' hcur hs hrun
    cases hrun
    exact ⟨hcur, compiledAll_nil s, fun _ => rfl⟩
  | cons e es ih =>
    intro s st ns st' hcur hs hrun
    rw [postCompileList] at hrun
    obtain ⟨n, st1, hn, hrun⟩ := Comp.bind_ok hrun
    obtain ⟨ns', st2, hns, hrun⟩ := Comp.bind_ok hrun
    cases hrun
    obtain ⟨hcur1, hc, -⟩ := h e List.mem_cons_self s st n st1 hcur hs hn
    obtain ⟨hcur2, hcs, hnil⟩ := ih (fun e' he' => h e' (List.mem_cons_of_mem e he')) hcur1 (by omega) hns
    refine ⟨?_, compiledAll_cons hc hcs hnil, fun h => by cases h⟩
    rw [hcur2, retSum, Nat.add_assoc]

theorem newMove_ok {b : Int} {st st' : Stack} {n : Node} (h : newMove b st = .ok (n, st')) :
    n = ⟨moveType b, st.cur, b, 0, []⟩ ∧ st'.cur = st.cur + 1 := by
  cases h
  exact ⟨rfl, rfl⟩

theorem correct_const (c : Const) : Correct f M (.const c) := by
  intro s st n st' hcur hs hrun
  obtain ⟨rfl, hst⟩ := newMove_ok (by rwa [postCompileNewVM] at hrun)
  rw [hcur] at hst ⊢
  exact ⟨hst, compiled_const hs c, fun h => by cases h⟩

theorem correct_getThis : Correct f M .getThis := by
  intro s st n st' hcur hs hrun
  rw [postCompileNewVM_getThis] at hrun
  cases hrun
  rw [hcur]
  exact ⟨rfl, compiled_local hs (Nat.lt_trans f.this_lt (Nat.lt_trans (Nat.lt_succ_self _) f.globals_lt)) rfl (by rw [eval]),
    fun h => by cases h⟩

theorem correct_getLocalVar {v : LocalVar} (hv : v.Valid f) : Correct f M (.getLocalVar v) := by
  intro s st n st' hcur hs hrun
  rw [postCompileNewVM] at hrun
  obtain ⟨a, st1, halloc, hrun⟩ := Comp.bind_ok hrun
  cases halloc
  cases hrun
  rw [hcur]
  refine ⟨rfl, ?_, fun h => by cases h⟩
  by_cases hup : v.upCount = 0
  · rw [if_neg (not_not.2 hup)]
    exact compiled_local hs (hv hup) rfl (by rw [eval, if_neg (not_not.2 hup)])
  · rw [if_pos hup]
    exact compiled_upvalue hs hup

theorem correct_getEnvVar (name : Nat) : Correct f M (.getEnvVar name) := by
  intro s st n st' hcur hs hrun
  rw [postCompileNewVM] at hrun
  obtain ⟨a, st1, halloc, hrun⟩ := Comp.bind_ok hrun
  cases halloc
  cases hrun
  rw [hcur]
  exact ⟨rfl, compiled_getEnvVar hs name, fun h => by cases h⟩

/-- The node of an assignment to a local, and the height behind it. -/
theorem finishSetLocalVar_ok {noPop : Bool} {v : LocalVar} {p : Nat} {m n : Node} {st st' : Stack}
    (hcur : st.cur = (p + 1 : Nat)) (h : finishSetLocalVar f noPop v m st = .ok (n, st')) :
    st'.cur = (if noPop then p + 1 else p : Nat) ∧ (n = assignNode v p m ∨ noPop = false ∧ v.upCount = 0 ∧
      m.overridable f = true ∧ n = ⟨.nop, v.index, p, 0, [m.override v.index]⟩) := by
  have hpop : st.cur - 1 = p := by omega
  rw [finishSetLocalVar] at h
  obtain ⟨u, st2, hpop', h⟩ := Comp.bind_ok h
  cases hpop'
  obtain ⟨b, st3, hb, h⟩ := Comp.bind_ok h
  cases hb
  simp only [hpop] at h
  cases noPop with
  | true =>
    cases h
    exact ⟨rfl, .inl rfl⟩
  | false =>
    by_cases hover : (assignNode v p m).type = .move ∧ m.overridable f = true
    · have hup : v.upCount = 0 := by
        by_contra hup
        rw [assignNode, if_pos hup] at hover
        cases hover.1
      rw [if_neg (by simp), if_pos hover] at h
      cases h
      refine ⟨rfl, .inr ⟨rfl, hup, hover.2, ?_⟩⟩
      rw [assignNode, if_neg (not_not.2 hup)]
    · rw [if_neg (by simp), if_neg hover] at h
      cases h
      exact ⟨rfl, .inl rfl⟩

theorem correct_setLocalVar {noPop : Bool} {v : LocalVar} {e : Exp} (hv : v.Valid f) (he : Correct f M e)
    (hret : 1 ≤ e.retValues) (hone : noPop = true → e.retValues = 1) : Correct f M (.setLocalVar noPop v e) := by
  intro s st n st' hcur hs hrun
  rw [postCompileNewVM] at hrun
  obtain ⟨m, st1, hm, hrun⟩ := Comp.bind_ok hrun
  obtain ⟨hcur1, hc, -⟩ := he s st m st1 hcur hs hm
  obtain ⟨p, hp⟩ : ∃ p : Nat, p + 1 = s + e.retValues := ⟨s + e.retValues - 1, by omega⟩
  obtain ⟨hcur2, hn⟩ := finishSetLocalVar_ok (p := p) (by rw [hcur1, hp]) hrun
  have hheight : (if noPop then p + 1 else p) = s + (Exp.setLocalVar noPop v e).retValues := by
    cases noPop with
    | true =>
      have := hone rfl
      have : (Exp.setLocalVar true v e).retValues = 1 := by simp [Exp.retValues]
      rw [if_pos rfl]
      omega
    | false =>
      have : (Exp.setLocalVar false v e).retValues = e.retValues - 1 := by simp [Exp.retValues]
      rw [if_neg (by simp)]
      omega
  refine ⟨by rw [hcur2, hheight], ?_, fun h => by cases h⟩
  rcases hn with rfl | ⟨rfl, hup, hover, rfl⟩
  · exact compiled_assignNode hs hc hv hret hone hp
  · exact compiled_override hc hv hup hover p 0

/-- The node of an assignment to a variable of the environment, and the height behind it. -/
theorem finishSetEnvVar_ok {noPop : Bool} {name p : Nat} {m n : Node} {st st' : Stack} (hcur : st.cur = (p + 1 : Nat))
    (h : finishSetEnvVar f noPop name m st = .ok (n, st')) :
    n = envNode f name p m ∧ st'.cur = (if noPop then p + 1 else p : Nat) := by
  have hpop : st.cur - 1 = p := by omega
  rw [finishSetEnvVar] at h
  obtain ⟨u, st2, hpop', h⟩ := Comp.bind_ok h
  cases hpop'
  obtain ⟨c, st3, hc, h⟩ := Comp.bind_ok h
  cases hc
  unfold envNode
  simp only [hpop] at h
  cases hx : isXConst (f.constSlot (.string name)) with
  | true =>
    simp only [hx, if_true] at h
    cases noPop with
    | true =>
      cases h
      exact ⟨rfl, rfl⟩
    | false =>
      cases h
      exact ⟨rfl, rfl⟩
  | false =>
    simp only [hx, Bool.false_eq_true, if_false] at h
    cases noPop with
    | true =>
      cases h
      exact ⟨rfl, rfl⟩
    | false =>
      cases h
      exact ⟨rfl, rfl⟩

theorem correct_setEnvVar {noPop : Bool} {name : Nat} {e : Exp} (he : Correct f M e)
    (hret : 1 ≤ e.retValues) (hone : noPop = true → e.retValues = 1) : Correct f M (.setEnvVar noPop name e) := by
  intro s st n st' hcur hs hrun
  rw [postCompileNewVM] at hrun
  obtain ⟨m, st1, hm, hrun⟩ := Comp.bind_ok hrun
  obtain ⟨hcur1, hc, -⟩ := he s st m st1 hcur hs hm
  obtain ⟨p, hp⟩ : ∃ p : Nat, p + 1 = s + e.retValues := ⟨s + e.retValues - 1, by omega⟩
  obtain ⟨rfl, hcur2⟩ := finishSetEnvVar_ok (p := p) (by rw [hcur1, hp]) hrun
  refine ⟨?_, compiled_setEnvVar hs hc hret hone hp, fun h => by cases h⟩
  rw [hcur2]
  cases noPop with
  | true =>
    have := hone rfl
    have hretv : (Exp.setEnvVar true name e).retValues = 1 := by simp [Exp.retValues]
    rw [hretv, if_pos rfl]
    omega
  | false =>
    have hretv : (Exp.setEnvVar false name e).retValues = e.retValues - 1 := by simp [Exp.retValues]
    rw [hretv, if_neg (by simp)]
    omega

theorem correct_setProperty {noPop : Bool} {value obj index : Exp} (hv : Correct f M value) (ho : Correct f M obj)
    (hi : Correct f M index) (hret : 1 ≤ value.retValues) (hone : noPop = true → value.retValues = 1)
    (ho1 : obj.retValues = 1) (hi1 : index.retValues = 1) : Correct f M (.setProperty noPop value obj index) := by
  intro s st n st' hcur hs hrun
  rw [postCompileNewVM] at hrun
  obtain ⟨nv, st1, hnv, hrun⟩ := Comp.bind_ok hrun
  obtain ⟨no, st2, hno, hrun⟩ := Comp.bind_ok hrun
  obtain ⟨ni, st3, hni, hrun⟩ := Comp.bind_ok hrun
  obtain ⟨hcur1, hcv, -⟩ := hv s st nv st1 hcur hs hnv
  obtain ⟨p, hp⟩ : ∃ p : Nat, p + 1 = s + value.retValues := ⟨s + value.retValues - 1, by omega⟩
  rw [← hp] at hcur1
  obtain ⟨hcur2, hco, -⟩ := ho (p + 1) st1 no st2 hcur1 (by omega) hno
  rw [ho1] at hcur2
  obtain ⟨hcur3, hci, -⟩ := hi (p + 2) st2 ni st3 hcur2 (by omega) hni
  have hpop : st3.cur - 3 = p := by omega
  rw [finishSetProperty] at hrun
  obtain ⟨u, st4, hpop', hrun⟩ := Comp.bind_ok hrun
  cases hpop'
  obtain ⟨q, st5, hq, hrun⟩ := Comp.bind_ok hrun
  cases hq
  simp only [hpop] at hrun
  cases noPop with
  | true =>
    obtain rfl : p = s := by
      have := hone rfl
      omega
    rw [if_pos rfl] at hrun
    obtain ⟨a, st6, halloc, hrun⟩ := Comp.bind_ok hrun
    cases halloc
    cases hrun
    exact ⟨rfl, compiled_setPropertyNoPop hs hcv hco hci (hone rfl) ho1 hi1 0, fun h => by cases h⟩
  | false =>
    rw [if_neg (by simp)] at hrun
    cases hrun
    refine ⟨?_, compiled_setProperty hs hcv hco hci hret hp ho1 hi1, fun h => by cases h⟩
    have hretv : (Exp.setProperty false value obj index).retValues = value.retValues - 1 := by simp [Exp.retValues]
    show (p : Int) = _
    rw [hretv]
    omega

theorem popTempVar_cur {st st' : Stack} {k : Nat} {u : Unit} (hcur : st.cur = (k + 1 : Nat))
    (h : popTempVar 1 st = .ok (u, st')) : st'.cur = k := by
  cases h
  show st.cur - 1 = k
  omega

theorem correct_of_one {e e' : Exp} {g : Int → Node → Node} (he : Correct f M e) (he1 : e.retValues = 1)
    (hrun' : postCompileNewVM f e' = do
      let stackPos ← stackCurSize
      let n ← postCompileNewVM f e
      return g stackPos n)
    (hg : ∀ s n, f.numLocals ≤ s → Compiled f M e s n → Compiled f M e' s (g s n)) (hret : e'.retValues = 1)
    (hconcat : e'.isConcat = false) : Correct f M e' := by
  intro s st n st' hcur hs hrun
  rw [hrun'] at hrun
  obtain ⟨p, st1, hp, hrun⟩ := Comp.bind_ok hrun
  cases hp
  obtain ⟨m, st2, hm, hrun⟩ := Comp.bind_ok hrun
  obtain ⟨hcur2, hc, -⟩ := he s st m st2 hcur hs hm
  cases hrun
  rw [hcur, hret]
  exact ⟨he1 ▸ hcur2, hg s m hs hc, fun h => by rw [hconcat] at h; cases h⟩

theorem correct_of_two {l r e' : Exp} {g : Int → Node → Node → Node} (hl : Correct f M l) (hr : Correct f M r)
    (hl1 : l.retValues = 1) (hr1 : r.retValues = 1)
    (hrun' : postCompileNewVM f e' = do
      let stackPos ← stackCurSize
      let nl ← postCompileNewVM f l
      let nr ← postCompileNewVM f r
      popTempVar 1
      return g stackPos nl nr)
    (hg : ∀ s nl nr, f.numLocals ≤ s → Compiled f M l s nl → Compiled f M r (s + 1) nr → Compiled f M e' s (g s nl nr))
    (hret : e'.retValues = 1) (hconcat : e'.isConcat = false) : Correct f M e' := by
  intro s st n st' hcur hs hrun
  rw [hrun'] at hrun
  obtain ⟨p, st1, hp, hrun⟩ := Comp.bind_ok hrun
  cases hp
  obtain ⟨nl, st2, hnl, hrun⟩ := Comp.bind_ok hrun
  obtain ⟨nr, st3, hnr, hrun⟩ := Comp.bind_ok hrun
  obtain ⟨hcur2, hcl, -⟩ := hl s st nl st2 hcur hs hnl
  rw [hl1] at hcur2
  obtain ⟨hcur3, hcr, -⟩ := hr (s + 1) st2 nr st3 hcur2 (by omega) hnr
  obtain ⟨u, st4, hpop, hrun⟩ := Comp.bind_ok hrun
  cases hrun
  rw [hcur, hret]
  exact ⟨popTempVar_cur (hcur3.trans (by rw [hr1])) hpop, hg s nl nr hs hcl hcr, fun h => by rw [hconcat] at h; cases h⟩

/-- An expression whose second operand takes the place of the first. -/
theorem correct_of_either {l r e' : Exp} {g : Int → Node → Node → Node} (hl : Correct f M l) (hr : Correct f M r)
    (hl1 : l.retValues = 1)
    (hrun' : postCompileNewVM f e' = do
      let stackPos ← stackCurSize
      let nl ← postCompileNewVM f l
      popTempVar 1
      let nr ← postCompileNewVM f r
      setCurSize (stackPos + 1)
      return g stackPos nl nr)
    (hg : ∀ s nl nr, f.numLocals ≤ s → Compiled f M l s nl → Compiled f M r s nr → Compiled f M e' s (g s nl nr))
    (hret : e'.retValues = 1) (hconcat : e'.isConcat = false) : Correct f M e' := by
  intro s st n st' hcur hs hrun
  rw [hrun'] at hrun
  obtain ⟨p, st1, hp, hrun⟩ := Comp.bind_ok hrun
  cases hp
  obtain ⟨nl, st2, hnl, hrun⟩ := Comp.bind_ok hrun
  obtain ⟨hcur2, hcl, -⟩ := hl s st nl st2 hcur hs hnl
  rw [hl1] at hcur2
  obtain ⟨u, st3, hpop, hrun⟩ := Comp.bind_ok hrun
  obtain ⟨nr, st4, hnr, hrun⟩ := Comp.bind_ok hrun
  obtain ⟨-, hcr, -⟩ := hr s st3 nr st4 (popTempVar_cur hcur2 hpop) hs hnr
  cases hrun
  rw [hcur, hret]
  exact ⟨rfl, hg s nl nr hs hcl hcr, fun h => by rw [hconcat] at h; cases h⟩

theorem correct_question {c l r : Exp} (hc : Correct f M c) (hl : Correct f M l) (hr : Correct f M r) (hc1 : c.retValues = 1)
    (hl1 : l.retValues = 1) (hr1 : r.retValues = 1) (ht : c.tested = true) : Correct f M (.question c l r) := by
  intro s st n st' hcur hs hrun
  rw [postCompileNewVM] at hrun
  obtain ⟨p, st1, hp, hrun⟩ := Comp.bind_ok hrun
  cases hp
  obtain ⟨nc, st2, hnc, hrun⟩ := Comp.bind_ok hrun
  obtain ⟨hcur2, hcc, -⟩ := hc s st nc st2 hcur hs hnc
  rw [hc1] at hcur2
  obtain ⟨u, st3, hpop, hrun⟩ := Comp.bind_ok hrun
  obtain ⟨nl, st4, hnl, hrun⟩ := Comp.bind_ok hrun
  obtain ⟨hcur4, hcl, -⟩ := hl s st3 nl st4 (popTempVar_cur hcur2 hpop) hs hnl
  rw [hl1] at hcur4
  obtain ⟨u', st5, hpop', hrun⟩ := Comp.bind_ok hrun
  obtain ⟨nr, st6, hnr, hrun⟩ := Comp.bind_ok hrun
  obtain ⟨hcur6, hcr, -⟩ := hr s st5 nr st6 (popTempVar_cur hcur4 hpop') hs hnr
  cases hrun
  rw [hcur]
  refine ⟨?_, compiled_question hs hcc hcl hcr hc1 hl1 hr1 ht, fun h => by cases h⟩
  rw [hcur6, hr1]
  rfl

theorem correct_incDecLocal {kind : IncDecType} {one : Nat} {ret : Bool} {v : LocalVar} (hv : v.Valid f) :
    Correct f M (.incDec kind one ret (.getLocalVar v)) := by
  intro s st n st' hcur hs hrun
  rw [postCompileNewVM] at hrun
  obtain ⟨p, st1, hp, hrun⟩ := Comp.bind_ok hrun
  cases hp
  obtain ⟨m, st2, hm, hrun⟩ := Comp.bind_ok hrun
  obtain ⟨hcur2, hc, -⟩ := correct_getLocalVar (M := M) hv s st m st2 hcur hs hm
  have hm' : m = if v.upCount ≠ 0 then ⟨.getUpvalue, s, v.index, v.upCount, []⟩ else ⟨.move, s, v.index, 0, []⟩ := by
    rw [postCompileNewVM] at hm
    cases hm
    rw [hcur]
  rw [hcur] at hrun
  exact ⟨(compiled_incDec_local hs hv hc hcur2 hm' hrun).1, (compiled_incDec_local hs hv hc hcur2 hm' hrun).2,
    fun h => by cases h⟩

theorem correct_incDecEnv {kind : IncDecType} {one name : Nat} {ret : Bool} :
    Correct f M (.incDec kind one ret (.getEnvVar name)) := by
  intro s st n st' hcur hs hrun
  rw [postCompileNewVM] at hrun
  obtain ⟨p, st1, hp, hrun⟩ := Comp.bind_ok hrun
  cases hp
  obtain ⟨m, st2, hm, hrun⟩ := Comp.bind_ok hrun
  obtain ⟨hcur2, hc, -⟩ := correct_getEnvVar (M := M) name s st m st2 hcur hs hm
  have hm' : m = if isXConst (f.constSlot (.string name)) then
      addXconst ⟨.getProperty, s, f.envSlot, s, []⟩ (some ⟨.getXConst, s, f.constSlot (.string name), 0, []⟩)
      else ⟨.getProperty, s, f.envSlot, f.constSlot (.string name), []⟩ := by
    rw [postCompileNewVM] at hm
    cases hm
    rw [hcur]
  rw [hcur] at hrun
  exact ⟨(compiled_incDec_env hs hc hcur2 hm' hrun).1, (compiled_incDec_env hs hc hcur2 hm' hrun).2, fun h => by cases h⟩

theorem correct_incDecMember {kind : IncDecType} {one : Nat} {ret : Bool} {obj index : Exp} (ho : Correct f M obj)
    (hi : Correct f M index) (ho1 : obj.retValues = 1) (hi1 : index.retValues = 1) :
    Correct f M (.incDec kind one ret (.getProperty obj index)) := by
  intro s st n st' hcur hs hrun
  rw [postCompileNewVM, postCompileNewVM] at hrun
  obtain ⟨p, st1, hp, hrun⟩ := Comp.bind_ok hrun
  cases hp
  obtain ⟨m, st2, hm, hrun⟩ := Comp.bind_ok hrun
  obtain ⟨p', st1', hp', hm⟩ := Comp.bind_ok hm
  cases hp'
  obtain ⟨no, sta, hno, hm⟩ := Comp.bind_ok hm
  obtain ⟨ni, stb, hni, hm⟩ := Comp.bind_ok hm
  obtain ⟨hcura, hco, -⟩ := ho s st no sta hcur hs hno
  rw [ho1] at hcura
  obtain ⟨hcurb, hci, -⟩ := hi (s + 1) sta ni stb hcura (by omega) hni
  rw [hi1] at hcurb
  obtain ⟨u, stc, hpop, hm⟩ := Comp.bind_ok hm
  cases hm
  rw [hcur] at hrun
  have h := compiled_incDec_member hs hco hci ho1 hi1 (popTempVar_cur hcurb hpop) hrun
  exact ⟨h.1, h.2, fun h => by cases h⟩

/-! ## Compound assignments -/

theorem finishOpAssign_move {op : BinaryType} {ret s : Nat} {n node : Node} {st st' : Stack} (htype : n.type = .move)
    {i : Nat} (ha : n.a = i) (hi : i < f.numLocals) (h : finishOpAssign f op ret s n st = .ok (node, st')) :
    st'.cur = (s + ret : Nat) ∧ node = if ret = 0
      then ⟨.codeList, 0, 0, 0, [⟨.binary op, i, i, (opAssignOperand f n).2, (opAssignOperand f n).1⟩]⟩
      else ⟨.codeList, s, 0, 0, [⟨.binary op, i, i, (opAssignOperand f n).2, (opAssignOperand f n).1⟩, ⟨.move, s, i, 0, []⟩]⟩ := by
  rw [finishOpAssign, htype] at h
  rw [if_neg (by omega), ha] at h
  cases h
  exact ⟨rfl, rfl⟩

theorem opAssignOperand_single {n m : Node} {p : Nat} (hlist : n.list = [m]) (hb : n.b = p) :
    opAssignOperand f n = ([(m.elide (m.movesOperand f) p).1], (m.elide (m.movesOperand f) p).2) := by
  rw [opAssignOperand, hlist]
  cases hm : m.movesOperand f with
  | true => simp [hm, Node.elide]
  | false => simp [hm, Node.elide, hb]

theorem opAssignOperand_override {m : Node} {i : Int} (hm : ∀ r, m.list = [r] → r.movesOperand f = false) :
    opAssignOperand f (m.setA i) = (m.list, m.b) := by
  unfold opAssignOperand Node.setA
  split
  · rename_i r hr
    rw [if_neg (by simp [hm r hr])]
    exact Prod.ext hr.symm rfl
  · rfl

theorem move_of_override {op : BinaryType} {ret s : Nat} {m node : Node} {i : Int} {st st' : Stack}
    (hover : m.overridable f = true) (h : finishOpAssign f op ret s (m.override i) st = .ok (node, st')) : m.type = .move := by
  by_cases hlist : m.type = .params ∨ m.type = .codeList
  · rw [Node.override, if_pos hlist] at h
    rcases hlist with ht | ht <;> rw [finishOpAssign, ht] at h <;> cases h
  · rw [Node.overridable, Node.lastOperator, if_neg hlist, Option.any_some, Bool.and_eq_true] at hover
    rw [Node.override, if_neg hlist, finishOpAssign] at h
    obtain ⟨type, a, b, c, list⟩ := m
    cases type <;> first | rfl | (cases hover.1; done) | cases h

theorem correct_opAssignLocal {op : BinaryType} {noPop : Bool} {v : LocalVar} {e : Exp} (hv : v.Valid f)
    (he : Correct f M e) (he1 : e.retValues = 1) : Correct f M (.opAssign op (.setLocalVar noPop v e)) := by
  intro s st n st' hcur hs hrun
  rw [postCompileNewVM, postCompileNewVM] at hrun
  obtain ⟨p, st1, halloc, hrun⟩ := Comp.bind_ok hrun
  cases halloc
  obtain ⟨t, st2, ht, hrun⟩ := Comp.bind_ok hrun
  obtain ⟨m, st3, hm, ht⟩ := Comp.bind_ok ht
  obtain ⟨hcur3, hc, -⟩ := he (s + 1) _ m st3 (by show st.cur + 1 = _; rw [hcur]; rfl) (by omega) hm
  rw [he1] at hcur3
  obtain ⟨-, htarget⟩ := finishSetLocalVar_ok (p := s + 1) hcur3 ht
  rw [hcur] at hrun
  have hret : (Exp.opAssign op (.setLocalVar noPop v e)).retValues = (Exp.setLocalVar noPop v e).retValues := by
    simp [Exp.retValues]
  have hretv : (Exp.setLocalVar noPop v e).retValues = if noPop then 1 else 0 := by
    cases noPop <;> simp [Exp.retValues, he1]
  rw [hret]
  by_cases hup : v.upCount = 0
  · obtain ⟨list, c, hright, hcur', hnode⟩ : ∃ list c, Realises (s + 1) (fun _ => True) (single f M (eval f M e))
        (execList f M list) (fun o σ => slotValue f M σ c = o.read σ.frame) ∧
        st'.cur = (s + (Exp.setLocalVar noPop v e).retValues : Nat) ∧ n = if (Exp.setLocalVar noPop v e).retValues = 0
          then ⟨.codeList, 0, 0, 0, [⟨.binary op, v.index, v.index, c, list⟩]⟩
          else ⟨.codeList, s, 0, 0, [⟨.binary op, v.index, v.index, c, list⟩, ⟨.move, s, v.index, 0, []⟩]⟩ := by
      rcases htarget with rfl | ⟨rfl, -, hover, rfl⟩
      · -- the right side, without its move where it has one
        have ht' : assignNode v (s + 1 : Nat) m = ⟨.move, v.index, (s + 1 : Nat), 0, [m]⟩ := by
          rw [assignNode, if_neg (not_not.2 hup)]
        have hunwrap : unwrapTarget (.setLocalVar noPop v e) (assignNode v (s + 1 : Nat) m) =
            ⟨.move, v.index, (s + 1 : Nat), 0, [m]⟩ := by
          rw [ht']
          simp [unwrapTarget, Exp.isSetPropertyNoPop]
        rw [hunwrap] at hrun
        refine ⟨_, _, ?_, finishOpAssign_move rfl rfl (hv hup) hrun⟩
        rw [opAssignOperand_single rfl rfl, execList_cons, execList_nil, Run.seq_done]
        exact hc.operand_now he1 (by omega) fun h => h
      · -- the right side writes to the local itself, and only a move may
        have hunwrap : unwrapTarget (.setLocalVar false v e) ⟨.nop, v.index, (s + 1 : Nat), 0, [m.override v.index]⟩ =
            m.override v.index := by
          simp [unwrapTarget, Exp.isSetLocalVar]
        rw [hunwrap] at hrun
        have hmove := move_of_override hover hrun
        have hm' : m.override v.index = m.setA v.index := by
          rw [Node.override, if_neg (by simp [hmove])]
        rw [hm'] at hrun
        refine ⟨_, _, ?_, finishOpAssign_move (n := m.setA v.index) hmove rfl (hv hup) hrun⟩
        rcases hc.move hmove with ⟨-, hlt⟩ | ⟨hge, hlist⟩
        · rw [Node.overridable, Node.lastOperator, if_neg (by simp [hmove]), Option.any_some, Bool.and_eq_true,
            decide_eq_true_eq] at hover
          omega
        · rw [opAssignOperand_override hlist]
          have hmoved := (hc.moved (by simp [Node.movesOperand, hmove, hge])).2.congr_run (exec_list rfl).symm
          refine hmoved.map _ fun os σ hos => ?_
          obtain ⟨o, rfl, ho⟩ := hos
          exact ho.read
    refine ⟨hcur', ?_, fun h => by cases h⟩
    have hcompiled : Compiled f M (.opAssign op (.setLocalVar noPop v e)) s _ := compiled_opAssign_local hs hv hup he1 hright
    rw [hnode, hretv]
    cases noPop <;> exact hcompiled
  · obtain rfl : t = ⟨.setUpvalue, v.index, (s + 1 : Nat), v.upCount, [m]⟩ := by
      rcases htarget with rfl | ⟨-, hup', -⟩
      · rw [assignNode, if_pos hup]
      · exact absurd hup' hup
    have hunwrap : unwrapTarget (.setLocalVar noPop v e) ⟨.setUpvalue, v.index, (s + 1 : Nat), v.upCount, [m]⟩ =
        ⟨.setUpvalue, v.index, (s + 1 : Nat), v.upCount, [m]⟩ := by
      simp [unwrapTarget]
    rw [hunwrap] at hrun
    cases hrun
    exact ⟨rfl, compiled_opAssign_upvalue hs hup hc he1, fun h => by cases h⟩

theorem correct_opAssignEnv {op : BinaryType} {noPop : Bool} {name : Nat} {e : Exp} (he : Correct f M e)
    (he1 : e.retValues = 1) : Correct f M (.opAssign op (.setEnvVar noPop name e)) := by
  intro s st n st' hcur hs hrun
  rw [postCompileNewVM, postCompileNewVM] at hrun
  obtain ⟨p, st1, halloc, hrun⟩ := Comp.bind_ok hrun
  cases halloc
  obtain ⟨t, st2, ht, hrun⟩ := Comp.bind_ok hrun
  obtain ⟨m, st3, hm, ht⟩ := Comp.bind_ok ht
  obtain ⟨hcur3, hc, -⟩ := he (s + 1) _ m st3 (by show st.cur + 1 = _; rw [hcur]; rfl) (by omega) hm
  rw [he1] at hcur3
  obtain ⟨rfl, -⟩ := finishSetEnvVar_ok (p := s + 1) hcur3 ht
  rw [hcur] at hrun
  have hret : (Exp.opAssign op (.setEnvVar noPop name e)).retValues = (Exp.setEnvVar noPop name e).retValues := by
    simp [Exp.retValues]
  have htype : (envNode f name (s + 1) m).type = .setProperty := by
    unfold envNode
    cases isXConst (f.constSlot (.string name)) <;> rfl
  have hunwrap : unwrapTarget (.setEnvVar noPop name e) (envNode f name (s + 1) m) = envNode f name (s + 1) m := by
    unfold unwrapTarget
    split <;> simp [Exp.isSetPropertyNoPop, Exp.isSetLocalVar]
  rw [hunwrap, finishOpAssign, htype] at hrun
  cases hrun
  rw [hret]
  exact ⟨rfl, compiled_opAssign_env hs hc he1, fun h => by cases h⟩

theorem correct_opAssignMember {op : BinaryType} {noPop : Bool} {value obj index : Exp} (hv : Correct f M value)
    (ho : Correct f M obj) (hi : Correct f M index) (hv1 : value.retValues = 1) (ho1 : obj.retValues = 1)
    (hi1 : index.retValues = 1) : Correct f M (.opAssign op (.setProperty noPop value obj index)) := by
  intro s st n st' hcur hs hrun
  rw [postCompileNewVM, postCompileNewVM] at hrun
  obtain ⟨p, st0, halloc, hrun⟩ := Comp.bind_ok hrun
  cases halloc
  obtain ⟨t, st1, ht, hrun⟩ := Comp.bind_ok hrun
  obtain ⟨nv, st2, hnv, ht⟩ := Comp.bind_ok ht
  obtain ⟨no, st3, hno, ht⟩ := Comp.bind_ok ht
  obtain ⟨ni, st4, hni, ht⟩ := Comp.bind_ok ht
  obtain ⟨hcur2, hcv, -⟩ := hv (s + 1) _ nv st2 (by show st.cur + 1 = _; rw [hcur]; rfl) (by omega) hnv
  rw [hv1] at hcur2
  obtain ⟨hcur3, hco, -⟩ := ho (s + 2) st2 no st3 hcur2 (by omega) hno
  rw [ho1] at hcur3
  obtain ⟨hcur4, hci, -⟩ := hi (s + 3) st3 ni st4 hcur3 (by omega) hni
  rw [hi1] at hcur4
  have hpop : st4.cur - 3 = (s + 1 : Nat) := by omega
  rw [hcur] at hrun
  rw [finishSetProperty] at ht
  obtain ⟨u, st5, hpop', ht⟩ := Comp.bind_ok ht
  cases hpop'
  obtain ⟨q, st6, hq, ht⟩ := Comp.bind_ok ht
  cases hq
  simp only [hpop] at ht
  have hret : (Exp.opAssign op (.setProperty noPop value obj index)).retValues =
      (Exp.setProperty noPop value obj index).retValues := by
    simp [Exp.retValues]
  rw [hret]
  cases noPop with
  | true =>
    rw [if_pos rfl] at ht
    obtain ⟨a, st7, halloc, ht⟩ := Comp.bind_ok ht
    cases halloc
    cases ht
    rcases moveType_cases (nv.elide (nv.movesOperand f) (s + 1 : Nat)).2 with htype | ⟨htype, -⟩
    · rw [htype] at hrun
      cases hrun
      exact ⟨rfl, compiled_opAssign_member hs rfl hcv hco hci hv1 ho1 hi1 (.inr rfl), fun h => by cases h⟩
    · rw [htype] at hrun
      cases hrun
  | false =>
    rw [if_neg (by simp)] at ht
    cases ht
    cases hrun
    exact ⟨rfl, compiled_opAssign_member hs rfl hcv hco hci hv1 ho1 hi1 (.inl rfl), fun h => by cases h⟩

/-! ## Calls -/

theorem finishCall_ok {kind : CallType} {ret s : Nat} {g n : Node} {list : List Node} {k : Nat} {st st' : Stack}
    (hcur : st.cur = (s + k : Nat)) (h : finishCall kind ret s g list st = .ok (n, st')) :
    n = ⟨.call kind, s, k, ret, [g, ⟨.params, 0, 0, 0, list⟩]⟩ ∧ st'.cur = (s + ret : Nat) := by
  cases h
  rw [hcur]
  refine ⟨?_, rfl⟩
  congr 1
  omega

theorem correct_call {kind : CallType} {e : Exp} {ps : List Exp} {ret : Nat} (he : Correct f M e)
    (hps : ∀ p ∈ ps, Correct f M p) : Correct f M (.call kind e ps ret) := by
  intro s st n st' hcur hs hrun
  rw [postCompileNewVM] at hrun
  obtain ⟨p, st1, hp, hrun⟩ := Comp.bind_ok hrun
  cases hp
  obtain ⟨m, st2, hm, hrun⟩ := Comp.bind_ok hrun
  obtain ⟨ns, st3, hns, hrun⟩ := Comp.bind_ok hrun
  obtain ⟨hcur2, hc, -⟩ := he s st m st2 hcur hs hm
  obtain ⟨hcur3, hcs, -⟩ := correctAll hps hcur2 (by omega) hns
  rw [hcur] at hrun
  obtain ⟨rfl, hcur4⟩ := finishCall_ok (by rw [hcur3, Nat.add_assoc]) hrun
  have hretv : (Exp.call kind e ps ret).retValues = ret := by simp [Exp.retValues]
  rw [hretv]
  exact ⟨hcur4, compiled_call hs hc hcs, fun h => by cases h⟩

theorem concatCode_of_two {name : Nat} {l r : Exp} {s : Nat} (hs : f.numLocals ≤ s) {nl nr : Node} (hl : Compiled f M l (s + 2) nl)
    (hr : Compiled f M r (s + 3) nr) (hl1 : l.retValues = 1) (hr1 : r.retValues = 1) (hconcat : l.isConcat = false) :
    ConcatCode f M (.concat name l r) s ⟨.call .callMethod, s, (4 : Nat), 1, [⟨moveType f.globalsSlot, s, f.globalsSlot, 0, []⟩,
      ⟨.params, 0, 0, 0, [⟨moveType (f.constSlot (.string name)), (s + 1 : Nat), f.constSlot (.string name), 0, []⟩, nl, nr]⟩]⟩ := by
  refine ⟨_, _, 4, rfl, ?_⟩
  have hname : (Exp.concat name l r).concatName = name := by simp [Exp.concatName, hconcat]
  rw [hname]
  refine globalArgs_realises hs name (k := 2) ?_
  rw [execList_cons, execList_cons, execList_nil, Run.seq_done, evalParts, hconcat]
  refine hl.finish.bind fun vs => ?_
  refine ((hr.now hr1).after (s := s + 2) (K := fun T => vs.length = l.retValues ∧ Temps (s + 2) vs T) (Nat.le_succ _)
    fun T T' hT h => ⟨h.1, h.2.congr fun i hi => hT i (by omega)⟩).map _ fun y σ hσ => ?_
  obtain ⟨hy, hlen, htemps⟩ := hσ
  refine ⟨by rw [List.length_append, hlen, hl1]; rfl, Temps.append.2 ⟨htemps, Temps.singleton.2 ?_⟩⟩
  rwa [hlen, hl1]

theorem correct_concat {name : Nat} {l r : Exp} (hl : Correct f M l) (hr : Correct f M r) (hl1 : l.retValues = 1)
    (hr1 : r.retValues = 1) : Correct f M (.concat name l r) := by
  intro s st n st' hcur hs hrun
  rw [postCompileNewVM] at hrun
  obtain ⟨p, st1, hp, hrun⟩ := Comp.bind_ok hrun
  cases hp
  have hretv : (Exp.concat name l r).retValues = 1 := by simp [Exp.retValues]
  suffices h : st'.cur = (s + 1 : Nat) ∧ ConcatCode f M (.concat name l r) s n by
    exact ⟨by rw [hretv]; exact h.1, h.2.compiled hs, fun _ => h.2⟩
  cases hconcat : l.isConcat with
  | true =>
    rw [hconcat, if_pos rfl] at hrun
    obtain ⟨nl, st2, hnl, hrun⟩ := Comp.bind_ok hrun
    obtain ⟨-, -, hcode⟩ := hl s st nl st2 hcur hs hnl
    obtain ⟨u, st3, hset, hrun⟩ := Comp.bind_ok hrun
    obtain ⟨nr, st4, hnr, hrun⟩ := Comp.bind_ok hrun
    have hcode' := hcode hconcat
    obtain ⟨g, list, k, hnode, -⟩ := hcode'
    have hp : nl.a + nl.b = (s + k : Nat) := by
      rw [hnode]
      rfl
    have hcur3 : st3.cur = (s + k : Nat) := by
      cases hset
      exact hp
    obtain ⟨-, hcr, -⟩ := hr (s + k) st3 nr st4 hcur3 (by omega) hnr
    obtain ⟨u', st5, hset', hrun⟩ := Comp.bind_ok hrun
    cases hrun
    cases hset'
    refine ⟨?_, (hcode hconcat).addOperand hconcat hp hcr hr1⟩
    show st.cur + 1 = _
    rw [hcur]
    rfl
  | false =>
    rw [hconcat, if_neg (by simp)] at hrun
    obtain ⟨g, st2, hg, hrun⟩ := Comp.bind_ok hrun
    obtain ⟨m, st3, hm, hrun⟩ := Comp.bind_ok hrun
    obtain ⟨nl, st4, hnl, hrun⟩ := Comp.bind_ok hrun
    obtain ⟨nr, st5, hnr, hrun⟩ := Comp.bind_ok hrun
    obtain ⟨rfl, hcur2⟩ := newMove_ok hg
    obtain ⟨rfl, hcur3⟩ := newMove_ok hm
    rw [hcur] at hcur2 hrun
    rw [hcur2] at hcur3 hrun
    obtain ⟨hcur4, hcl, -⟩ := hl (s + 2) st3 nl st4 (by rw [hcur3]; omega) (by omega) hnl
    obtain ⟨hcur5, hcr, -⟩ := hr (s + 3) st4 nr st5 (by rw [hcur4, hl1]) (by omega) hnr
    obtain ⟨rfl, hcur6⟩ := finishCall_ok (k := 4) (by rw [hcur5, hr1]) hrun
    exact ⟨hcur6, concatCode_of_two hs hcl hcr hl1 hr1 hconcat⟩

theorem correct_methodOp {name : Nat} {l r : Exp} {ret : Nat} (hl : Correct f M l) (hr : Correct f M r)
    (hl1 : l.retValues = 1) (hr1 : r.retValues = 1) : Correct f M (.methodOp name l r ret) := by
  intro s st n st' hcur hs hrun
  rw [postCompileNewVM] at hrun
  obtain ⟨p, st1, hp, hrun⟩ := Comp.bind_ok hrun
  cases hp
  obtain ⟨g, st2, hg, hrun⟩ := Comp.bind_ok hrun
  obtain ⟨m, st3, hm, hrun⟩ := Comp.bind_ok hrun
  obtain ⟨nl, st4, hnl, hrun⟩ := Comp.bind_ok hrun
  obtain ⟨nr, st5, hnr, hrun⟩ := Comp.bind_ok hrun
  obtain ⟨rfl, hcur2⟩ := newMove_ok hg
  obtain ⟨rfl, hcur3⟩ := newMove_ok hm
  rw [hcur] at hcur2 hrun
  rw [hcur2] at hcur3 hrun
  obtain ⟨hcur4, hcl, -⟩ := hl (s + 2) st3 nl st4 (by rw [hcur3]; omega) (by omega) hnl
  obtain ⟨hcur5, hcr, -⟩ := hr (s + 3) st4 nr st5 (by rw [hcur4, hl1]) (by omega) hnr
  obtain ⟨rfl, hcur6⟩ := finishCall_ok (k := 4) (by rw [hcur5, hr1]) hrun
  have hretv : (Exp.methodOp name l r ret).retValues = ret := by simp [Exp.retValues]
  refine ⟨by rw [hretv]; exact hcur6, compiled_callGlobal hs hretv (by rw [eval]) ?_, fun h => by cases h⟩
  refine globalArgs_realises hs name (k := 2) ?_
  rw [execList_cons, execList_cons, execList_nil, Run.seq_done]
  refine (hcl.now hl1).bind fun x => ?_
  refine ((hcr.now hr1).after (s := s + 2) (K := fun T => T (s + 2) = x) (Nat.le_succ _)
    fun T T' hT h => (hT _ (Nat.lt_succ_self _)).trans h).map _ fun y σ hσ => ⟨rfl, ?_⟩
  exact Temps.append (l := [x]).2 ⟨Temps.singleton.2 hσ.2, Temps.singleton.2 hσ.1⟩

theorem correct_length {name : Nat} {e : Exp} (he : Correct f M e) (he1 : e.retValues = 1) : Correct f M (.length name e) := by
  intro s st n st' hcur hs hrun
  rw [postCompileNewVM] at hrun
  obtain ⟨p, st1, hp, hrun⟩ := Comp.bind_ok hrun
  cases hp
  obtain ⟨g, st2, hg, hrun⟩ := Comp.bind_ok hrun
  obtain ⟨m, st3, hm, hrun⟩ := Comp.bind_ok hrun
  obtain ⟨ne, st4, hne, hrun⟩ := Comp.bind_ok hrun
  obtain ⟨rfl, hcur2⟩ := newMove_ok hg
  obtain ⟨rfl, hcur3⟩ := newMove_ok hm
  rw [hcur] at hcur2 hrun
  rw [hcur2] at hcur3 hrun
  obtain ⟨hcur4, hc, -⟩ := he (s + 2) st3 ne st4 (by rw [hcur3]; omega) (by omega) hne
  obtain ⟨rfl, hcur5⟩ := finishCall_ok (k := 3) (by rw [hcur4, he1]) hrun
  have hretv : (Exp.length name e).retValues = 1 := by simp [Exp.retValues]
  refine ⟨by rw [hretv]; exact hcur5, compiled_callGlobal hs hretv (by rw [eval]) ?_, fun h => by cases h⟩
  refine globalArgs_realises hs name (k := 1) ?_
  rw [execList_cons, execList_nil, Run.seq_done]
  exact (hc.now he1).map _ fun x σ hσ => ⟨rfl, Temps.singleton.2 hσ⟩

theorem correct_params {es : List Exp} (hes : ∀ e ∈ es, Correct f M e) : Correct f M (.params es) := by
  intro s st n st' hcur hs hrun
  rw [postCompileNewVM] at hrun
  obtain ⟨ns, st1, hns, hrun⟩ := Comp.bind_ok hrun
  obtain ⟨hcur1, hcs, -⟩ := correctAll hes hcur hs hns
  cases hrun
  refine ⟨?_, compiled_params hcs, fun h => by cases h⟩
  rw [Exp.retValues]
  exact hcur1

theorem correct_codeList {es : List Exp} (hes : ∀ e ∈ es, Correct f M e) (hempty : ∀ e ∈ es.dropLast, e.retValues = 0) :
    Correct f M (.codeList es) := by
  intro s st n st' hcur hs hrun
  rw [postCompileNewVM] at hrun
  obtain ⟨ns, st1, hns, hrun⟩ := Comp.bind_ok hrun
  obtain ⟨hcur1, hcs, -⟩ := correctAll hes hcur hs hns
  cases hrun
  refine ⟨?_, compiled_codeList hcs hempty _, fun h => by cases h⟩
  rw [Exp.retValues, retLast_eq_retSum hempty]
  exact hcur1

theorem correct_popValue {e : Exp} (he : Correct f M e) (hret : 1 ≤ e.retValues) : Correct f M (.popValue e) := by
  intro s st n st' hcur hs hrun
  rw [postCompileNewVM] at hrun
  obtain ⟨m, st1, hm, hrun⟩ := Comp.bind_ok hrun
  obtain ⟨hcur1, hc, -⟩ := he s st m st1 hcur hs hm
  cases hrun
  refine ⟨?_, compiled_popValue hc, fun h => by cases h⟩
  show st1.cur - 1 = _
  rw [hcur1, Exp.retValues]
  omega

/-! ## The pass -/

theorem WellFormed.correct {e : Exp} (h : WellFormed f e) : Correct f M e := by
  induction h with
  | const c => exact correct_const c
  | getThis => exact correct_getThis
  | getLocalVar hv => exact correct_getLocalVar hv
  | setLocalVar hv _ hret hone he => exact correct_setLocalVar hv he hret hone
  | getEnvVar name => exact correct_getEnvVar name
  | setEnvVar _ hret hone he => exact correct_setEnvVar he hret hone
  | getProperty _ _ ho1 hi1 ho hi =>
    exact correct_of_two ho hi ho1 hi1 (by rw [postCompileNewVM]) (fun _ _ _ hs ho hi => compiled_getProperty hs ho hi ho1 hi1)
      rfl rfl
  | setProperty _ _ _ hret hone ho1 hi1 hv ho hi => exact correct_setProperty hv ho hi hret hone ho1 hi1
  | unary _ he1 he =>
    exact correct_of_one he he1 (by rw [postCompileNewVM]) (fun _ _ hs h => compiled_unary hs h he1) rfl rfl
  | logicNot _ he1 he =>
    exact correct_of_one he he1 (by rw [postCompileNewVM]) (fun _ _ hs h => compiled_logicNot hs h he1) rfl rfl
  | logicBool _ he1 he =>
    exact correct_of_one he he1 (by rw [postCompileNewVM]) (fun _ _ hs h => compiled_logicBool hs h he1) rfl rfl
  | binary _ _ hl1 hr1 hkept hl hr =>
    exact correct_of_two hl hr hl1 hr1 (by rw [postCompileNewVM])
      (fun _ _ _ hs hl hr => compiled_binary hs hl hr hl1 hr1 hkept) rfl rfl
  | logic _ _ hl1 hr1 hl hr =>
    exact correct_of_two hl hr hl1 hr1 (by rw [postCompileNewVM]) (fun _ _ _ hs hl hr => compiled_logic hs hl hr hl1 hr1) rfl rfl
  | logicAnd _ _ hl1 hr1 hl hr =>
    exact correct_of_either hl hr hl1 (by rw [postCompileNewVM]) (fun _ _ _ hs hl hr => compiled_logicAnd hs hl hr hl1 hr1)
      rfl rfl
  | logicOr _ _ hl1 hr1 hl hr =>
    exact correct_of_either hl hr hl1 (by rw [postCompileNewVM]) (fun _ _ _ hs hl hr => compiled_logicOr hs hl hr hl1 hr1)
      rfl rfl
  | question _ _ _ hc1 hl1 hr1 ht hc hl hr => exact correct_question hc hl hr hc1 hl1 hr1 ht
  | incDecLocal hv => exact correct_incDecLocal hv
  | incDecEnv => exact correct_incDecEnv
  | incDecMember _ _ ho1 hi1 ho hi => exact correct_incDecMember ho hi ho1 hi1
  | opAssignLocal hv _ he1 he => exact correct_opAssignLocal hv he he1
  | opAssignEnv _ he1 he => exact correct_opAssignEnv he he1
  | opAssignMember _ _ _ hv1 ho1 hi1 hv ho hi => exact correct_opAssignMember hv ho hi hv1 ho1 hi1
  | call _ _ he hps => exact correct_call he hps
  | concat _ _ hl1 hr1 hl hr => exact correct_concat hl hr hl1 hr1
  | methodOp _ _ hl1 hr1 hl hr => exact correct_methodOp hl hr hl1 hr1
  | length _ he1 he => exact correct_length he he1
  | params _ hes => exact correct_params hes
  | codeList _ hempty hes => exact correct_codeList hes hempty
  | popValue _ hret he => exact correct_popValue he hret

def integers : Machine Int Unit Unit where
  constant i := i
  toBool v := v ≠ 0
  ofBool b := if b then 1 else 0
  toBool_ofBool b := by cases b <;> rfl
  unary _ v := return -v
  binary _ l r := return l + r
  compare _ l r := return some (l = r)
  getUpvalue _ _ _ := 0
  setUpvalue _ _ _ fr := fr
  getProperty obj _ := return obj
  setProperty _ _ _ := return ()
  call _ _ ret := return (List.replicate ret 0, fun _ => 0)
  call_length := by
    intro kind vs ret fr r g h
    cases h
    exact List.length_replicate
  callStackFuncs _ := 0
  stoppedFuncs _ := 0
  reads _ _ := true

def twoVariables : Function where
  numLocals := 6
  numParams := 2
  numNumbers := 1
  this_lt := by decide
  globals_lt := by decide

/-- What the code of `l op (v = e)` does: the assignment is not part of it. -/
def withoutAssignment (f : Function) (M : Machine V W τ) (op : BinaryType) (l e : Exp) : Comp (Frame V W) τ (List (Operand V)) := do
  let a ← single f M (eval f M l)
  let y ← now f M (eval f M e)
  let x ← a.get
  let z ← M.binary op x y
  return [.value z]

/-- What is left is the operator on `l` and `e`. -/
theorem withoutAssignment_eval (f : Function) (M : Machine V W τ) (op : BinaryType) (l e : Exp) :
    withoutAssignment f M op l e = eval f M (.binary op l e) := by
  rw [withoutAssignment, eval]
  simp only [now, bind_assoc]
  rfl

theorem finishBinary_assignment {op : BinaryType} {s : Nat} {v : LocalVar} (hup : v.upCount = 0) {nl m : Node}
    (ha : (f.numLocals : Int) ≤ nl.a) : finishBinary f op s nl (assignNode v (s + 1 : Nat) m) =
      ⟨.binary op, s, (nl.elide (nl.movesOperand f) s).2, (s + 1 : Nat),
        [(nl.elide (nl.movesOperand f) s).1, ⟨.nop, v.index, (s + 1 : Nat), 0, [m]⟩]⟩ := by
  rw [assignNode, if_neg (not_not.2 hup)]
  simp [finishBinary, Node.elide, Node.setType, ha]

theorem realises_withoutAssignment {op : BinaryType} {s : Nat} (hs : f.numLocals ≤ s) {v : LocalVar} (hup : v.upCount = 0)
    {l e : Exp} {nl m : Node} (hl : Compiled f M l s nl) (he : Compiled f M e (s + 1) m) (hl1 : l.retValues = 1)
    (he1 : e.retValues = 1) (ha : (f.numLocals : Int) ≤ nl.a) :
    Realises s (fun _ => True) (withoutAssignment f M op l e) (exec f M (finishBinary f op s nl (assignNode v (s + 1 : Nat) m)))
      fun os σ => Temps s (os.map (Operand.read σ.frame)) σ.temps := by
  rw [finishBinary_assignment hup ha, exec_of_type (by simp) (by simp) (by simp), withoutAssignment, execList_cons, execList_cons,
    execList_nil, Run.seq_done, Run.seq_assoc]
  refine (hl.operand hl1 hs (fun h => h) fun h _ => h).bind fun a => ?_
  have hnop : exec f M ⟨.nop, v.index, (s + 1 : Nat), 0, [m]⟩ = exec f M m := by
    rw [exec_list rfl, execList_cons, execList_nil, Run.seq_done]
  rw [hnop]
  refine ((he.now he1).after (K := Located f M s (nl.elide (nl.movesOperand f) s).2 a) (Nat.le_succ s)
    fun T T' hT h => h.congr (hT s (Nat.lt_succ_self s))).bind fun y => ?_
  have hvalue : Realises s (fun σ => σ.temps (s + 1) = y ∧ Located f M s (nl.elide (nl.movesOperand f) s).2 a σ.temps)
      (a.get >>= fun x => M.binary op x y >>= fun z => Pure.pure [.value z])
      (act f M (.binary op) s (nl.elide (nl.movesOperand f) s).2 (s + 1 : Nat)) (Left f M (.binary op l e) s
        ⟨.binary op, s, (nl.elide (nl.movesOperand f) s).2, (s + 1 : Nat), []⟩) := by
    refine value_realises hs rfl rfl (X := fun σ => M.binary op (a.read σ.frame) y) (fun σ hσ => ?_) fun σ hσ => rfl
    rw [result, hσ.2.read, slotValue_temp (Nat.le_succ_of_le hs), hσ.1]
  exact hvalue.post fun os σ hσ => hσ.temps

/-- **An assignment to a local is lost as the second operand of an operator.**  Whether the move of the second operand may be
left out is asked of the register of the first one: where that is a temporary, the assignment is taken for such a move, and
the code of `l op (v = e)` is the code of `l op e`. -/
theorem postCompileNewVM_loses_assignment {op : BinaryType} {l e : Exp} {v : LocalVar} (hl : WellFormed f l) (he : WellFormed f e)
    (hl1 : l.retValues = 1) (he1 : e.retValues = 1) (hup : v.upCount = 0) {s : Nat} (hs : f.numLocals ≤ s) {st st1 st' : Stack}
    {nl n : Node} (hcur : st.cur = s) (hleft : postCompileNewVM f l st = .ok (nl, st1)) (ha : (f.numLocals : Int) ≤ nl.a)
    (hrun : postCompileNewVM f (.binary op l (.setLocalVar true v e)) st = .ok (n, st')) (σ : State (Frame V W) V) :
    (∀ t, withoutAssignment f M op l e σ.frame = .error t → exec f M n σ = .error t) ∧
    ∀ os fr, withoutAssignment f M op l e σ.frame = .ok (os, fr) → ∃ T, exec f M n σ = .ok ⟨fr, T⟩ ∧
      (∀ i < s, T i = σ.temps i) ∧ Temps s (os.map (Operand.read fr)) T := by
  obtain ⟨hcur1, hcl, -⟩ := hl.correct (M := M) s st nl st1 hcur hs hleft
  rw [hl1] at hcur1
  rw [postCompileNewVM] at hrun
  obtain ⟨p, st2, hp, hrun⟩ := Comp.bind_ok hrun
  cases hp
  obtain ⟨nl', st3, hnl, hrun⟩ := Comp.bind_ok hrun
  cases hleft.symm.trans hnl
  obtain ⟨nr, st4, hnr, hrun⟩ := Comp.bind_ok hrun
  rw [postCompileNewVM] at hnr
  obtain ⟨m, st5, hm, hnr⟩ := Comp.bind_ok hnr
  obtain ⟨hcur5, hce, -⟩ := he.correct (M := M) (s + 1) st1 m st5 hcur1 (by omega) hm
  rw [he1] at hcur5
  have hn : nr = assignNode v (s + 1 : Nat) m := by
    rcases (finishSetLocalVar_ok hcur5 hnr).2 with hnr | ⟨hpop, -⟩
    · exact hnr
    · cases hpop
  obtain ⟨u, st6, hpop, hrun⟩ := Comp.bind_ok hrun
  cases hrun
  rw [hcur, hn]
  have hcode : Realises s _ (withoutAssignment f M op l e) _ _ := realises_withoutAssignment hs hup hcl hce hl1 he1 ha
  exact ⟨fun t ht => hcode.stops σ t trivial ht, fun os fr hos => hcode.gives σ os fr trivial hos⟩

/-- `a + (b = null)` with the locals `a` and `b` at 4 and 5. -/
theorem postCompileNewVM_loses_assignment_sum : ∃ n st', postCompileNewVM twoVariables
      (.binary .add (.getLocalVar ⟨4, 0⟩) (.setLocalVar true ⟨5, 0⟩ (.const .null))) ⟨6, 6⟩ = .ok (n, st') ∧
    ∃ T, exec twoVariables integers n ⟨⟨fun i => i, ()⟩, fun _ => 0⟩ = .ok ⟨⟨fun i => i, ()⟩, T⟩ ∧ T 6 = 4 := by
  have hv : LocalVar.Valid twoVariables ⟨4, 0⟩ := fun _ => by decide
  obtain ⟨n, st', hrun⟩ : ∃ n st', postCompileNewVM twoVariables
      (.binary .add (.getLocalVar ⟨4, 0⟩) (.setLocalVar true ⟨5, 0⟩ (.const .null))) ⟨6, 6⟩ = .ok (n, st') := ⟨_, _, rfl⟩
  obtain ⟨-, h⟩ := postCompileNewVM_loses_assignment (M := integers) (.getLocalVar hv) (.const .null) (by simp [Exp.retValues])
    (by simp [Exp.retValues]) rfl (s := 6) (by decide) rfl
    (show postCompileNewVM twoVariables (.getLocalVar ⟨4, 0⟩) ⟨6, 6⟩ = .ok (_, _) from rfl) (by decide) hrun
    ⟨⟨fun i => i, ()⟩, fun _ => 0⟩
  obtain ⟨T, hT, -, htemps⟩ := h [.value 4] ⟨fun i => i, ()⟩ rfl
  exact ⟨n, st', hrun, T, hT, Temps.singleton.1 htemps⟩

end NewVM
end Compiler
end ObjectScript
