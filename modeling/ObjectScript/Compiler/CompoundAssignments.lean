import ObjectScript.Compiler.Assignments
/-!
# Increments and compound assignments

`++` reads its target into the register where the expression begins, adds to it and writes the sum back.  What the write
still reads (the object, the index, the value that is left) stays in registers the steps between leave alone.

`compiled_place` is one lemma for every place that is read and written, a local, an upvalue, a property or an element,
from what reads it and what writes it; the two kinds of increment and the compound assignments are cases of it.
-/
namespace ObjectScript
namespace Compiler
namespace NewVM

open Registers

variable {V W τ : Type} {f : Function} {M : Machine V W τ}

/-- What a place has, and what puts a value there. -/
abbrev Place (V W τ : Type) := V × (V → Comp (Frame V W) τ Unit)

def addOne (M : Machine V W τ) (op : BinaryType) (one : V) (r : Place V W τ) : Comp (Frame V W) τ (V × V) := do
  let x ← Pure.pure one
  let y ← M.binary op r.1 x
  r.2 y
  return (r.1, y)

/-- The code around an operator on a place: it is read to the register `s` and written back from the register `a`.  `K` is
what the write needs, and the registers from `h` to `top` are free. -/
structure PlaceCode (f : Function) (M : Machine V W τ) (G : Comp (Frame V W) τ (Place V W τ)) (s h top a : Nat)
    (target back : Node) (K : Place V W τ → (Nat → V) → Prop) : Prop where
  reads : Realises s (fun _ => True) G (exec f M target) fun r σ => σ.temps s = r.1 ∧ K r σ.temps
  keeps : ∀ r T j v, K r T → j = s ∨ h ≤ j ∧ j < top → K r (update T j v)
  writes : ∀ r σ, K r σ.temps → exec f M back σ = Run.keep (r.2 (σ.temps a)) (fun _ T => T) σ

/-- A variable is read by the code of its expression and written by one instruction. -/
theorem PlaceCode.variable {e : Exp} {s : Nat} {n back : Node} {h top a : Nat} (he : Compiled f M e s n) (he1 : e.retValues = 1)
    {get : Comp (Frame V W) τ V} (hget : now f M (eval f M e) = get) {set : V → Comp (Frame V W) τ Unit}
    (hset : ∀ σ, exec f M back σ = Run.keep (set (σ.temps a)) (fun _ T => T) σ) :
    PlaceCode f M (get >>= fun z => Pure.pure (z, set)) s h top a n back fun r _ => r.2 = set where
  reads := (hget ▸ he.now he1).map (fun z => (z, set)) fun z σ hσ => ⟨hσ, rfl⟩
  keeps r T j v hr _ := hr
  writes r σ hr := by rw [hr, hset]

theorem now_getLocalVar (v : LocalVar) : now f M (eval f M (.getLocalVar v)) = getLocal M v := by
  rw [eval, now, single]
  by_cases hup : v.upCount = 0
  · rw [if_neg (not_not.2 hup), getLocal, if_neg (not_not.2 hup)]
    rfl
  · rw [if_pos hup, getLocal, if_pos hup]
    rfl

theorem now_getEnvVar (name : Nat) : now f M (eval f M (.getEnvVar name)) = getEnv f M name := by
  rw [eval, now, single]
  simp only [bind_assoc, pure_bind, List.getLastD_cons]
  exact bind_pure _

theorem Located.of_ne {s p : Nat} {b : Int} {o : Operand V} {T T' : Nat → V} (h : Located f M s b o T)
    (hb : b ≠ s) : Located f M p b o T' := by
  rcases h with h | h | ⟨h, -, -⟩
  · exact .inl h
  · exact .inr (.inl h)
  · exact absurd h hb

/-- An operand that is not in the temporary `s` may be thought of as anywhere. -/
theorem Located.elsewhere (s h top : Nat) (c : Int) (hc : c = (s + 1 : Nat) → s + 1 < h) (hsh : s < h) (hht : h ≤ top) :
    ∃ p, (p ≠ s ∧ (p < h ∨ top ≤ p)) ∧ p ≠ top ∧ ∀ o T, Located f M (s + 1) c o T → Located f M p c o T := by
  by_cases heq : c = (s + 1 : Nat)
  · have := hc heq
    exact ⟨s + 1, by omega, by omega, fun o T h => h⟩
  · exact ⟨top + 1, by omega, by omega, fun o T h => h.of_ne heq⟩

theorem Located.at_temp {s : Nat} {o : Operand V} {T : Nat → V} (h : Located f M s s o T) (hs : f.numLocals ≤ s) :
    o = .value (T s) := by
  rcases h with ⟨h, -⟩ | ⟨i, hi, h, -⟩ | ⟨-, -, h⟩
  · omega
  · omega
  · exact h

theorem act_moveTemp {a b : Nat} (ha : f.numLocals ≤ a) (hb : f.numLocals ≤ b) (c : Int) (σ : State (Frame V W) V) :
    act f M .move a b c σ = Run.keep (Pure.pure () : Comp (Frame V W) τ Unit) (fun _ T => update T a (T b)) σ := by
  show Except.ok (setSlot f a (slotValue f M σ b) σ) = _
  rw [slotValue_temp hb, setSlot_temp ha]
  rfl

theorem writeBack_member {n target back : Node} (htype : n.type = .getProperty) {a : Int} {st st' : Stack}
    (h : writeBack f n a st = .ok ((target, back), st')) :
    (n.a = n.b ∧ target = { n with list := n.list ++ [⟨.move, st.cur, n.a, 0, []⟩] } ∧
      back = ⟨.setPropertyNoPop, st.cur, n.c, a, []⟩) ∨
    (n.a ≠ n.b ∧ target = n ∧ back = ⟨.setPropertyNoPop, n.b, n.c, a, []⟩) := by
  obtain ⟨type, na, nb, nc, list⟩ := n
  obtain rfl : type = .getProperty := htype
  rw [writeBack] at h
  by_cases heq : na = nb
  · subst heq
    simp only [if_true] at h
    obtain ⟨a', st1, halloc, h⟩ := Comp.bind_ok h
    cases halloc
    cases h
    exact .inl ⟨rfl, rfl, rfl⟩
  · simp only [heq, if_false] at h
    cases h
    exact .inr ⟨heq, rfl, rfl⟩

/-- What the write of a property still reads: the object, in a register of its own, and the index. -/
def MemberKept (f : Function) (M : Machine V W τ) (s h top : Nat) (b c : Int) (r : Place V W τ) (T : Nat → V) : Prop :=
  ∃ o i, r.2 = setMember M o i ∧ (∃ p, (p ≠ s ∧ (p < h ∨ top ≤ p)) ∧ Located f M p b o T) ∧
    ∃ p, (p ≠ s ∧ (p < h ∨ top ≤ p)) ∧ Located f M p c i T

section

variable {s : Nat} (hs : f.numLocals ≤ s)

include hs

/-- **An operator on a place.** -/
theorem addOne_realises {G : Comp (Frame V W) τ (Place V W τ)} {h top a : Nat} {target back : Node}
    {K : Place V W τ → (Nat → V) → Prop} (hcode : PlaceCode f M G s h top a target back K) (hsh : s < h) (one : Nat)
    {ones : List Node} {c : Int} (hones : ones = [] ∧ c = f.constSlot (.number one) ∨
      ∃ x : Nat, h ≤ x ∧ x < top ∧ x ≠ a ∧ ones = [⟨.getXConst, x, f.constSlot (.number one), 0, []⟩] ∧ c = x)
    (ha : a = s ∨ h ≤ a ∧ a < top) (op : BinaryType) :
    Realises s (fun _ => True) (G >>= addOne M op (M.constant (f.constIndex (.number one))))
      (execList f M ([target] ++ ones ++ [⟨.binary op, a, s, c, []⟩, back]))
      fun r σ => σ.temps a = r.2 ∧ (a ≠ s → σ.temps s = r.1) := by
  have hsa : s ≤ a := by omega
  rw [List.append_assoc, execList_append, execList_append, execList_cons, execList_nil, Run.seq_done]
  refine hcode.reads.bind fun r => ?_
  -- the number 1
  have hload : Realises s (fun σ => σ.temps s = r.1 ∧ K r σ.temps) (Pure.pure (M.constant (f.constIndex (.number one))))
      (execList f M ones) fun x σ => slotValue f M σ c = x ∧ σ.temps s = r.1 ∧ K r σ.temps := by
    rcases hones with ⟨rfl, rfl⟩ | ⟨x, hx, hxt, -, rfl, rfl⟩
    · rw [execList_nil]
      exact Realises.pure fun σ hσ => ⟨slotValue_const _ σ, hσ⟩
    · rw [execList_cons, execList_nil, Run.seq_done]
      refine load_realises hs (by omega) (.number one) fun σ hσ => ⟨?_, ?_, hcode.keeps r _ x _ hσ.2 (.inr ⟨hx, hxt⟩)⟩
      · exact (slotValue_temp (by omega) _).trans (update_same _ _ _)
      · exact (update_ne _ _ (by omega)).trans hσ.1
  refine hload.bind fun x => ?_
  have hop : Realises s (fun σ => slotValue f M σ c = x ∧ σ.temps s = r.1 ∧ K r σ.temps) (M.binary op r.1 x)
      (exec f M ⟨.binary op, a, s, c, []⟩) fun y σ => σ.temps a = y ∧ (a ≠ s → σ.temps s = r.1) ∧ K r σ.temps := by
    rw [exec_leaf rfl]
    refine store_realises hs hsa rfl (fun σ hσ => ?_) fun σ y fr hσ _ => ⟨update_same _ _ _, fun hne => ?_, ?_⟩
    · rw [result, slotValue_temp hs, hσ.1, hσ.2.1]
    · exact (update_ne _ _ (Ne.symm hne)).trans hσ.2.1
    · exact hcode.keeps r _ a _ hσ.2.2 ha
  rw [execList_cons, execList_cons, execList_nil, Run.seq_done]
  refine hop.bind fun y => ?_
  refine (Realises.keep (k := fun _ T => T) (Q := fun _ σ => σ.temps a = y ∧ (a ≠ s → σ.temps s = r.1)) (fun σ hσ => ?_)
    (fun _ _ _ _ => rfl) fun σ _ fr hσ _ => ⟨hσ.1, hσ.2.1⟩).map _ fun _ σ hσ => hσ
  rw [hcode.writes r σ hσ.2.2, hσ.1]

/-- The object and the index of an access to a property. -/
theorem objectOperands {obj index : Exp} {no ni : Node} (ho : Compiled f M obj s no) (hi : Compiled f M index (s + 1) ni)
    (ho1 : obj.retValues = 1) (hi1 : index.retValues = 1) :
    Realises s (fun _ => True)
      (do
        let o ← single f M (eval f M obj)
        let i ← single f M (eval f M index)
        return (o, i))
      ((exec f M (no.elide (no.movesOperand f && decide (0 ≤ no.b)) s).1).seq
        (exec f M (ni.elide (ni.movesOperand f) (s + 1)).1))
      fun r σ => Located f M s (no.elide (no.movesOperand f && decide (0 ≤ no.b)) s).2 r.1 σ.temps ∧
        Located f M (s + 1) (ni.elide (ni.movesOperand f) (s + 1)).2 r.2 σ.temps := by
  have hel : (no.movesOperand f && decide (0 ≤ no.b)) = true → no.movesOperand f = true := fun h => (Bool.and_eq_true_iff.1 h).1
  refine (ho.operand ho1 hs hel fun h hb => by simp [h, hb]).bind fun o => ?_
  have hindex := (hi.operand hi1 (by omega) (fun h => h) fun h _ => h).after (s := s)
    (K := Located f M s (no.elide (no.movesOperand f && decide (0 ≤ no.b)) s).2 o) (Nat.le_succ s)
    fun T T' hT h => h.congr (hT s (Nat.lt_succ_self s))
  exact hindex.map _ fun i σ hσ => ⟨hσ.2, hσ.1⟩

/-- A property is read and written with the same object and the same index. -/
theorem PlaceCode.member {obj index : Exp} {no ni : Node} (ho : Compiled f M obj s no) (hi : Compiled f M index (s + 1) ni)
    (ho1 : obj.retValues = 1) (hi1 : index.retValues = 1) {h top a : Nat} (hsh : s < h) (ha : f.numLocals ≤ a)
    (hc : (finishGetProperty f s no ni).c < h)
    {target back : Node} {st st' : Stack} (hst : st.cur = top) (hht : h ≤ top)
    (hback : writeBack f (finishGetProperty f s no ni) a st = .ok ((target, back), st')) :
    PlaceCode f M
      (do
        let o ← single f M (eval f M obj)
        let i ← single f M (eval f M index)
        let z ← getMember M o i
        return (z, setMember M o i)) s h top a target back (MemberKept f M s h top back.a back.b) := by
  have hops := objectOperands hs ho hi ho1 hi1
  -- the object's value comes through the register the sum goes to, or it stays where it is
  have hget : ∀ (o i : Operand V) (P : State (Frame V W) V → Prop) (K : Place V W τ → (Nat → V) → Prop) (b c : Int),
      (∀ σ, P σ → slotValue f M σ b = o.read σ.frame ∧ slotValue f M σ c = i.read σ.frame ∧
        ∀ v, K (v, setMember M o i) (update σ.temps s v)) →
      Realises s P (getMember M o i >>= fun z => Pure.pure (z, setMember M o i)) (act f M .getProperty s b c)
        fun r σ => σ.temps s = r.1 ∧ K r σ.temps := by
    intro o i P K b c hP
    refine (store_realises hs (Nat.le_refl s) rfl (X := getMember M o i)
      (Q := fun z σ => σ.temps s = z ∧ K (z, setMember M o i) σ.temps) (fun σ hσ => ?_) fun σ v fr hσ _ =>
        ⟨update_same _ _ _, (hP σ hσ).2.2 v⟩).map _ fun z σ hσ => hσ
    rw [result, (hP σ hσ).1, (hP σ hσ).2.1]
    rfl
  have hG : (do
      let o ← single f M (eval f M obj)
      let i ← single f M (eval f M index)
      let z ← getMember M o i
      return (z, setMember M o i) : Comp (Frame V W) τ (Place V W τ)) =
      (do
        let o ← single f M (eval f M obj)
        let i ← single f M (eval f M index)
        return (o, i)) >>= fun r => getMember M r.1 r.2 >>= fun z => Pure.pure (z, setMember M r.1 r.2) := by
    simp only [bind_assoc, pure_bind]
  refine ⟨?_, ?_, ?_⟩
  · rw [hG]
    obtain ⟨p, hp, hpt, hindex⟩ := Located.elsewhere (f := f) (M := M) s h top
      (finishGetProperty f s no ni).c (fun h => by omega) hsh hht
    replace hops := hops.post (S := fun (r : Operand V × Operand V) σ => Located f M s (finishGetProperty f s no ni).b r.1 σ.temps ∧
      Located f M p (finishGetProperty f s no ni).c r.2 σ.temps) fun r σ hσ => ⟨hσ.1, hindex r.2 σ.temps hσ.2⟩
    rcases writeBack_member rfl hback with ⟨heq, rfl, rfl⟩ | ⟨hne, rfl, rfl⟩
    · rw [exec_of_type (by simp [finishGetProperty]) (by simp [finishGetProperty]) (by simp [finishGetProperty])]
      simp only [finishGetProperty, execList_cons, execList_nil, Run.seq_done, List.cons_append, List.nil_append] at heq hops ⊢
      rw [← heq] at hops ⊢
      rw [hst, ← Run.seq_assoc, Run.seq_assoc, exec_leaf rfl]
      refine hops.bind fun r => ?_
      have hmove : Realises s (fun σ => Located f M s s r.1 σ.temps ∧
          Located f M p (ni.elide (ni.movesOperand f) (s + 1)).2 r.2 σ.temps) (Pure.pure ())
          (act f M .move top s 0 : Run (Frame V W) V τ)
          fun _ σ => (Located f M s s r.1 σ.temps ∧ Located f M top top r.1 σ.temps) ∧
            Located f M p (ni.elide (ni.movesOperand f) (s + 1)).2 r.2 σ.temps := by
        refine Realises.keep (k := fun _ T => update T top (T s)) (fun σ _ => act_moveTemp (by omega) hs 0 σ)
          (fun _ T i hi => update_ne T _ (by omega)) fun σ _ fr hσ _ => ?_
        refine ⟨⟨hσ.1.congr (update_ne _ _ (by omega)), .inr (.inr ⟨rfl, by omega, ?_⟩)⟩, hσ.2.congr (update_ne _ _ hpt)⟩
        exact (hσ.1.at_temp hs).trans (congrArg Operand.value (update_same _ top _).symm)
      refine (hmove.bind (y := fun _ => getMember M r.1 r.2 >>= fun z => Pure.pure (z, setMember M r.1 r.2)) fun _ =>
        hget r.1 r.2 _ (MemberKept f M s h top top (ni.elide (ni.movesOperand f) (s + 1)).2) _ _ ?_).congr (pure_bind _ _).symm
      intro σ hσ
      refine ⟨hσ.1.1.read, hσ.2.read, fun v => ⟨r.1, r.2, rfl, ⟨top, ⟨by omega, .inr (Nat.le_refl top)⟩, ?_⟩, p, hp, ?_⟩⟩
      · exact hσ.1.2.congr (update_ne _ _ (by omega))
      · exact hσ.2.congr (update_ne _ _ hp.1)
    · rw [exec_of_type (by simp [finishGetProperty]) (by simp [finishGetProperty]) (by simp [finishGetProperty])]
      simp only [finishGetProperty, execList_cons, execList_nil, Run.seq_done] at hops ⊢
      refine hops.bind fun r => hget r.1 r.2 _ _ _ _ ?_
      intro σ hσ
      refine ⟨hσ.1.read, hσ.2.read, fun v => ⟨r.1, r.2, rfl, ⟨top, ⟨by omega, .inr (Nat.le_refl top)⟩, ?_⟩, p, hp, ?_⟩⟩
      · exact hσ.1.of_ne (Ne.symm hne)
      · exact hσ.2.congr (update_ne _ _ hp.1)
  · rintro r T j v ⟨o, i, hr, ⟨p, hp, hloc⟩, q, hq, hindex⟩ hj
    exact ⟨o, i, hr, ⟨p, hp, hloc.congr (update_ne _ _ (by omega))⟩, q, hq, hindex.congr (update_ne _ _ (by omega))⟩
  · rintro r σ ⟨o, i, hr, ⟨p, -, hloc⟩, q, -, hindex⟩
    have hshape : back.type = .setPropertyNoPop ∧ back.c = a ∧ back.list = [] := by
      rcases writeBack_member rfl hback with ⟨-, -, rfl⟩ | ⟨-, -, rfl⟩ <;> exact ⟨rfl, rfl, rfl⟩
    obtain ⟨type, b1, b2, b3, list⟩ := back
    obtain ⟨rfl, rfl, rfl⟩ := hshape
    rw [exec_of_type (by simp) (by simp) (by simp), execList_nil, Run.done_seq, act_setProperty (.inr rfl), hloc.read,
      hindex.read, slotValue_temp ha, hr]
    rfl

end

/-! ## Increments -/

theorem protectTarget_ok {n : Node} {st st' : Stack} {u : Unit} (h : protectTarget n st = .ok (u, st')) :
    st.cur ≤ st'.cur ∧ (n.type = .getProperty → n.c < st'.cur) := by
  obtain ⟨type, a, b, c, list⟩ := n
  cases type with
  | getUpvalue =>
    cases h
    refine ⟨?_, fun hn => by cases hn⟩
    show st.cur ≤ max st.cur (a + 1)
    omega
  | getProperty =>
    cases h
    show st.cur ≤ max (max (max st.cur (a + 1)) (b + 1)) (c + 1) ∧ (_ → c < max _ (c + 1))
    omega
  | _ =>
    cases h
    exact ⟨Int.le_refl _, fun hn => by cases hn⟩

theorem loadOne_ok {one : Nat} {st st' : Stack} {r : List Node × Int} (h : loadOne f one st = .ok (r, st')) :
    (r = ([], f.constSlot (.number one)) ∧ st'.cur = st.cur) ∨
    (r = ([⟨.getXConst, st.cur, f.constSlot (.number one), 0, []⟩], st.cur) ∧ st'.cur = st.cur + 1) := by
  rw [loadOne] at h
  cases hx : isXConst (f.constSlot (.number one)) with
  | true =>
    rw [hx] at h
    cases h
    exact .inr ⟨rfl, rfl⟩
  | false =>
    rw [hx] at h
    cases h
    exact .inl ⟨rfl, rfl⟩

theorem sumSlot_ok {kind : IncDecType} {ret : Bool} {a a' : Int} {st st' : Stack} (h : sumSlot kind ret a st = .ok (a', st')) :
    ((kind.isPre || !ret) = true ∧ a' = a ∧ st'.cur = st.cur) ∨
    ((kind.isPre || !ret) = false ∧ a' = st.cur ∧ st'.cur = st.cur + 1) := by
  rw [sumSlot] at h
  cases hx : (kind.isPre || !ret) with
  | true =>
    rw [hx] at h
    cases h
    exact .inl ⟨rfl, rfl, rfl⟩
  | false =>
    rw [hx] at h
    cases h
    exact .inr ⟨rfl, rfl, rfl⟩

/-- What `finishIncDec` builds, and the registers it takes. -/
theorem finishIncDec_ok {kind : IncDecType} {one : Nat} {ret : Bool} {s : Nat} {n node : Node} {st st' : Stack}
    (hcur : st.cur = (s + 1 : Nat)) (ha : n.a = s) (h : finishIncDec f kind one ret s n st = .ok (node, st')) :
    ∃ (k top a : Nat) (ones : List Node) (c : Int) (target back : Node) (st1 st2 : Stack),
      s < k ∧ k ≤ top ∧ (n.type = .getProperty → n.c < k) ∧
      (ones = [] ∧ c = f.constSlot (.number one) ∨
        ∃ x : Nat, k ≤ x ∧ x < top ∧ x ≠ a ∧ ones = [⟨.getXConst, x, f.constSlot (.number one), 0, []⟩] ∧ c = x) ∧
      (a = s ∧ (kind.isPre || !ret) = true ∨ (k ≤ a ∧ a < top) ∧ (kind.isPre || !ret) = false) ∧
      st1.cur = top ∧ writeBack f n a st1 = .ok ((target, back), st2) ∧
      node = ⟨.codeList, s, 0, 0, [target] ++ ones ++ [⟨.binary kind.op, a, s, c, []⟩, back]⟩ ∧
      st'.cur = s + (if ret then 1 else 0 : Nat) := by
  rw [finishIncDec] at h
  obtain ⟨u, sta, hprotect, h⟩ := Comp.bind_ok h
  obtain ⟨hle, hprop⟩ := protectTarget_ok hprotect
  obtain ⟨r, stb, hload, h⟩ := Comp.bind_ok h
  obtain ⟨a, stc, halloc, h⟩ := Comp.bind_ok h
  obtain ⟨w, std, hback, h⟩ := Comp.bind_ok h
  obtain ⟨u', ste, hset, h⟩ := Comp.bind_ok h
  cases hset
  cases h
  obtain ⟨k, hk⟩ : ∃ k : Nat, sta.cur = k := ⟨sta.cur.toNat, by omega⟩
  have htop : ∃ top : Nat, stc.cur = top := by
    refine ⟨stc.cur.toNat, ?_⟩
    rcases loadOne_ok hload with ⟨-, hb⟩ | ⟨-, hb⟩ <;> rcases sumSlot_ok halloc with ⟨-, -, hc⟩ | ⟨-, -, hc⟩ <;> omega
  obtain ⟨top, htop⟩ := htop
  obtain ⟨a', rfl⟩ : ∃ a' : Nat, a = a' := by
    refine ⟨a.toNat, ?_⟩
    rcases loadOne_ok hload with ⟨-, hb⟩ | ⟨-, hb⟩ <;> rcases sumSlot_ok halloc with ⟨-, hc, -⟩ | ⟨-, hc, -⟩ <;> omega
  refine ⟨k, top, a', r.1, r.2, w.1, w.2, stc, std, by omega, ?_, fun hn => by have := hprop hn; omega, ?_, ?_, htop, hback,
    by rw [ha], by cases ret <;> rfl⟩
  · rcases loadOne_ok hload with ⟨-, hb⟩ | ⟨-, hb⟩ <;> rcases sumSlot_ok halloc with ⟨-, -, hc⟩ | ⟨-, -, hc⟩ <;> omega
  · rcases loadOne_ok hload with ⟨hr, hb⟩ | ⟨hr, hb⟩
    · rw [hr]
      exact .inl ⟨rfl, rfl⟩
    · rw [hr]
      refine .inr ⟨k, Nat.le_refl k, ?_, ?_, by rw [hk], hk⟩ <;>
        rcases sumSlot_ok halloc with ⟨-, ha', hc⟩ | ⟨-, ha', hc⟩ <;> omega
  · rcases loadOne_ok hload with ⟨-, hb⟩ | ⟨-, hb⟩ <;> rcases sumSlot_ok halloc with ⟨hx, ha', hc⟩ | ⟨hx, ha', hc⟩
    · exact .inl ⟨by omega, hx⟩
    · exact .inr ⟨by omega, hx⟩
    · exact .inl ⟨by omega, hx⟩
    · exact .inr ⟨by omega, hx⟩

section

variable {s : Nat} (hs : f.numLocals ≤ s)

include hs

/-- **The code of an increment**, from the code around its target. -/
theorem compiled_place {kind : IncDecType} {one : Nat} {ret : Bool} {e : Exp} {n node : Node} {st st' : Stack}
    (hcur : st.cur = (s + 1 : Nat)) (ha : n.a = s) (h : finishIncDec f kind one ret s n st = .ok (node, st'))
    {G : Comp (Frame V W) τ (Place V W τ)} (hG : eval f M (.incDec kind one ret e) =
      (G >>= addOne M kind.op (M.constant (f.constIndex (.number one)))) >>= fun r => Pure.pure (incDecValues kind ret r))
    (hcode : ∀ (k top a : Nat) target back, s < k → k ≤ top → (n.type = .getProperty → n.c < k) → s ≤ a →
      (∃ st1 st2 : Stack, st1.cur = (top : Int) ∧ writeBack f n a st1 = .ok ((target, back), st2)) →
      (∃ K, PlaceCode f M G s k top a target back K) ∧
        (back.allowOverrideOpcodeResult = true → (f.numLocals : Int) ≤ back.a → False)) :
    st'.cur = (s + (Exp.incDec kind one ret e).retValues : Nat) ∧ Compiled f M (.incDec kind one ret e) s node := by
  obtain ⟨k, top, a, ones, c, target, back, st1, st2, hsk, hkt, hc, hones, haa, htop, hback, rfl, hcur'⟩ :=
    finishIncDec_ok hcur ha h
  obtain ⟨⟨K, hplace⟩, hover⟩ := hcode k top a target back hsk hkt hc (by omega) ⟨st1, st2, htop, hback⟩
  refine ⟨?_, .of_list (.inr rfl) ?_ fun m hm hallow hm' => ?_⟩
  · rw [hcur']
    cases ret <;> rfl
  · rw [exec_list rfl, hG]
    refine (addOne_realises hs hplace hsk one hones (haa.imp And.left And.left) kind.op).map _ fun r σ hσ => ?_
    cases ret with
    | false => exact Left.values (l := []) rfl (Temps.nil s _) fun _ v hv => by cases hv
    | true =>
      have htemp : σ.temps s = bif kind.isPre then r.2 else r.1 := by
        cases hpre : kind.isPre with
        | true =>
          rcases haa with ⟨rfl, -⟩ | ⟨-, hx⟩
          · exact hσ.1
          · rw [hpre] at hx
            cases hx
        | false =>
          rcases haa with ⟨-, hx⟩ | ⟨hx, -⟩
          · rw [hpre] at hx
            cases hx
          · exact hσ.2 (by omega)
      exact Left.single rfl htemp fun _ => (slotValue_temp hs _).trans htemp
  · have hlist : ∀ (ns : List Node) (x : Node), (ns ++ [x, back]).getLast? = some back := by simp
    obtain rfl : back = m := Option.some.inj ((hlist _ _).symm.trans hm)
    exact (hover hallow hm').elim

theorem compiled_incDec_local {kind : IncDecType} {one : Nat} {ret : Bool} {v : LocalVar} (hv : v.Valid f) {n node : Node}
    {st st' : Stack} (he : Compiled f M (.getLocalVar v) s n) (hcur : st.cur = (s + 1 : Nat))
    (hn : n = if v.upCount ≠ 0 then ⟨.getUpvalue, s, v.index, v.upCount, []⟩ else ⟨.move, s, v.index, 0, []⟩)
    (h : finishIncDec f kind one ret s n st = .ok (node, st')) :
    st'.cur = (s + (Exp.incDec kind one ret (.getLocalVar v)).retValues : Nat) ∧
      Compiled f M (.incDec kind one ret (.getLocalVar v)) s node := by
  refine compiled_place hs hcur (by rw [hn]; split <;> rfl) h
    (G := getLocal M v >>= fun z => Pure.pure (z, setLocal M v)) ?_ ?_
  · simp only [eval, compound, addOne, bind_assoc, pure_bind]
  · rintro k top a target back hsk hkt - hsa ⟨st1, st2, -, hback⟩
    by_cases hup : v.upCount = 0
    · rw [hn, if_neg (not_not.2 hup), writeBack] at hback
      have := hv hup
      rw [if_neg (by show ¬ (f.numLocals : Int) ≤ v.index; omega)] at hback
      cases hback
      refine ⟨⟨_, .variable (by rwa [hn, if_neg (not_not.2 hup)] at he) rfl (now_getLocalVar v) fun σ => ?_⟩, fun _ hle => ?_⟩
      · rw [exec_leaf rfl]
        exact act_moveLocal hv hup (by omega) 0 σ
      · have : (f.numLocals : Int) ≤ v.index := hle
        omega
    · rw [hn, if_pos hup, writeBack] at hback
      cases hback
      refine ⟨⟨_, .variable (by rwa [hn, if_pos hup] at he) rfl (now_getLocalVar v) fun σ => ?_⟩, fun hallow => by cases hallow⟩
      rw [exec_of_type (by simp) (by simp) (by simp), execList_nil, Run.done_seq]
      exact act_setUpvalue (.inr rfl) hup (by omega) σ

theorem compiled_incDec_env {kind : IncDecType} {one name : Nat} {ret : Bool} {n node : Node}
    {st st' : Stack} (he : Compiled f M (.getEnvVar name) s n) (hcur : st.cur = (s + 1 : Nat))
    (hn : n = if isXConst (f.constSlot (.string name)) then
      addXconst ⟨.getProperty, s, f.envSlot, s, []⟩ (some ⟨.getXConst, s, f.constSlot (.string name), 0, []⟩)
      else ⟨.getProperty, s, f.envSlot, f.constSlot (.string name), []⟩)
    (h : finishIncDec f kind one ret s n st = .ok (node, st')) :
    st'.cur = (s + (Exp.incDec kind one ret (.getEnvVar name)).retValues : Nat) ∧
      Compiled f M (.incDec kind one ret (.getEnvVar name)) s node := by
  refine compiled_place hs hcur (by rw [hn]; split <;> rfl) h
    (G := getEnv f M name >>= fun z => Pure.pure (z, setEnv f M name)) ?_ ?_
  · simp only [eval, compound, addOne, bind_assoc, pure_bind]
  · rintro k top a target back hsk hkt - hsa ⟨st1, st2, -, hback⟩
    cases hx : isXConst (f.constSlot (.string name)) with
    | true =>
      rw [hn, hx] at hback
      cases hback
    | false =>
      rw [hn, hx] at hback
      rcases writeBack_member rfl hback with ⟨heq, -, -⟩ | ⟨-, rfl, rfl⟩
      · have henv : (s : Int) = f.envSlot := heq
        have := f.globals_lt
        unfold Function.envSlot postVarEnv at henv
        unfold postVarGlobals at this
        omega
      · refine ⟨⟨_, .variable (by rwa [hn, hx] at he) rfl (now_getEnvVar name) fun σ => ?_⟩, fun hallow => by cases hallow⟩
        rw [exec_of_type (by simp) (by simp) (by simp), execList_nil, Run.done_seq, act_setProperty (.inr rfl)]
        show Run.keep (M.setProperty (slotValue f M σ f.envSlot) (slotValue f M σ (f.constSlot (.string name)))
          (slotValue f M σ a)) _ σ = _
        rw [slotValue_env, slotValue_const, slotValue_temp (by omega)]
        rfl

theorem compiled_incDec_member {kind : IncDecType} {one : Nat} {ret : Bool} {obj index : Exp} {no ni node : Node}
    {st st' : Stack} (ho : Compiled f M obj s no) (hi : Compiled f M index (s + 1) ni) (ho1 : obj.retValues = 1)
    (hi1 : index.retValues = 1) (hcur : st.cur = (s + 1 : Nat))
    (h : finishIncDec f kind one ret s (finishGetProperty f s no ni) st = .ok (node, st')) :
    st'.cur = (s + (Exp.incDec kind one ret (.getProperty obj index)).retValues : Nat) ∧
      Compiled f M (.incDec kind one ret (.getProperty obj index)) s node := by
  refine compiled_place hs hcur rfl h
    (G := do
      let o ← single f M (eval f M obj)
      let i ← single f M (eval f M index)
      let z ← getMember M o i
      return (z, setMember M o i)) ?_ ?_
  · simp only [eval, compound, addOne, bind_assoc, pure_bind]
  · rintro k top a target back hsk hkt hc hsa ⟨st1, st2, htop, hback⟩
    refine ⟨⟨_, .member hs ho hi ho1 hi1 hsk (by omega) (hc rfl) htop hkt hback⟩, fun hallow => ?_⟩
    rcases writeBack_member rfl hback with ⟨-, -, rfl⟩ | ⟨-, -, rfl⟩ <;> cases hallow

end

/-! ## Compound assignments -/

theorem act_binaryLocal {v : LocalVar} (hv : v.Valid f) (hup : v.upCount = 0) (op : BinaryType) (c : Int)
    {o : Operand V} {σ : State (Frame V W) V} (hc : slotValue f M σ c = o.read σ.frame) :
    act f M (.binary op) v.index v.index c σ =
      Run.keep (compound M op (getLocal M v) o.get (setLocal M v)) (fun _ T => T) σ := by
  rw [act_stores rfl, result, slotValue_local (hv hup), hc]
  have hget : compound M op (getLocal M v) o.get (setLocal M v) σ.frame =
      (M.binary op (σ.frame.locals v.index) (o.read σ.frame) >>= fun y => setLocal M v y >>= fun _ =>
        Pure.pure (σ.frame.locals v.index, y)) σ.frame := by
    rw [compound, getLocal, if_neg (not_not.2 hup)]
    rfl
  cases hx : M.binary op (σ.frame.locals v.index) (o.read σ.frame) σ.frame with
  | error t => rw [store_of_error hx, Run.keep_of_error (hget.trans (Comp.bind_of_error hx))]
  | ok r =>
    have hset : setLocal (τ := τ) M v r.1 r.2 = .ok ((), r.2.setLocal v.index r.1) := by
      simp [setLocal, hup, Comp.modify]
    rw [store_of_ok hx, setSlot_local (hv hup),
      Run.keep_of_ok (hget.trans ((Comp.bind_of_ok hx).trans (Comp.bind_of_ok hset)))]

theorem compound_local {v : LocalVar} (hup : v.upCount = 0) {op : BinaryType} {x : Comp (Frame V W) τ V}
    {fr g : Frame V W} {r : V × V} (h : compound M op (getLocal M v) x (setLocal M v) fr = .ok (r, g)) :
    g.locals v.index = r.2 := by
  rw [compound] at h
  obtain ⟨z, g1, -, h⟩ := Comp.bind_ok h
  obtain ⟨w, g2, -, h⟩ := Comp.bind_ok h
  obtain ⟨y, g3, -, h⟩ := Comp.bind_ok h
  obtain ⟨u, g4, hset, h⟩ := Comp.bind_ok h
  cases h
  rw [setLocal] at hset
  cases hset
  simp [hup, Frame.setLocal]

section

variable {s : Nat} (hs : f.numLocals ≤ s)

include hs

/-- **A compound assignment to a local.** -/
theorem compiled_opAssign_local {op : BinaryType} {noPop : Bool} {v : LocalVar} (hv : v.Valid f) (hup : v.upCount = 0)
    {e : Exp} (he1 : e.retValues = 1) {list : List Node} {c : Int}
    (hright : Realises (s + 1) (fun _ => True) (single f M (eval f M e)) (execList f M list)
      fun o σ => slotValue f M σ c = o.read σ.frame) :
    Compiled f M (.opAssign op (.setLocalVar noPop v e)) s
      (if noPop then ⟨.codeList, s, 0, 0, [⟨.binary op, v.index, v.index, c, list⟩, ⟨.move, s, v.index, 0, []⟩]⟩
        else ⟨.codeList, 0, 0, 0, [⟨.binary op, v.index, v.index, c, list⟩]⟩) := by
  have hop : Realises s (fun _ => True)
      (single f M (eval f M e) >>= fun o => compound M op (getLocal M v) o.get (setLocal M v))
      (exec f M ⟨.binary op, v.index, v.index, c, list⟩) fun r σ => σ.frame.locals v.index = r.2 := by
    rw [exec_of_type (by simp) (by simp) (by simp)]
    refine (hright.below (Nat.le_succ s)).bind fun o => ?_
    exact Realises.keep (k := fun _ T => T) (fun σ hσ => act_binaryLocal hv hup op c hσ) (fun _ _ _ _ => rfl)
      fun σ r fr _ hr => compound_local hup hr
  have heval : eval f M (.opAssign op (.setLocalVar noPop v e)) = (single f M (eval f M e) >>= fun o =>
      compound M op (getLocal M v) o.get (setLocal M v)) >>= fun r => Pure.pure (leftOf noPop [.value r.2]) := by
    simp only [eval, hup, ne_eq, not_true_eq_false, if_false, bind_assoc]
  cases noPop with
  | true =>
    simp only [if_true]
    refine .of_list (.inr rfl) ?_ fun m hm _ _ => ?_
    · rw [exec_list rfl, execList_cons, execList_cons, execList_nil, Run.seq_done, heval, exec_leaf rfl]
      refine hop.bind fun r => ?_
      refine write_realises hs rfl rfl (X := fun _ => Pure.pure r.2) (fun σ hσ => ?_) fun σ _ => rfl
      rw [act_stores rfl]
      show store f s (Pure.pure (slotValue f M σ v.index)) σ = _
      rw [slotValue_local (hv hup), hσ]
    · cases hm
      exact ⟨Nat.le_refl 1, rfl⟩
  | false =>
    have hret : (Exp.opAssign op (.setLocalVar false v e)).retValues = 0 := by simp [Exp.retValues, he1]
    refine .of_list (.inr rfl) ?_ fun m hm _ ha => ?_
    · simp only [Bool.false_eq_true, if_false]
      rw [exec_list rfl, execList_cons, execList_nil, Run.seq_done, heval]
      exact hop.map _ fun r σ _ => Left.values (l := []) hret.symm (Temps.nil s _) fun _ v hv => by cases hv
    · cases hm
      have := hv hup
      have hle : (f.numLocals : Int) ≤ v.index := ha
      omega

/-- **A compound assignment to another place**: what the operator needs is computed, the place is read to the register `s`,
and the answer is written back from there. -/
theorem compiled_compound {op : BinaryType} {e : Exp} {ρ : Type} (prep : Comp (Frame V W) τ ρ)
    (get x : ρ → Comp (Frame V W) τ V) (set : ρ → V → Comp (Frame V W) τ Unit) (one : Bool) {list : List Node}
    {K : ρ → (Nat → V) → Prop} (hprep : Realises s (fun _ => True) prep (execList f M list) fun r σ => K r σ.temps)
    (hK : ∀ r T v, K r T → K r (update T s v)) {gtype : NodeType} (hgtype : gtype.stores = true) {gb gc c : Int}
    (hget : ∀ r σ, K r σ.temps → result f M gtype gb gc σ σ.frame = get r σ.frame)
    (hx : ∀ r σ, K r σ.temps → x r σ.frame = .ok (slotValue f M σ c, σ.frame)) {back : Node}
    (hset : ∀ r σ, K r σ.temps → exec f M back σ = Run.keep (set r (σ.temps s)) (fun _ T => T) σ)
    (hback : back.allowOverrideOpcodeResult = false) (hret : (Exp.opAssign op e).retValues = bif one then 1 else 0)
    (heval : eval f M (.opAssign op e) = (prep >>= fun r => compound M op (get r) (x r) (set r)) >>= fun r =>
      Pure.pure (leftOf one [.value r.2])) :
    Compiled f M (.opAssign op e) s
      ⟨.codeList, s, 0, 0, list ++ [⟨gtype, s, gb, gc, []⟩, ⟨.binary op, s, s, c, []⟩, back]⟩ := by
  have hop : Realises s (fun _ => True) (prep >>= fun r => compound M op (get r) (x r) (set r))
      (execList f M (list ++ [⟨gtype, s, gb, gc, []⟩, ⟨.binary op, s, s, c, []⟩, back])) fun r σ => σ.temps s = r.2 := by
    rw [execList_append, execList_cons, execList_cons, execList_cons, execList_nil, Run.seq_done, exec_leaf hgtype,
      exec_leaf rfl]
    refine hprep.bind fun r => ?_
    refine (store_realises hs (Nat.le_refl s) hgtype (X := get r) (Q := fun z σ => σ.temps s = z ∧ K r σ.temps)
      (hget r) fun σ v fr hσ _ => ⟨update_same _ _ _, hK r _ v hσ⟩).bind fun z => ?_
    have hbinary : Realises s (fun σ => σ.temps s = z ∧ K r σ.temps) (x r >>= fun y => M.binary op z y)
        (act f M (.binary op) s s c) fun y σ => σ.temps s = y ∧ K r σ.temps := by
      refine store_realises hs (Nat.le_refl s) rfl (fun σ hσ => ?_) fun σ v fr hσ _ => ⟨update_same _ _ _, hK r _ v hσ.2⟩
      rw [Comp.bind_of_ok (hx r σ hσ.2), result, slotValue_temp hs, hσ.1]
    refine (hbinary.bind (y := fun y => set r y >>= fun _ => Pure.pure (z, y)) fun y => ?_).congr (bind_assoc _ _ _).symm
    refine (Realises.keep (k := fun _ T => T) (Q := fun _ σ => σ.temps s = y) (fun σ hσ => ?_) (fun _ _ _ _ => rfl)
      fun σ _ fr hσ _ => hσ.1).map _ fun _ σ hσ => hσ
    rw [hset r σ hσ.2, hσ.1]
  refine .of_list (.inr rfl) ?_ fun m hm hallow _ => ?_
  · rw [exec_list rfl, heval]
    refine hop.map _ fun r σ hσ => ?_
    cases one with
    | true => exact Left.single hret hσ fun _ => (slotValue_temp hs _).trans hσ
    | false => exact Left.values (l := []) hret.symm (Temps.nil s _) fun _ v hv => by cases hv
  · have hlast : ∀ (ns : List Node) (x y : Node), (ns ++ [x, y, back]).getLast? = some back := by simp
    obtain rfl : back = m := Option.some.inj ((hlast _ _ _).symm.trans hm)
    rw [hback] at hallow
    cases hallow

theorem compiled_opAssign_upvalue {op : BinaryType} {noPop : Bool} {v : LocalVar} (hup : v.upCount ≠ 0) {e : Exp} {n : Node}
    (he : Compiled f M e (s + 1) n) (he1 : e.retValues = 1) :
    Compiled f M (.opAssign op (.setLocalVar noPop v e)) s
      ⟨.codeList, s, 0, 0, [n] ++ [⟨.getUpvalue, s, v.index, v.upCount, []⟩, ⟨.binary op, s, s, (s + 1 : Nat), []⟩,
        ⟨.setUpvalue, v.index, s, v.upCount, []⟩]⟩ := by
  refine compiled_compound hs (now f M (eval f M e)) (fun _ => getLocal M v) (fun x => (Operand.value x).get)
    (fun _ => setLocal M v) noPop (K := fun x T => T (s + 1) = x) ?_ (fun r T w hr => (update_ne _ _ (by omega)).trans hr) rfl
    (fun r σ _ => ?_) (fun r σ hr => ?_) (fun r σ _ => ?_) rfl ?_ ?_
  · rw [execList_cons, execList_nil, Run.seq_done]
    exact (he.now he1).below (Nat.le_succ s)
  · rw [getLocal, if_pos hup]
    rfl
  · rw [slotValue_temp (by omega), hr]
    rfl
  · rw [exec_of_type (by simp) (by simp) (by simp), execList_nil, Run.done_seq]
    exact act_setUpvalue (.inl rfl) hup hs σ
  · cases noPop <;> simp [Exp.retValues, he1]
  · simp only [eval, hup, ne_eq, not_false_eq_true, if_true, bind_map_left, bind_assoc]

theorem compiled_opAssign_env {op : BinaryType} {noPop : Bool} {name : Nat} {e : Exp} {n : Node}
    (he : Compiled f M e (s + 1) n) (he1 : e.retValues = 1) :
    Compiled f M (.opAssign op (.setEnvVar noPop name e)) s
      ⟨.codeList, s, 0, 0, (envNode f name (s + 1) n).list ++ [⟨.getProperty, s, (envNode f name (s + 1) n).a,
        (envNode f name (s + 1) n).b, []⟩, ⟨.binary op, s, s, (envNode f name (s + 1) n).c, []⟩,
        ⟨.setProperty, (envNode f name (s + 1) n).a, (envNode f name (s + 1) n).b, s, []⟩]⟩ := by
  have hslots : ∀ σ : State (Frame V W) V, (isXConst (f.constSlot (.string name)) = true →
      σ.temps (s + 2) = M.constant (f.constIndex (.string name))) → slotValue f M σ (envNode f name (s + 1) n).b =
        M.constant (f.constIndex (.string name)) ∧ (envNode f name (s + 1) n).a = f.envSlot ∧
        (envNode f name (s + 1) n).c = (s + 1 : Nat) := by
    intro σ hσ
    unfold envNode
    cases hx : isXConst (f.constSlot (.string name)) with
    | true => exact ⟨(slotValue_temp (s := s + 2) (by omega) σ).trans (hσ hx), rfl, rfl⟩
    | false => exact ⟨slotValue_const _ σ, rfl, rfl⟩
  refine compiled_compound hs (now f M (eval f M e)) (fun _ => getEnv f M name) Pure.pure (fun _ => setEnv f M name) noPop
    (K := fun x T => T (s + 1) = x ∧ (isXConst (f.constSlot (.string name)) = true →
      T (s + 2) = M.constant (f.constIndex (.string name))))
    ?_ (fun r T w hr => ⟨(update_ne _ _ (by omega)).trans hr.1, fun hx => (update_ne _ _ (by omega)).trans (hr.2 hx)⟩) rfl
    (fun r σ hr => ?_) (fun r σ hr => ?_) (fun r σ hr => ?_) rfl ?_ ?_
  · have hnow := (he.now he1).below (Nat.le_succ s)
    unfold envNode
    cases hx : isXConst (f.constSlot (.string name)) with
    | false =>
      simp only [Bool.false_eq_true, if_false]
      rw [execList_cons, execList_nil, Run.seq_done]
      exact hnow.post fun x σ hσ => ⟨hσ, fun h => by cases h⟩
    | true =>
      simp only [if_true]
      rw [execList_cons, execList_cons, execList_nil, Run.seq_done]
      refine (hnow.bind (y := fun x => Pure.pure (M.constant (f.constIndex (.string name))) >>= fun _ => Pure.pure x)
        fun x => (load_realises hs (by omega) (.string name) (Q := fun k σ => σ.temps (s + 1) = x ∧
          σ.temps (s + 2) = M.constant (f.constIndex (.string name)))
          fun σ hσ => ⟨(update_ne _ _ (by omega)).trans hσ, update_same _ _ _⟩).map _ fun _ σ hσ => ⟨hσ.1, fun _ => hσ.2⟩).congr ?_
      simp only [pure_bind, bind_pure]
  · obtain ⟨hb, ha, -⟩ := hslots σ hr.2
    rw [result, ha, slotValue_env, hb]
    rfl
  · obtain ⟨-, -, hc⟩ := hslots σ hr.2
    rw [hc, slotValue_temp (by omega), hr.1]
    rfl
  · obtain ⟨hb, ha, -⟩ := hslots σ hr.2
    rw [exec_of_type (by simp) (by simp) (by simp), execList_nil, Run.done_seq, act_setProperty (.inl rfl), ha, slotValue_env,
      hb, slotValue_temp hs]
    rfl
  · cases noPop <;> simp [Exp.retValues, he1]
  · simp only [eval, bind_assoc]

theorem compiled_opAssign_member {op : BinaryType} {noPop : Bool} {value obj index : Exp} {nv no ni : Node} {p : Nat}
    (hp : p = s + 1) (hv : Compiled f M value p nv) (ho : Compiled f M obj (p + 1) no) (hi : Compiled f M index (p + 2) ni)
    (hv1 : value.retValues = 1) (ho1 : obj.retValues = 1) (hi1 : index.retValues = 1) {type : NodeType}
    (htype : type = .setProperty ∨ type = .setPropertyNoPop) :
    Compiled f M (.opAssign op (.setProperty noPop value obj index)) s
      ⟨.codeList, s, 0, 0, [(nv.elide (nv.movesOperand f) p).1, (no.elide (no.movesOperand f) (p + 1)).1,
          (ni.elide (ni.movesOperand f) (p + 2)).1] ++
        [⟨.getProperty, s, (no.elide (no.movesOperand f) (p + 1)).2, (ni.elide (ni.movesOperand f) (p + 2)).2, []⟩,
        ⟨.binary op, s, s, (nv.elide (nv.movesOperand f) p).2, []⟩,
        ⟨type, (no.elide (no.movesOperand f) (p + 1)).2, (ni.elide (ni.movesOperand f) (p + 2)).2, s, []⟩]⟩ := by
  have hprep := (memberOperands (s := p) (by omega) hv ho hi (Nat.le_of_eq hv1.symm) (by omega) ho1 hi1).below
    (show s ≤ p by omega)
  replace hprep := hprep.congr_run (k := execList f M [(nv.elide (nv.movesOperand f) p).1,
      (no.elide (no.movesOperand f) (p + 1)).1, (ni.elide (ni.movesOperand f) (p + 2)).1])
    (by rw [execList_cons, execList_cons, execList_cons, execList_nil, Run.seq_done])
  refine compiled_compound hs _ (fun r => getMember M r.2.1 r.2.2) (fun r => (r.1.getLastD (.value (null f M))).get)
    (fun r => setMember M r.2.1 r.2.2) noPop (hprep.post (S := fun (r : List (Operand V) × Operand V × Operand V) σ =>
      (∃ x, r.1.getLast? = some x ∧ Located f M p (nv.elide (nv.movesOperand f) p).2 x σ.temps) ∧
      Located f M (p + 1) (no.elide (no.movesOperand f) (p + 1)).2 r.2.1 σ.temps ∧
      Located f M (p + 2) (ni.elide (ni.movesOperand f) (p + 2)).2 r.2.2 σ.temps)
    fun r σ hσ => ⟨hσ.1.last, hσ.2⟩) (K := fun (r : List (Operand V) × Operand V × Operand V) T =>
      (∃ x, r.1.getLast? = some x ∧ Located f M p (nv.elide (nv.movesOperand f) p).2 x T) ∧
      Located f M (p + 1) (no.elide (no.movesOperand f) (p + 1)).2 r.2.1 T ∧
      Located f M (p + 2) (ni.elide (ni.movesOperand f) (p + 2)).2 r.2.2 T) ?_ rfl ?_ ?_ ?_ ?_ ?_ ?_
  · rintro r T w ⟨⟨x, hx, hvalue⟩, hobj, hindex⟩
    exact ⟨⟨x, hx, hvalue.congr (update_ne _ _ (by omega))⟩, hobj.congr (update_ne _ _ (by omega)),
      hindex.congr (update_ne _ _ (by omega))⟩
  · rintro r σ ⟨-, hobj, hindex⟩
    rw [result, hobj.read, hindex.read]
    rfl
  · rintro r σ ⟨⟨x, hx, hvalue⟩, -⟩
    rw [List.getLastD_eq_getLast?, hx, hvalue.read]
    rfl
  · rintro r σ ⟨-, hobj, hindex⟩
    have hact := act_setProperty (f := f) (M := M) htype (no.elide (no.movesOperand f) (p + 1)).2 (ni.elide (ni.movesOperand f) (p + 2)).2 s σ
    rw [exec_of_type (by rcases htype with rfl | rfl <;> simp) (by rcases htype with rfl | rfl <;> simp)
      (by rcases htype with rfl | rfl <;> simp), execList_nil, Run.done_seq, hact, hobj.read, hindex.read, slotValue_temp hs]
    rfl
  · rcases htype with rfl | rfl <;> rfl
  · cases noPop <;> simp [Exp.retValues, hv1]
  · simp only [eval, single, bind_assoc, pure_bind]

end

end NewVM
end Compiler
end ObjectScript
