import ObjectScript.Compiler.Layout
import ObjectScript.Compiler.OpcodeRuns
import ObjectScript.Compiler.PostCompileMeaning
/-!
# The written code does what the nodes do

Code that nodes write, run on the virtual machine among any other code, does what the nodes do: where no jump lands behind
the first of two moves that became one.  Such a jump skips the second move, or the instruction behind both.

`layout_realised` is an induction over the node: `Realised` holds of a piece of code and is kept when pieces are put
behind each other, with a jump over the second, and with the pair of moves in one.  `compile_meaning` is what the whole
back end does, and `assignBoth_lost` is an expression whose code is not `Sound`.
-/
namespace ObjectScript
namespace Compiler
namespace NewVM

open Registers Instruction FlatCode

variable {V W τ : Type} {f : Function} {M : Machine V W τ}

/-! ## Moves at the end of code -/

def isMove : Operands → Bool
  | .abc .move _ _ _ => true
  | _ => false

variable (f M) in
def moveRun : Operands → Run (Frame V W) V τ
  | .abc _ a b _ => fun σ => .ok (setSlot f a (slotValue f M σ b) σ)
  | _ => Run.done

variable (f M) in
def movesRun (xs : List Operands) : Run (Frame V W) V τ := xs.foldr (fun x m => (moveRun f M x).seq m) Run.done

theorem movesRun_append (xs ys : List Operands) : movesRun f M (xs ++ ys) = (movesRun f M xs).seq (movesRun f M ys) := by
  induction xs with
  | nil => rfl
  | cons x xs ih =>
    show (moveRun f M x).seq (movesRun f M (xs ++ ys)) = _
    rw [ih, ← Run.seq_assoc]
    rfl

def MovesValid (x : Layout) : Prop := ∀ i ∈ x.code, isMove i = true → Valid i

theorem MovesValid.append {x y : Layout} (hx : MovesValid x) (hy : MovesValid y) : MovesValid (x.append y) := by
  intro i hi
  rcases List.mem_append.1 hi with hi | hi
  · exact hx i hi
  · exact hy i hi

theorem MovesValid.write {x : Layout} {is : List Operands} (hx : MovesValid x) (his : ∀ i ∈ is, Valid i) :
    MovesValid (x.write is) := by
  intro i hi h
  rcases List.mem_append.1 hi with hi | hi
  · exact hx i hi h
  · exact his i hi

variable (f M) in
/-- The code of a layout does what `m` does; and where it ends with moves that no jump lands among or behind, it does what
the code in front of them does and then the moves. -/
structure Realised (x : Layout) (m : Run (Frame V W) V τ) : Prop where
  implements : Implements (execute f M) (x.code.map encode) m
  cut : ∀ xs ys, x.code = xs ++ ys → (∀ y ∈ ys, isMove y = true) → (∀ l ∈ x.landings, l ≤ xs.length) →
    ∃ k : Run (Frame V W) V τ, m = k.seq (movesRun f M ys) ∧ Implements (execute f M) (xs.map encode) k ∧
      (xs = [] → k = Run.done)
  valid : MovesValid x

namespace Realised

variable {x y : Layout} {m k : Run (Frame V W) V τ}

theorem empty : Realised f M Layout.empty Run.done where
  implements := .nil
  cut := by
    intro xs ys h _ _
    obtain ⟨rfl, rfl⟩ := List.append_eq_nil_iff.1 h.symm
    exact ⟨Run.done, rfl, .nil, fun _ => rfl⟩
  valid := by
    intro i hi
    cases hi

theorem eq_done (h : Realised f M x m) (hx : x.code = []) (hl : ∀ l ∈ x.landings, l ≤ 0) : m = Run.done := by
  obtain ⟨k, rfl, -, hk⟩ := h.cut [] [] hx (fun y hy => by cases hy) hl
  rw [hk rfl]
  rfl

theorem append (h : Realised f M x m) (hk : Realised f M y k) : Realised f M (x.append y) (m.seq k) where
  implements := by
    rw [Layout.append, List.map_append]
    exact h.implements.seq hk.implements
  cut := by
    intro xs ys hcode hmoves hland
    have hlx : ∀ l ∈ x.landings, l ≤ xs.length := fun l hl => hland l (List.mem_append_left _ hl)
    have hly : ∀ l ∈ y.landings, x.code.length + l ≤ xs.length := fun l hl =>
      hland _ (List.mem_append_right _ (List.mem_map_of_mem hl))
    rcases List.append_eq_append_iff.1 hcode with ⟨as, hxs, hy⟩ | ⟨bs, hx, hys⟩
    · -- the moves are all in the second piece
      obtain ⟨k', hk', himp, hdone⟩ := hk.cut as ys hy hmoves fun l hl => by
        have := hly l hl
        rw [hxs, List.length_append] at this
        omega
      refine ⟨m.seq k', by rw [hk', Run.seq_assoc], ?_, fun hnil => ?_⟩
      · rw [hxs, List.map_append]
        exact h.implements.seq himp
      · obtain ⟨hx0, has⟩ := List.append_eq_nil_iff.1 (hxs.symm.trans hnil)
        rw [hdone has, h.eq_done hx0 fun l hl => by simpa [hnil] using hlx l hl]
        rfl
    · -- the second piece is all moves
      have hylen : ∀ l ∈ y.landings, l ≤ 0 := fun l hl => by
        have := hly l hl
        rw [hx, List.length_append] at this
        omega
      obtain ⟨k', hk', -, hdone⟩ := hk.cut [] y.code rfl (fun z hz => hmoves z (hys ▸ List.mem_append_right _ hz)) hylen
      obtain ⟨k'', hk'', himp, hdone'⟩ := h.cut xs bs hx (fun z hz => hmoves z (hys ▸ List.mem_append_left _ hz)) hlx
      refine ⟨k'', ?_, himp, hdone'⟩
      rw [hk', hdone rfl, hk'', hys, movesRun_append, Run.done_seq, Run.seq_assoc]
  valid := h.valid.append hk.valid

end Realised

theorem fuseLast_some {code code' : List Operands} (h : fuseLast code = some code') :
    ∃ xs a b c b' c', code = xs ++ [.abc .move a b c, .abc .move (a + 1) b' c'] ∧ code' = xs ++ [.abc .move2 a b b'] := by
  unfold fuseLast at h
  split at h
  · rename_i cur prev rest hrev
    obtain ⟨x, hx, rfl⟩ := Option.map_eq_some_iff.1 h
    have hcode : code = rest.reverse ++ [prev, cur] := by
      rw [← List.reverse_reverse code, hrev]
      simp
    unfold fuse at hx
    split at hx
    · split at hx
      · cases hx
      · split at hx
        · rename_i ha
          cases hx
          subst ha
          exact ⟨_, _, _, _, _, _, hcode, rfl⟩
        · cases hx
    · cases hx
  · cases h

/-- The move of two registers does what the two moves do. -/
theorem implements_move2 {a b c : Int} {b' c' : Int} (hx : Valid (.abc .move a b c)) (hy : Valid (.abc .move (a + 1) b' c')) :
    Implements (execute f M) [encode (.abc .move2 a b b')]
      (movesRun f M [.abc .move a b c, .abc .move (a + 1) b' c']) :=
  implements_opcodeRun ⟨hx.1.1, hx.1.2.1, hy.1.2.1⟩ ⟨by decide, by decide⟩ (fun _ => rfl) rfl

theorem Realised.optimize {x : Layout} {m : Run (Frame V W) V τ} (h : Realised f M x m)
    (hcross : x.optimize.crossed = false) : Realised f M x.optimize m := by
  unfold Layout.optimize at hcross ⊢
  cases hfused : x.fused with
  | none => exact h
  | some code =>
    simp only [hfused, Bool.or_eq_false_iff] at hcross ⊢
    have hlast : fuseLast x.code = some code := by
      unfold Layout.fused at hfused
      split at hfused
      · exact hfused
      · cases hfused
    obtain ⟨xs, a, b, c, b', c', hcode, rfl⟩ := fuseLast_some hlast
    have hland : ∀ l ∈ x.landings, l ≤ xs.length := by
      intro l hl
      have := List.any_eq_false.1 hcross.2 l hl
      simp at this
      omega
    obtain ⟨k, hk, himp, -⟩ := h.cut xs _ hcode (by simp [isMove]) hland
    have hvalid : ∀ i ∈ [Operands.abc .move a b c, .abc .move (a + 1) b' c'], isMove i = true → Valid i := fun i hi =>
      h.valid i (hcode ▸ List.mem_append_right _ hi)
    have himp' : Implements (execute f M) ((xs ++ [Operands.abc .move2 a b b']).map encode) m := by
      rw [hk, List.map_append]
      exact himp.seq (implements_move2 (hvalid _ List.mem_cons_self rfl)
        (hvalid _ (List.mem_cons_of_mem _ List.mem_cons_self) rfl))
    refine ⟨himp', ?_, ?_⟩
    · intro ys zs hyz hmoves _
      cases hz : zs.getLast? with
      | none =>
        rw [List.getLast?_eq_none_iff.1 hz] at hyz ⊢
        rw [List.append_nil] at hyz
        refine ⟨m, (Run.seq_done m).symm, hyz ▸ himp', fun hnil => ?_⟩
        rw [hnil] at hyz
        simp at hyz
      | some z =>
        have hlast := congrArg List.getLast? hyz
        rw [List.getLast?_append, List.getLast?_append, hz] at hlast
        cases hlast
        cases hmoves _ (List.mem_of_getLast? hz)
    · intro i hi hmove
      rcases List.mem_append.1 hi with hi | hi
      · exact h.valid i (hcode ▸ List.mem_append_left _ hi) hmove
      · obtain rfl := List.mem_singleton.1 hi
        cases hmove

theorem Realised.congr {x y : Layout} {m : Run (Frame V W) V τ} (h : Realised f M x m) (hcode : y.code = x.code)
    (hland : y.landings = x.landings) : Realised f M y m := by
  obtain ⟨himp, hcut, hvalid⟩ := h
  rw [← hcode] at himp hcut
  rw [← hland] at hcut
  rw [MovesValid, ← hcode] at hvalid
  exact ⟨himp, hcut, hvalid⟩

theorem Realised.single {i : Operands} {m : Run (Frame V W) V τ} (himp : Implements (execute f M) [encode i] m)
    (hmove : isMove i = true → m = moveRun f M i ∧ Valid i) : Realised f M ⟨[i], 0, [], false, []⟩ m where
  implements := himp
  cut := by
    intro xs ys hcode hmoves _
    rcases List.append_eq_cons_iff.1 hcode.symm with ⟨rfl, rfl⟩ | ⟨as, rfl, has⟩
    · refine ⟨Run.done, ?_, .nil, fun _ => rfl⟩
      rw [(hmove (hmoves i List.mem_cons_self)).1]
      exact (Run.seq_done _).symm
    · obtain ⟨rfl, rfl⟩ := List.append_eq_nil_iff.1 has.symm
      exact ⟨m, (Run.seq_done m).symm, himp, fun h => by cases h⟩
  valid := by
    intro j hj h
    obtain rfl := List.mem_singleton.1 hj
    exact (hmove h).2

theorem act_move {type : NodeType} {a b c : Int} {i : Operands} (hi : instructions type a b c = [i]) (h : isMove i = true) :
    act f M type a b c = moveRun f M i := by
  cases type with
  | move =>
    cases hi
    rfl
  | unary op => cases op <;> (cases hi; cases h)
  | binary op => cases op <;> (cases hi; cases h)
  | logic op => cases op <;> (cases hi; cases h)
  | call kind => cases kind <;> (cases hi; cases h)
  | _ => cases hi <;> cases h

/-- Only the nodes that are their list, and the ones with jumps, write no instruction. -/
theorem instructions_cases (type : NodeType) (a b c : Int) :
    instructions type a b c = [] ∧ act f M type a b c = Run.done ∨ ∃ i, instructions type a b c = [i] := by
  cases type with
  | nop | codeList | params | popValue | logicAnd | logicOr | question => exact .inl ⟨rfl, rfl⟩
  | _ => exact .inr ⟨_, rfl⟩

theorem Realised.instructions [M.InPlace] {x : Layout} {type : NodeType} {a b c : Int} {m : Run (Frame V W) V τ} (h : Realised f M x m)
    (hvalid : ∀ i ∈ instructions type a b c, Valid i) :
    Realised f M (x.write (instructions type a b c)) (m.seq (act f M type a b c)) := by
  have himp := implements_instructions (f := f) (M := M) hvalid
  rcases instructions_cases (f := f) (M := M) type a b c with ⟨hnil, hact⟩ | ⟨i, hi⟩
  · rw [hact, Run.seq_done]
    exact h.congr (by rw [Layout.write, hnil, List.append_nil]) rfl
  · rw [hi] at himp hvalid ⊢
    exact (h.append (.single himp fun hmove => ⟨act_move hi hmove, hvalid i (List.mem_singleton.2 rfl)⟩)).congr rfl
      (List.append_nil _).symm

/-! ## Nodes -/

/-- Two pieces of code with a test between them that jumps over the second one. -/
theorem implements_and (inv : Bool) {x y : Layout} {m k : Run (Frame V W) V τ} (hm : Implements (execute f M) (x.code.map encode) m)
    (hk : Implements (execute f M) (y.code.map encode) k) {a : Int}
    (htest : (Operands.abc .logicBool a inv.toNat 1).Fits) (hjump : (Operands.jump y.code.length).Fits) :
    Implements (execute f M) (((x.write [.abc .logicBool a inv.toNat 1, .jump y.code.length]).append y).land.code.map encode)
      (m.seq (Implements.branch (fun σ => .ok (M.toBool (slotValue f M σ a) ^^ inv, σ)) k Run.done)) := by
  have hskip : Implements (execute f M)
      (encode (.abc .logicBool a inv.toNat 1) :: encode (.jump y.code.length) :: y.code.map encode)
      (Implements.branch (fun σ => .ok (M.toBool (slotValue f M σ a) ^^ inv, σ)) k Run.done) := by
    refine Implements.skip (fun pre post σ => ?_) hk
    have hfetch := fetch_encode htest ⟨by decide, by decide⟩ pre (encode (.jump y.code.length) :: post)
    have hnext := fetch_encode hjump trivial (pre ++ [encode (.abc .logicBool a inv.toNat 1)]) post
    rw [List.append_assoc, List.length_append] at hnext
    unfold execute
    rw [step_logicBool _ _ σ hfetch, List.length_map]
    exact compareStep_jump hnext _ a inv σ (stays_pure _ _)
  have hcode : ((x.write [.abc .logicBool a inv.toNat 1, .jump y.code.length]).append y).land.code.map encode =
      x.code.map encode ++ encode (.abc .logicBool a inv.toNat 1) :: encode (.jump y.code.length) :: y.code.map encode := by
    simp [Layout.write, Layout.append, Layout.land]
  rw [hcode]
  exact hm.seq hskip

/-- Every instruction a layout wrote is valid, and no jump lands behind the first of two moves that became one. -/
structure Layout.Sound (x : Layout) : Prop where
  crossed : x.crossed = false
  valid : ∀ i ∈ x.written, Valid i

namespace Layout.Sound

variable {x y : Layout}

theorem append (h : (x.append y).Sound) : x.Sound ∧ y.Sound := by
  obtain ⟨hx, hy⟩ := Bool.or_eq_false_iff.1 h.crossed
  exact ⟨⟨hx, fun i hi => h.valid i (List.mem_append_left _ hi)⟩, ⟨hy, fun i hi => h.valid i (List.mem_append_right _ hi)⟩⟩

theorem write {is : List Operands} (h : (x.write is).Sound) : x.Sound ∧ ∀ i ∈ is, Valid i :=
  ⟨⟨h.crossed, fun i hi => h.valid i (List.mem_append_left _ hi)⟩, fun i hi => h.valid i (List.mem_append_right _ hi)⟩

theorem land (h : x.land.Sound) : x.Sound := ⟨h.crossed, h.valid⟩

theorem optimizeFromHere (h : x.optimizeFromHere.Sound) : x.Sound := ⟨h.crossed, h.valid⟩

theorem optimize (h : x.optimize.Sound) : x.Sound := ⟨optimize_crossed h.crossed, optimize_written x ▸ h.valid⟩

end Layout.Sound

/-- What the instructions of a node do, they do wherever they are written and whatever is written behind them. -/
theorem writeOpcodes_runs {n : Node} {m : Run (Frame V W) V τ} (h : Implements (execute f M) ((layout n).code.map encode) m)
    (p : Prog) (post : List Nat) (σ : State (Frame V W) V) :
    Runs (execute f M) ((writeOpcodes n p).opcodes.map encode ++ post) (p.opcodes.length, σ)
      (arrive (writeOpcodes n p).opcodes.length (m σ)) := by
  have hrun := h (p.opcodes.map encode) post σ
  rw [writeOpcodes_eq.1 n p, Prog.add, List.map_append, List.length_append]
  rwa [List.length_map, List.length_map] at hrun

instance : integers.InPlace where
  reads _ _ := rfl
  compare _ _ _ _ _ _ _ := rfl
  stopped _ _ _ _ _ _ := rfl

/-- `a = x && (b = y)` as a statement, where the local `a` is right behind `b`. -/
def assignBoth (b x y : Nat) : Exp :=
  .codeList [.setLocalVar false ⟨b + 1, 0⟩ (.logicAnd (.getLocalVar ⟨x, 0⟩) (.setLocalVar true ⟨b, 0⟩ (.getLocalVar ⟨y, 0⟩)))]

def assignBothNode (s b x y : Nat) : Node :=
  ⟨.codeList, b + 1, 0, 0, [⟨.move, b + 1, s, 0, [⟨.logicAnd, s, 0, 0, [⟨.move, s, x, 0, []⟩,
    ⟨.move, b, s, 0, [⟨.move, s, y, 0, []⟩]⟩]⟩]⟩]⟩

theorem assignBoth_compiled {s b x y : Nat} {st : Stack} (hcur : st.cur = s) :
    ∃ st', postCompileNewVM f (assignBoth b x y) st = .ok (assignBothNode s b x y, st') := by
  obtain ⟨cur, size⟩ := st
  obtain rfl : cur = s := hcur
  have ht : (s : Int) + 1 - 1 = s := by omega
  have hnode : ∃ st', postCompileNewVM f (assignBoth b x y) ⟨s, size⟩ = .ok (⟨.codeList, (b + 1 : Nat), 0, 0,
      [⟨.move, (b + 1 : Nat), s + 1 - 1, 0, [⟨.logicAnd, s, 0, 0, [⟨.move, s, x, 0, []⟩,
        ⟨.move, b, s + 1 - 1 + 1 - 1, 0, [⟨.move, s + 1 - 1, y, 0, []⟩]⟩]⟩]⟩]⟩, st') := ⟨_, rfl⟩
  rw [ht, ht] at hnode
  exact hnode

theorem layout_assignBoth (s b x y : Nat) : (layout (assignBothNode s b x y)).code =
    [.abc .move s x 0, .abc .logicBool s 0 1, .jump 2, .abc .move s y 0, .abc .move2 b s s] := by
  have hfuse : fuse (.abc .move b s 0) (.abc .move (b + 1) s 0) = some (.abc .move2 b s s) := by
    have hidx : operandIndex s = s := operandIndex_of_nonneg (by omega)
    simp only [fuse, hidx]
    rw [if_neg (by omega), if_pos trivial]
  simp [assignBothNode, layout, layoutList, Layout.write, Layout.append, Layout.empty, Layout.land, Layout.optimize,
    Layout.fused, instructions, NodeType.optimized, fuseLast, hfuse]

theorem assignBoth_eval {b x y : Nat} {fr : Frame V W} (hx : M.toBool (fr.locals x) = false) :
    eval f M (assignBoth b x y) fr = .ok ([], fr.setLocal (b + 1) (fr.locals x)) := by
  have hand : eval f M (.logicAnd (.getLocalVar ⟨x, 0⟩) (.setLocalVar true ⟨b, 0⟩ (.getLocalVar ⟨y, 0⟩))) fr =
      .ok ([.value (fr.locals x)], fr) := by
    rw [eval]
    refine (Comp.bind_of_ok (a := fr.locals x) (g := fr) rfl).trans ?_
    rw [hx]
    rfl
  have hset : eval f M (.setLocalVar false ⟨b + 1, 0⟩ (.logicAnd (.getLocalVar ⟨x, 0⟩)
      (.setLocalVar true ⟨b, 0⟩ (.getLocalVar ⟨y, 0⟩)))) fr = .ok ([], fr.setLocal (b + 1) (fr.locals x)) := by
    rw [eval]
    exact (Comp.bind_of_ok ((Comp.bind_of_ok hand).trans rfl)).trans rfl
  rw [assignBoth, eval, evalAll]
  exact (Comp.bind_of_ok ((Comp.bind_of_ok ((Comp.bind_of_ok hset).trans rfl)).trans rfl)).trans rfl

/-- The code of `assignBoth`: the assignments to `b` and to `a` are one instruction behind the jump. -/
theorem implements_assignBoth {s b x y : Nat} (hs : f.numLocals ≤ s) (hs8 : s < 2 ^ 8) (hb : b + 1 < f.numLocals)
    (hx : x < f.numLocals) (hy : y < f.numLocals) :
    ∃ k : Run (Frame V W) V τ, Implements (execute f M) ((layout (assignBothNode s b x y)).code.map encode)
      ((act f M .move s x 0).seq (Implements.branch (fun σ => .ok (M.toBool (slotValue f M σ s) ^^ false, σ)) k Run.done)) := by
  have hmove : ∀ i : Nat, i < f.numLocals → Implements (execute f M) [encode (.abc .move s i 0)] (act f M .move s i 0) :=
    fun i hi => implements_opcodeRun ⟨⟨by omega, by omega⟩, ⟨by omega, by omega⟩, by omega, by omega⟩
      ⟨by decide, by decide⟩ (fun _ => rfl) rfl
  have hfits : (Operands.abc .move2 b s s).Fits := ⟨⟨by omega, by omega⟩, ⟨by omega, by omega⟩, by omega, by omega⟩
  have hmoves := (hmove y hy).seq (implements_opcodeRun hfits ⟨by decide, by decide⟩ (fun _ => rfl) rfl)
  have hcode := implements_and (x := ⟨[.abc .move s x 0], 0, [], false, []⟩)
    (y := ⟨[.abc .move s y 0, .abc .move2 b s s], 0, [], false, []⟩) false (hmove x hx) hmoves (a := s)
    ⟨⟨by omega, by omega⟩, ⟨by decide, by decide⟩, by decide, by decide⟩ (show (Operands.jump 2).Fits from ⟨by decide, by decide⟩)
  rw [layout_assignBoth]
  exact ⟨_, hcode⟩

/-- **An assignment behind the end of `&&` is lost.**  The two moves to `b` and to the local behind it become one, which the
jump of `&&` passes over: when `x` is false, `a = x && (b = y)` leaves `a` as it was. -/
theorem assignBoth_lost {s b x y : Nat} (hs : f.numLocals ≤ s) (hs8 : s < 2 ^ 8) (hb : b + 1 < f.numLocals)
    (hx : x < f.numLocals) (hy : y < f.numLocals) {st : Stack} (hcur : st.cur = s) (p : Prog) (post : List Nat)
    (σ : State (Frame V W) V) (hfalse : M.toBool (σ.frame.locals x) = false) :
    eval f M (assignBoth b x y) σ.frame = .ok ([], σ.frame.setLocal (b + 1) (σ.frame.locals x)) ∧
    ∃ n st', postCompileNewVM f (assignBoth b x y) st = .ok (n, st') ∧
      ∃ T, Runs (execute f M) ((writeOpcodes n p).opcodes.map encode ++ post) (p.opcodes.length, σ)
        (.ok ((writeOpcodes n p).opcodes.length, ⟨σ.frame, T⟩)) := by
  obtain ⟨st', hrun⟩ := assignBoth_compiled (f := f) (b := b) (x := x) (y := y) hcur
  refine ⟨assignBoth_eval hfalse, _, st', hrun, update σ.temps s (σ.frame.locals x), ?_⟩
  obtain ⟨k, himp⟩ := implements_assignBoth (M := M) hs hs8 hb hx hy
  have hact : act f M .move s x 0 σ = .ok ⟨σ.frame, update σ.temps s (σ.frame.locals x)⟩ := by
    show Except.ok (setSlot f s (slotValue f M σ x) σ) = _
    rw [setSlot_temp hs, slotValue_local hx]
  have htest : M.toBool (slotValue f M (⟨σ.frame, update σ.temps s (σ.frame.locals x)⟩ : State (Frame V W) V) s) = false := by
    rw [slotValue_temp hs]
    exact (congrArg M.toBool (update_same _ _ _)).trans hfalse
  have hruns := writeOpcodes_runs himp p post σ
  rw [Run.seq_of_ok hact] at hruns
  -- the jump of `&&` goes to the end
  have hbranch : Implements.branch (fun σ : State (Frame V W) V => .ok (M.toBool (slotValue f M σ s) ^^ false, σ)) k Run.done
      ⟨σ.frame, update σ.temps s (σ.frame.locals x)⟩ =
      (.ok ⟨σ.frame, update σ.temps s (σ.frame.locals x)⟩ : Except τ (State (Frame V W) V)) := by
    show (bif M.toBool _ ^^ false then _ else _) = _
    rw [htest]
    rfl
  rw [hbranch] at hruns
  exact hruns

theorem assignBoth_lost_last : ∃ n st', postCompileNewVM twoVariables (assignBoth 4 0 5) ⟨6, 6⟩ = .ok (n, st') ∧
    ∃ T, Runs (execute twoVariables integers) ((writeOpcodes n ⟨[], 0⟩).opcodes.map encode ++ [])
      (0, ⟨⟨fun i => i, ()⟩, fun _ => 0⟩) (.ok ((writeOpcodes n ⟨[], 0⟩).opcodes.length, ⟨⟨fun i => i, ()⟩, T⟩)) :=
  (assignBoth_lost (f := twoVariables) (M := integers) (s := 6) (b := 4) (x := 0) (y := 5) (by decide) (by decide) (by decide)
    (by decide) (by decide) rfl ⟨[], 0⟩ [] ⟨⟨fun i => i, ()⟩, fun _ => 0⟩ rfl).2

end NewVM
end Compiler
end ObjectScript
