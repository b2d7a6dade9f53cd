import Mathlib.Tactic.Common
/-!
# Try blocks

`writeOpcodes` gives a function one try block for each `try` statement, with the positions between which the body lies,
when the whole statement is written; so the block of an inner statement comes before that of an outer one.  An exception
looks for its catch block by the position at which the function would go on (`findTryBlock`).  The main result is that
this finds the innermost statement whose body has the instruction (`findTryBlock_eq`).
-/
namespace ObjectScript
namespace Compiler

structure TryBlock where
  startCodePos : Nat
  endCodePos : Nat
  catchVarIndex : Nat
deriving DecidableEq, Repr

/-- What `writeOpcodes` writes for an expression, as far as positions depend on it. -/
inductive Emission where
  | empty
  /-- One instruction. -/
  | opcode
  | seq (a b : Emission)
  /-- The operands of a test, the test and its jump, and what is jumped over: `if` without `else`, `&&`, `||`. -/
  | ifThen (operands body : Emission)
  | ifElse (operands body other : Emission)
  | tryCatch (body : Emission) (catchVar : Nat) (handler : Emission)
  /-- `OP_NEW_FUNCTION`, with the code of the function behind it; its `try` statements are its own. -/
  | function (body : Emission)
deriving DecidableEq, Repr

namespace Emission

/-- `writeOpcodes` from a position, with the try blocks of the function so far. -/
def writeOpcodes : Emission → Nat × List TryBlock → Nat × List TryBlock
  | empty, out => out
  | opcode, (pos, blocks) => (pos + 1, blocks)
  | seq a b, out => b.writeOpcodes (a.writeOpcodes out)
  | ifThen operands body, out =>
    let (pos, blocks) := operands.writeOpcodes out
    body.writeOpcodes (pos + 2, blocks)
  | ifElse operands body other, out =>
    let (pos, blocks) := operands.writeOpcodes out
    let (pos, blocks) := body.writeOpcodes (pos + 2, blocks)
    other.writeOpcodes (pos + 1, blocks)
  | tryCatch body catchVar handler, (start, blocks) =>
    let (jumpPos, blocks) := body.writeOpcodes (start, blocks)
    let (pos, blocks) := handler.writeOpcodes (jumpPos + 1, blocks)
    (pos, blocks ++ [{ startCodePos := start, endCodePos := jumpPos + 1, catchVarIndex := catchVar }])
  | function body, (pos, blocks) => ((body.writeOpcodes (pos + 1, [])).1 + 1, blocks)

def size : Emission → Nat
  | empty => 0
  | opcode => 1
  | seq a b => a.size + b.size
  | ifThen operands body => operands.size + 2 + body.size
  | ifElse operands body other => operands.size + 2 + body.size + 1 + other.size
  | tryCatch body _ handler => body.size + 1 + handler.size
  | function body => body.size + 2

/-- The block of a `try` statement at `pos`. -/
def tryBlock (body : Emission) (catchVar pos : Nat) : TryBlock :=
  { startCodePos := pos, endCodePos := pos + body.size + 1, catchVarIndex := catchVar }

/-- The try blocks that are written for code at `pos`. -/
def tryBlocks : Emission → Nat → List TryBlock
  | empty, _ => []
  | opcode, _ => []
  | seq a b, pos => a.tryBlocks pos ++ b.tryBlocks (pos + a.size)
  | ifThen operands body, pos => operands.tryBlocks pos ++ body.tryBlocks (pos + operands.size + 2)
  | ifElse operands body other, pos =>
    operands.tryBlocks pos ++ body.tryBlocks (pos + operands.size + 2) ++
      other.tryBlocks (pos + operands.size + 2 + body.size + 1)
  | tryCatch body catchVar handler, pos =>
    body.tryBlocks pos ++ handler.tryBlocks (pos + body.size + 1) ++ [body.tryBlock catchVar pos]
  | function _, _ => []

theorem writeOpcodes_eq (c : Emission) : ∀ pos blocks, c.writeOpcodes (pos, blocks) = (pos + c.size, blocks ++ c.tryBlocks pos) := by
  induction c with
  | empty =>
    intro pos blocks
    rw [writeOpcodes, tryBlocks, List.append_nil]
    rfl
  | opcode =>
    intro pos blocks
    rw [writeOpcodes, tryBlocks, List.append_nil]
    rfl
  | seq a b iha ihb =>
    intro pos blocks
    rw [writeOpcodes, iha, ihb, tryBlocks, size, List.append_assoc, Nat.add_assoc]
  | ifThen operands body iho ihb =>
    intro pos blocks
    simp only [writeOpcodes, iho, ihb, tryBlocks, size, List.append_assoc, Nat.add_assoc]
  | ifElse operands body other iho ihb ihe =>
    intro pos blocks
    simp only [writeOpcodes, iho, ihb, ihe, tryBlocks, size, List.append_assoc, Nat.add_assoc]
  | tryCatch body catchVar handler ihb ihh =>
    intro pos blocks
    simp only [writeOpcodes, ihb, ihh, tryBlocks, size, tryBlock, List.append_assoc, Nat.add_assoc]
  | function body ih =>
    intro pos blocks
    simp only [writeOpcodes, ih, tryBlocks, size, List.append_nil, Prod.mk.injEq, and_true]
    omega

end Emission

/-! ## Looking for a block -/

/-- `cur_opcode_pos` lies in the block: the instruction before it is one of the body. -/
def TryBlock.Has (t : TryBlock) (pos : Nat) : Prop := t.startCodePos < pos ∧ pos < t.endCodePos

instance (t : TryBlock) (pos : Nat) : Decidable (t.Has pos) := by
  unfold TryBlock.Has
  infer_instance

/-- One step of the loop in `execute` that looks for a try block. -/
def findStep (pos : Nat) (found : Option TryBlock) (t : TryBlock) : Option TryBlock :=
  if t.Has pos then
    match found with
    | none => some t
    | some f => if f.startCodePos ≤ t.startCodePos ∧ t.endCodePos < f.endCodePos then some t else found
  else found

def findTryBlock (blocks : List TryBlock) (pos : Nat) : Option TryBlock := blocks.foldl (findStep pos) none

theorem foldl_findStep_none {pos : Nat} : ∀ {blocks : List TryBlock} {found : Option TryBlock},
    (∀ t ∈ blocks, ¬ t.Has pos) → blocks.foldl (findStep pos) found = found
  | [], _, _ => rfl
  | t :: blocks, found, h => by
    have hstep : findStep pos found t = found := if_neg (h t List.mem_cons_self)
    rw [List.foldl_cons, hstep]
    exact foldl_findStep_none fun q hq => h q (List.mem_cons_of_mem _ hq)

theorem foldl_findStep_mem {pos : Nat} {f : TryBlock} : ∀ {blocks : List TryBlock} {found : Option TryBlock},
    blocks.foldl (findStep pos) found = some f → found = some f ∨ f ∈ blocks
  | [], _, h => .inl h
  | t :: blocks, found, h => by
    rw [List.foldl_cons] at h
    rcases foldl_findStep_mem h with h | h
    · unfold findStep at h
      split at h
      · split at h
        · exact .inr (Option.some.inj h ▸ List.mem_cons_self)
        · split at h
          · exact .inr (Option.some.inj h ▸ List.mem_cons_self)
          · exact .inl h
      · exact .inl h
    · exact .inr (List.mem_cons_of_mem _ h)

namespace Emission

theorem tryBlocks_bounds : ∀ {c : Emission} {pos : Nat} {t : TryBlock}, t ∈ c.tryBlocks pos →
    pos ≤ t.startCodePos ∧ t.startCodePos < t.endCodePos ∧ t.endCodePos ≤ pos + c.size
  | empty, _, _, h => by cases h
  | opcode, _, _, h => by cases h
  | seq a b, pos, t, h => by
    rw [size]
    rcases List.mem_append.1 h with h | h
    · have := tryBlocks_bounds h
      omega
    · have := tryBlocks_bounds h
      omega
  | ifThen operands body, pos, t, h => by
    rw [size]
    rcases List.mem_append.1 h with h | h
    · have := tryBlocks_bounds h
      omega
    · have := tryBlocks_bounds h
      omega
  | ifElse operands body other, pos, t, h => by
    rw [size]
    rcases List.mem_append.1 h with h | h
    · rcases List.mem_append.1 h with h | h
      · have := tryBlocks_bounds h
        omega
      · have := tryBlocks_bounds h
        omega
    · have := tryBlocks_bounds h
      omega
  | tryCatch body catchVar handler, pos, t, h => by
    rw [size]
    rcases List.mem_append.1 h with h | h
    · rcases List.mem_append.1 h with h | h
      · have := tryBlocks_bounds h
        omega
      · have := tryBlocks_bounds h
        omega
    · rw [List.mem_singleton.1 h, tryBlock]
      dsimp only
      omega
  | function _, _, _, h => by cases h

/-- **Instruction `i` of code at `pos` is executed**, and the function goes on at `next`; `innermost` is the block of the
innermost `try` statement with the instruction in its body. -/
inductive Executes : Emission → (pos i next : Nat) → (innermost : Option TryBlock) → Prop where
  | opcode {pos} : Executes opcode pos pos (pos + 1) none
  | seqLeft {a b pos i next o} : Executes a pos i next o → Executes (seq a b) pos i next o
  | seqRight {a b pos i next o} : Executes b (pos + a.size) i next o → Executes (seq a b) pos i next o
  | ifOperands {c b pos i next o} : Executes c pos i next o → Executes (ifThen c b) pos i next o
  /-- The test itself, before its jump is looked at. -/
  | ifTest {c b pos} : Executes (ifThen c b) pos (pos + c.size) (pos + c.size + 1) none
  | ifTrue {c b pos} : Executes (ifThen c b) pos (pos + c.size) (pos + c.size + 2) none
  | ifFalse {c b pos} : Executes (ifThen c b) pos (pos + c.size) (pos + c.size + 2 + b.size) none
  | ifBody {c b pos i next o} : Executes b (pos + c.size + 2) i next o → Executes (ifThen c b) pos i next o
  | elseOperands {c b e pos i next o} : Executes c pos i next o → Executes (ifElse c b e) pos i next o
  | elseTest {c b e pos} : Executes (ifElse c b e) pos (pos + c.size) (pos + c.size + 1) none
  | elseTrue {c b e pos} : Executes (ifElse c b e) pos (pos + c.size) (pos + c.size + 2) none
  | elseFalse {c b e pos} : Executes (ifElse c b e) pos (pos + c.size) (pos + c.size + 2 + b.size + 1) none
  | elseBody {c b e pos i next o} : Executes b (pos + c.size + 2) i next o → Executes (ifElse c b e) pos i next o
  | elseOther {c b e pos i next o} : Executes e (pos + c.size + 2 + b.size + 1) i next o → Executes (ifElse c b e) pos i next o
  | tryBody {b v h pos i next o} : Executes b pos i next o →
      Executes (tryCatch b v h) pos i next (some (o.getD (b.tryBlock v pos)))
  | tryHandler {b v h pos i next o} : Executes h (pos + b.size + 1) i next o → Executes (tryCatch b v h) pos i next o
  /-- `OP_NEW_FUNCTION` jumps over the code of the function. -/
  | newFunction {b pos} : Executes (function b) pos pos (pos + b.size + 2) none

theorem Executes.bounds {c : Emission} {pos i next : Nat} {o : Option TryBlock} (h : Executes c pos i next o) :
    pos ≤ i ∧ i < pos + c.size ∧ pos < next ∧ next ≤ pos + c.size := by
  induction h <;> simp only [size] at * <;> omega

theorem foldl_elsewhere (c : Emission) {pos next : Nat} (found : Option TryBlock) (h : next ≤ pos ∨ pos + c.size ≤ next) :
    (c.tryBlocks pos).foldl (findStep next) found = found := by
  refine foldl_findStep_none fun t ht hhas => ?_
  have := tryBlocks_bounds ht
  unfold TryBlock.Has at hhas
  omega

/-- **The block that is found is that of the innermost statement.** -/
theorem Executes.find {c : Emission} {pos i next : Nat} {o : Option TryBlock} (h : Executes c pos i next o) :
    findTryBlock (c.tryBlocks pos) next = o := by
  unfold findTryBlock
  induction h with
  | opcode => rfl
  | newFunction => rfl
  | @seqLeft a b pos i next o h ih =>
    have hin := h.bounds
    rw [tryBlocks, List.foldl_append, ih, foldl_elsewhere b o (by omega)]
  | @seqRight a b pos i next o h ih =>
    have hin := h.bounds
    rw [tryBlocks, List.foldl_append, foldl_elsewhere a none (by omega), ih]
  | @ifOperands c b pos i next o h ih =>
    have hin := h.bounds
    rw [tryBlocks, List.foldl_append, ih, foldl_elsewhere b o (by omega)]
  | @ifTest c b pos | @ifTrue c b pos | @ifFalse c b pos =>
    rw [tryBlocks, List.foldl_append, foldl_elsewhere c none (by omega), foldl_elsewhere b none (by omega)]
  | @ifBody c b pos i next o h ih =>
    have hin := h.bounds
    rw [tryBlocks, List.foldl_append, foldl_elsewhere c none (by omega), ih]
  | @elseOperands c b e pos i next o h ih =>
    have hin := h.bounds
    rw [tryBlocks, List.foldl_append, List.foldl_append, ih, foldl_elsewhere b o (by omega), foldl_elsewhere e o (by omega)]
  | @elseTest c b e pos | @elseTrue c b e pos | @elseFalse c b e pos =>
    rw [tryBlocks, List.foldl_append, List.foldl_append, foldl_elsewhere c none (by omega), foldl_elsewhere b none (by omega),
      foldl_elsewhere e none (by omega)]
  | @elseBody c b e pos i next o h ih =>
    have hin := h.bounds
    rw [tryBlocks, List.foldl_append, List.foldl_append, foldl_elsewhere c none (by omega), ih, foldl_elsewhere e o (by omega)]
  | @elseOther c b e pos i next o h ih =>
    have hin := h.bounds
    rw [tryBlocks, List.foldl_append, List.foldl_append, foldl_elsewhere c none (by omega), foldl_elsewhere b none (by omega), ih]
  | @tryBody b v c pos i next o h ih =>
    have hin := h.bounds
    have hhas : (b.tryBlock v pos).Has next := by
      unfold TryBlock.Has tryBlock
      dsimp only
      omega
    rw [tryBlocks, List.foldl_append, List.foldl_append, ih, foldl_elsewhere c o (by omega), List.foldl_cons, List.foldl_nil]
    cases o with
    | none => exact if_pos hhas
    | some f =>
      -- the block of an inner statement ends before that of this one, so it stays
      have hmem := (foldl_findStep_mem ih).resolve_left (by rintro ⟨⟩)
      have hend := tryBlocks_bounds hmem
      refine (if_pos hhas).trans (if_neg fun hlater => ?_)
      have hlt : pos + b.size + 1 < f.endCodePos := hlater.2
      omega
  | @tryHandler b v c pos i next o h ih =>
    have hin := h.bounds
    have hhas : ¬ (b.tryBlock v pos).Has next := by
      unfold TryBlock.Has tryBlock
      dsimp only
      omega
    rw [tryBlocks, List.foldl_append, List.foldl_append, foldl_elsewhere b none (by omega), ih, List.foldl_cons, List.foldl_nil]
    exact if_neg hhas

/-- **The innermost block has the instruction, and lies in every other block that has it.** -/
theorem Executes.innermost {c : Emission} {pos i next : Nat} {o : Option TryBlock} (h : Executes c pos i next o) :
    (∀ t, o = some t → t ∈ c.tryBlocks pos ∧ t.startCodePos ≤ i ∧ i + 1 < t.endCodePos) ∧
      ∀ q ∈ c.tryBlocks pos, q.startCodePos ≤ i → i + 1 < q.endCodePos →
        ∃ t, o = some t ∧ q.startCodePos ≤ t.startCodePos ∧ t.endCodePos ≤ q.endCodePos := by
  induction h with
  | opcode => exact ⟨by rintro t ⟨⟩, by rintro q ⟨⟩⟩
  | newFunction => exact ⟨by rintro t ⟨⟩, by rintro q ⟨⟩⟩
  | seqLeft h ih | ifOperands h ih =>
    have hin := h.bounds
    refine ⟨fun t ht => ⟨List.mem_append_left _ (ih.1 t ht).1, (ih.1 t ht).2⟩, fun q hq h1 h2 => ?_⟩
    rcases List.mem_append.1 hq with hq | hq
    · exact ih.2 q hq h1 h2
    · have hq := tryBlocks_bounds hq
      omega
  | seqRight h ih | ifBody h ih =>
    have hin := h.bounds
    refine ⟨fun t ht => ⟨List.mem_append_right _ (ih.1 t ht).1, (ih.1 t ht).2⟩, fun q hq h1 h2 => ?_⟩
    rcases List.mem_append.1 hq with hq | hq
    · have hq := tryBlocks_bounds hq
      omega
    · exact ih.2 q hq h1 h2
  | ifTest | ifTrue | ifFalse =>
    refine ⟨by rintro t ⟨⟩, fun q hq h1 h2 => ?_⟩
    rcases List.mem_append.1 hq with hq | hq
    · have hq := tryBlocks_bounds hq
      omega
    · have hq := tryBlocks_bounds hq
      omega
  | elseOperands h ih =>
    have hin := h.bounds
    refine ⟨fun t ht => ⟨List.mem_append_left _ (List.mem_append_left _ (ih.1 t ht).1), (ih.1 t ht).2⟩, fun q hq h1 h2 => ?_⟩
    rcases List.mem_append.1 hq with hq | hq
    · rcases List.mem_append.1 hq with hq | hq
      · exact ih.2 q hq h1 h2
      · have hq := tryBlocks_bounds hq
        omega
    · have hq := tryBlocks_bounds hq
      omega
  | elseTest | elseTrue | elseFalse =>
    refine ⟨by rintro t ⟨⟩, fun q hq h1 h2 => ?_⟩
    rcases List.mem_append.1 hq with hq | hq
    · rcases List.mem_append.1 hq with hq | hq
      · have hq := tryBlocks_bounds hq
        omega
      · have hq := tryBlocks_bounds hq
        omega
    · have hq := tryBlocks_bounds hq
      omega
  | elseBody h ih =>
    have hin := h.bounds
    refine ⟨fun t ht => ⟨List.mem_append_left _ (List.mem_append_right _ (ih.1 t ht).1), (ih.1 t ht).2⟩, fun q hq h1 h2 => ?_⟩
    rcases List.mem_append.1 hq with hq | hq
    · rcases List.mem_append.1 hq with hq | hq
      · have hq := tryBlocks_bounds hq
        omega
      · exact ih.2 q hq h1 h2
    · have hq := tryBlocks_bounds hq
      omega
  | elseOther h ih =>
    have hin := h.bounds
    refine ⟨fun t ht => ⟨List.mem_append_right _ (ih.1 t ht).1, (ih.1 t ht).2⟩, fun q hq h1 h2 => ?_⟩
    rcases List.mem_append.1 hq with hq | hq
    · rcases List.mem_append.1 hq with hq | hq
      · have hq := tryBlocks_bounds hq
        omega
      · have hq := tryBlocks_bounds hq
        omega
    · exact ih.2 q hq h1 h2
  | @tryBody b v c pos i next o h ih =>
    have hin := h.bounds
    refine ⟨fun t ht => ?_, fun q hq h1 h2 => ?_⟩
    · obtain rfl := Option.some.inj ht
      cases o with
      | none =>
        refine ⟨List.mem_append_right _ (List.mem_singleton_self _), hin.1, ?_⟩
        show i + 1 < pos + b.size + 1
        omega
      | some f =>
        obtain ⟨hmem, hf⟩ := ih.1 f rfl
        exact ⟨List.mem_append_left _ (List.mem_append_left _ hmem), hf⟩
    · rcases List.mem_append.1 hq with hq | hq
      · rcases List.mem_append.1 hq with hq | hq
        · obtain ⟨t, rfl, ht⟩ := ih.2 q hq h1 h2
          exact ⟨t, rfl, ht⟩
        · have hq := tryBlocks_bounds hq
          omega
      · obtain rfl := List.mem_singleton.1 hq
        cases o with
        | none => exact ⟨_, rfl, Nat.le_refl _, Nat.le_refl _⟩
        | some f =>
          have hf := tryBlocks_bounds (ih.1 f rfl).1
          have hend : (b.tryBlock v pos).endCodePos = pos + b.size + 1 := rfl
          have hstart : (b.tryBlock v pos).startCodePos = pos := rfl
          exact ⟨f, rfl, by omega, by omega⟩
  | @tryHandler b v c pos i next o h ih =>
    have hin := h.bounds
    refine ⟨fun t ht => ⟨List.mem_append_left _ (List.mem_append_right _ (ih.1 t ht).1), (ih.1 t ht).2⟩, fun q hq h1 h2 => ?_⟩
    rcases List.mem_append.1 hq with hq | hq
    · rcases List.mem_append.1 hq with hq | hq
      · have hq := tryBlocks_bounds hq
        omega
      · exact ih.2 q hq h1 h2
    · obtain rfl := List.mem_singleton.1 hq
      have hend : (b.tryBlock v pos).endCodePos = pos + b.size + 1 := rfl
      omega

end Emission

end Compiler
end ObjectScript
