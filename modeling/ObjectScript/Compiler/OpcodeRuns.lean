import ObjectScript.Compiler.WriteOpcodes
import ObjectScript.Lib.FlatCode
/-!
# What instructions do

The virtual machine takes the words of a program apart and does what they say.  A comparison either writes its answer to
its register, or it stands in front of a jump, which it passes over when the answer is yes.  Instructions that take a
register as an operand do not look at the flag that says it is a constant.

The machine keeps pointers into buffers that a method may make it replace: the operands of an instruction are in
`stack_values`, and the function whose opcodes a condition moves is in `call_stack_funcs`.  Where such a pointer is used
after the buffer was freed, the machine has no next step; on a machine that is `InPlace` this never happens.
-/
namespace ObjectScript
namespace Compiler
namespace NewVM

open Registers Instruction FlatCode

/-! ## Words -/

def encode : Operands → Nat
  | .abc op a b c => writeOpcodeABC op a b c
  | .abx op a b => writeOpcodeABx op a b
  | .jump offs => setJump OpcodeType.jump.value offs

def opcodeTypes : List OpcodeType :=
  [.newFunction, .newArray, .newObject, .ret, .jump, .multi, .move, .move2, .getXConst, .superCall, .call, .callMethod,
    .initIter, .getProperty, .setProperty, .initProperty, .getUpvalue, .setUpvalue, .logicPtrEq, .logicEq, .logicGreater,
    .logicGe, .logicBool, .bitAnd, .bitOr, .bitXor, .compare, .add, .sub, .mul, .div, .mod, .lshift, .rshift, .pow, .bitNot,
    .plus, .minus, .numberLogicEq, .numberLogicGreater, .numberLogicGe, .numberBitAnd, .numberBitOr, .numberBitXor,
    .numberAdd, .numberSub, .numberMul, .numberDiv, .numberMod, .numberLshift, .numberRshift, .numberPow, .numberAddLC,
    .numberSubLC, .numberAddLL, .numberSubLL]

theorem opcodeTypes_value (op : OpcodeType) : opcodeTypes[op.value]? = some op := by
  cases op <;> rfl

def decode (i : Nat) : Option Operands := do
  match ← opcodeTypes[getOpcodeType i]? with
  | .jump => return .jump (getSBx i)
  | .getXConst => return .abx .getXConst (getA i) (getBx i)
  | op => return .abc op (getA i) (signedOperand (constB i) (getB i)) (signedOperand (constC i) (getC i))

theorem signedOperand_constOperand {b : Int} {flag : Bool} {n : Nat} (h : (flag, (n : Int)) = constOperand b) :
    signedOperand flag n = b := by
  unfold constOperand at h
  unfold signedOperand
  by_cases hb : b < 0
  · rw [if_pos hb] at h
    obtain ⟨rfl, hn⟩ := Prod.mk.inj h
    rw [if_pos rfl, hn]
    omega
  · rw [if_neg hb] at h
    obtain ⟨rfl, hn⟩ := Prod.mk.inj h
    rw [if_neg Bool.false_ne_true, hn]

def Formed : Operands → Prop
  | .abc op _ _ _ => op ≠ .jump ∧ op ≠ .getXConst
  | .abx op _ _ => op = .getXConst
  | .jump _ => True

/-- The operands that are registers or numbers are no constants. -/
def Plain : Operands → Prop
  | .abc .getUpvalue _ b c | .abc .setUpvalue _ b c | .abc .call _ b c | .abc .superCall _ b c | .abc .callMethod _ b c =>
    0 ≤ b ∧ 0 ≤ c
  | .abc .getProperty _ b _ => 0 ≤ b
  | _ => True

theorem decode_of_decodes {i : Nat} {x : Operands} (h : x.Decodes i) (hf : Formed x) : decode i = some x := by
  cases x with
  | abc op a b c =>
    obtain ⟨hop, ha, hb, hc⟩ := h
    have hnot : op ≠ .jump ∧ op ≠ .getXConst := hf
    unfold decode
    rw [hop, opcodeTypes_value, ha, signedOperand_constOperand hb, signedOperand_constOperand hc]
    cases op <;> first | rfl | exact absurd rfl hnot.1 | exact absurd rfl hnot.2
  | abx op a b =>
    obtain rfl : op = .getXConst := hf
    obtain ⟨hop, ha, hb⟩ := h
    unfold decode
    rw [hop, opcodeTypes_value, ha, hb]
    rfl
  | jump offs =>
    obtain ⟨hop, hoffs⟩ := h
    unfold decode
    rw [hop, opcodeTypes_value, hoffs]
    rfl

theorem encode_decodes {x : Operands} (hx : x.Fits) : x.Decodes (encode x) := by
  cases x with
  | abc op a b c => exact (writeOpcodeABC_decodes op a b c).2 hx
  | abx op a b => exact (writeOpcodeABx_decodes op a b).2 hx
  | jump offs => exact (setJump_decodes rfl offs).2 hx

/-- **A word that an instruction fits in says the instruction.** -/
theorem decode_encode {x : Operands} (hx : x.Fits) (hf : Formed x) : decode (encode x) = some x :=
  decode_of_decodes (encode_decodes hx) hf

/-! ## Steps -/

variable {V W τ : Type}

section

variable (f : Function) (M : Machine V W τ)

/-- An operand that is a register, whatever its flag says. -/
def register (σ : State (Frame V W) V) (b : Int) : V := slotValue f M σ (operandIndex b)

/-- A comparison: its answer goes to the register `a`, or decides whether the jump behind it is passed over, in the
`stack_func` from before the comparison. -/
def compareStep (fetch : Nat → Option Operands) (pc : Nat) (x : Comp (Frame V W) τ (Option Bool)) (a b c : Int)
    (σ : State (Frame V W) V) : Option (Except τ (Nat × State (Frame V W) V)) :=
  match x σ.frame with
  | .error t =>
    if operandIndex c ≠ 0 ∧ M.stoppedFuncs t ≠ M.callStackFuncs σ.frame.world then none else some (.error t)
  | .ok (r, fr) =>
    let res := match r with
      | some r => r.toNat ^^^ (operandIndex b).toNat != 0
      | none => false
    if operandIndex c = 0 then some (.ok (pc + 1, setSlot f a (M.ofBool res) ⟨fr, σ.temps⟩))
    else if M.callStackFuncs fr.world ≠ M.callStackFuncs σ.frame.world then none
    else if res then some (.ok (pc + 2, ⟨fr, σ.temps⟩))
    else match fetch (pc + 1) with
      | some (.jump offs) => some (.ok ((pc + 2 + offs).toNat, ⟨fr, σ.temps⟩))
      | _ => none

/-- What an instruction does that goes on to the next one. -/
def opcodeRun (op : OpcodeType) (a b c : Int) : Option (Run (Frame V W) V τ) :=
  let value := fun (σ : State (Frame V W) V) b => slotValue f M σ b
  let unary := fun op => some fun σ => store f a (M.unary op (value σ b)) σ
  let binary := fun op => some fun σ => store f a (M.binary op (value σ b) (value σ c)) σ
  let call := fun kind => some fun σ => Run.keep (M.call kind
    ((List.range (operandIndex b).toNat).map fun i : Nat => slotValue f M σ (a + i)) (operandIndex c).toNat)
    (place a.toNat) σ
  match op with
  | .move => some fun σ => .ok (setSlot f a (value σ b) σ)
  | .move2 => some fun σ =>
    let σ := setSlot f a (value σ b) σ
    .ok (setSlot f (a + 1) (value σ c) σ)
  | .bitNot => unary .bitNot
  | .plus => unary .plus
  | .minus => unary .minus
  | .bitAnd => binary .bitAnd
  | .bitOr => binary .bitOr
  | .bitXor => binary .bitXor
  | .compare => binary .compare
  | .add => binary .add
  | .sub => binary .sub
  | .mul => binary .mul
  | .div => binary .div
  | .mod => binary .mod
  | .lshift => binary .lshift
  | .rshift => binary .rshift
  | .pow => binary .pow
  | .call => call .call
  | .superCall => call .superCall
  | .callMethod => call .callMethod
  | .getUpvalue => some fun σ =>
    .ok (setSlot f a (M.getUpvalue (operandIndex b).toNat (operandIndex c).toNat σ.frame) σ)
  | .setUpvalue => some fun σ =>
    .ok ⟨M.setUpvalue a.toNat (operandIndex c).toNat (register f M σ b) σ.frame, σ.temps⟩
  | .getProperty => some fun σ => store f a (M.getProperty (register f M σ b) (value σ c)) σ
  | .setProperty => some fun σ => Run.keep (M.setProperty (slotValue f M σ a) (value σ b) (value σ c)) (fun _ T => T) σ
  | _ => none

/-- The operands that an instruction passes by reference to what may call a method are read in time. -/
def readsOperands (op : OpcodeType) (a b c : Int) (σ : State (Frame V W) V) : Bool :=
  let value := fun b => slotValue f M σ b
  match op with
  | .logicEq | .logicGreater | .logicGe => M.reads [value a, value (a + 1)] σ.frame
  | .bitAnd | .bitOr | .bitXor | .compare | .add | .sub | .mul | .div | .mod | .lshift | .rshift | .pow =>
    M.reads [value b, value c] σ.frame
  | .getProperty => M.reads [register f M σ b, value c] σ.frame
  | .setProperty => M.reads [value a, value b, value c] σ.frame
  | _ => true

def step (fetch : Nat → Option Operands) (pc : Nat) (σ : State (Frame V W) V) :
    Option (Except τ (Nat × State (Frame V W) V)) := do
  match ← fetch pc with
  | .jump offs => return .ok ((pc + 1 + offs).toNat, σ)
  | .abx _ a b => return arrive (pc + 1) (.ok (setSlot f a (M.constant b.toNat) σ))
  | .abc op a b c =>
    if readsOperands f M op a b c σ then
      match op with
      | .logicBool => compareStep f M fetch pc (Pure.pure (some (M.toBool (slotValue f M σ a)))) a b c σ
      | .logicPtrEq => compareStep f M fetch pc (M.compare .ptrEq (slotValue f M σ a) (slotValue f M σ (a + 1))) a b c σ
      | .logicEq => compareStep f M fetch pc (M.compare .eq (slotValue f M σ a) (slotValue f M σ (a + 1))) a b c σ
      | .logicGreater => compareStep f M fetch pc (M.compare .greater (slotValue f M σ a) (slotValue f M σ (a + 1))) a b c σ
      | .logicGe => compareStep f M fetch pc (M.compare .ge (slotValue f M σ a) (slotValue f M σ (a + 1))) a b c σ
      | op => (opcodeRun f M op a b c).map fun m => arrive (pc + 1) (m σ)
    else none

/-- **The virtual machine** over the words of a program. -/
def execute : Step Nat (State (Frame V W) V) τ := fun code => step f M fun pc => code[pc]?.bind decode

end

/-! ## Instructions of nodes -/

/-- No method that an instruction calls makes a buffer move that the instruction still points into. -/
class Machine.InPlace (M : Machine V W τ) : Prop where
  reads : ∀ vs f, M.reads vs f = true
  compare : ∀ op l r f b g, M.compare op l r f = .ok (b, g) → M.callStackFuncs g.world = M.callStackFuncs f.world
  stopped : ∀ op l r f t, M.compare op l r f = .error t → M.stoppedFuncs t = M.callStackFuncs f.world

variable {f : Function} {M : Machine V W τ}

theorem readsOperands_true [M.InPlace] (op : OpcodeType) (a b c : Int) (σ : State (Frame V W) V) :
    readsOperands f M op a b c σ = true := by
  cases op <;> first | rfl | exact Machine.InPlace.reads _ _

/-- A computation that leaves `call_stack_funcs` where it was. -/
def Stays (M : Machine V W τ) {α : Type} (x : Comp (Frame V W) τ α) (f : Frame V W) : Prop :=
  (∀ a g, x f = .ok (a, g) → M.callStackFuncs g.world = M.callStackFuncs f.world) ∧
    ∀ t, x f = .error t → M.stoppedFuncs t = M.callStackFuncs f.world

theorem stays_pure {α : Type} (a : α) (f : Frame V W) : Stays M (Pure.pure a) f :=
  ⟨fun _ _ h => by cases h; rfl, fun _ h => by cases h⟩

/-- Every operand fits its field, and those that are no constants are none. -/
def Valid (x : Operands) : Prop := x.Fits ∧ Plain x

theorem fetch_encode {x : Operands} (hx : x.Fits) (hf : Formed x) (pre post : List Nat) :
    (pre ++ encode x :: post)[pre.length]?.bind decode = some x := by
  rw [List.getElem?_append_right (Nat.le_refl _), Nat.sub_self]
  exact decode_encode hx hf

/-- The answer of a comparison, and the state behind it. -/
def answerRun (x : Comp (Frame V W) τ Bool) (σ : State (Frame V W) V) : Except τ (Bool × State (Frame V W) V) :=
  (x σ.frame).map fun r => (r.1, ⟨r.2, σ.temps⟩)

theorem compareAnswer_eq (r : Option Bool) (inv : Bool) :
    (match r with | some r => r.toNat ^^^ (operandIndex inv.toNat).toNat != 0 | none => false) = compareAnswer r inv := by
  cases r with
  | none => rfl
  | some r => cases r <;> cases inv <;> rfl

theorem compareStep_write (fetch : Nat → Option Operands) (pc : Nat) (x : Comp (Frame V W) τ (Option Bool)) (a : Int)
    (inv : Bool) (σ : State (Frame V W) V) :
    compareStep f M fetch pc x a inv.toNat 0 σ =
      some (arrive (pc + 1) (store f a (M.ofBool <$> (do let r ← x; return compareAnswer r inv)) σ)) := by
  unfold compareStep store
  cases hx : x σ.frame with
  | error t =>
    rw [Comp.map_of_error (Comp.bind_of_error hx)]
    rfl
  | ok r =>
    rw [Comp.map_of_ok (Comp.bind_of_ok hx)]
    simp only [compareAnswer_eq]
    rfl

theorem compareStep_jump {fetch : Nat → Option Operands} {pc skip : Nat} (hfetch : fetch (pc + 1) = some (.jump skip))
    (x : Comp (Frame V W) τ (Option Bool)) (a : Int) (inv : Bool) (σ : State (Frame V W) V) (hstays : Stays M x σ.frame) :
    compareStep f M fetch pc x a inv.toNat 1 σ =
      some (Implements.decide pc skip (answerRun (do let r ← x; return compareAnswer r inv) σ)) := by
  unfold compareStep answerRun
  cases hx : x σ.frame with
  | error t =>
    rw [Comp.bind_of_error hx]
    simp only [hstays.2 t hx, ne_eq, not_true, and_false, if_false]
    rfl
  | ok r =>
    rw [Comp.bind_of_ok hx]
    simp only [compareAnswer_eq, hfetch, hstays.1 r.1 r.2 hx, ne_eq, not_true, if_false]
    have h1 : ¬ operandIndex 1 = 0 := by decide
    rw [if_neg h1]
    cases compareAnswer r.1 inv <;> rfl

theorem formed_instructions {type : NodeType} {a b c : Int} : ∀ x ∈ instructions type a b c, Formed x := by
  intro x hx
  cases type with
  | unary op => cases op <;> (obtain rfl := List.mem_singleton.1 hx; exact ⟨by decide, by decide⟩)
  | binary op => cases op <;> (obtain rfl := List.mem_singleton.1 hx; exact ⟨by decide, by decide⟩)
  | logic op => cases op <;> (obtain rfl := List.mem_singleton.1 hx; exact ⟨by decide, by decide⟩)
  | call kind => cases kind <;> (obtain rfl := List.mem_singleton.1 hx; exact ⟨by decide, by decide⟩)
  | nop | codeList | params | popValue | logicAnd | logicOr | question => cases hx
  | getXConst =>
    obtain rfl := List.mem_singleton.1 hx
    rfl
  | _ =>
    obtain rfl := List.mem_singleton.1 hx
    exact ⟨by decide, by decide⟩

theorem operandIndex_of_nonneg {b : Int} (h : 0 ≤ b) : operandIndex b = b := by
  unfold operandIndex constOperand
  rw [if_neg (by omega)]

theorem implements_single {x : Operands} {m : Run (Frame V W) V τ} (hx : x.Fits) (hf : Formed x)
    (h : ∀ (fetch : Nat → Option Operands) (pc : Nat) (σ : State (Frame V W) V), fetch pc = some x →
      step f M fetch pc σ = some (arrive (pc + 1) (m σ))) : Implements (execute f M) [encode x] m :=
  .single fun pre post σ => h _ pre.length σ (fetch_encode hx hf pre post)

theorem step_opcodeRun {op : OpcodeType} {a b c : Int} {m : Run (Frame V W) V τ} (hm : opcodeRun f M op a b c = some m)
    (fetch : Nat → Option Operands) (pc : Nat) (σ : State (Frame V W) V) (hread : readsOperands f M op a b c σ = true)
    (hfetch : fetch pc = some (.abc op a b c)) : step f M fetch pc σ = some (arrive (pc + 1) (m σ)) := by
  unfold step
  rw [hfetch]
  simp only [Option.bind_eq_bind, Option.bind_some, hread, if_true]
  cases op <;> first
    | (cases hm; done)
    | (simp only [hm]; rfl)

theorem implements_opcodeRun {op : OpcodeType} {a b c : Int} {m : Run (Frame V W) V τ} (hx : (Operands.abc op a b c).Fits)
    (hf : Formed (.abc op a b c)) (hread : ∀ σ, readsOperands f M op a b c σ = true) (hm : opcodeRun f M op a b c = some m) :
    Implements (execute f M) [encode (.abc op a b c)] m :=
  implements_single hx hf fun fetch pc σ h => step_opcodeRun hm fetch pc σ (hread σ) h

theorem step_compare [M.InPlace] {op : LogicType} {a c : Int} {inv : Int} (fetch : Nat → Option Operands) (pc : Nat)
    (σ : State (Frame V W) V) (hfetch : fetch pc = some (.abc op.opcode a inv c)) :
    step f M fetch pc σ =
      compareStep f M fetch pc (M.compare op.compare.1 (slotValue f M σ a) (slotValue f M σ (a + 1))) a inv c σ := by
  unfold step
  rw [hfetch]
  simp only [Option.bind_eq_bind, Option.bind_some, readsOperands_true, if_true]
  cases op <;> rfl

theorem step_logicBool {a b c : Int} (fetch : Nat → Option Operands) (pc : Nat) (σ : State (Frame V W) V)
    (hfetch : fetch pc = some (.abc .logicBool a b c)) :
    step f M fetch pc σ = compareStep f M fetch pc (Pure.pure (some (M.toBool (slotValue f M σ a)))) a b c σ := by
  unfold step
  rw [hfetch]
  rfl

theorem step_jump {skip : Nat} (fetch : Nat → Option Operands) (pc : Nat) (σ : State (Frame V W) V)
    (hfetch : fetch pc = some (.jump skip)) : step f M fetch pc σ = some (.ok (pc + 1 + skip, σ)) := by
  unfold step
  rw [hfetch]
  rfl

theorem pure_compareAnswer (b inv : Bool) :
    (do let r ← (Pure.pure (some b) : Comp (Frame V W) τ (Option Bool)); return compareAnswer r inv) = Pure.pure (b ^^ inv) := rfl

theorem inverse_eq (op : LogicType) : op.compare.2 = op.inverse := by
  cases op <;> rfl

/-- The instructions of a node do what the node does behind its list. -/
theorem implements_instructions [M.InPlace] {type : NodeType} {a b c : Int} (h : ∀ x ∈ instructions type a b c, Valid x) :
    Implements (execute f M) ((instructions type a b c).map encode) (act f M type a b c) := by
  have hf : ∀ x ∈ instructions type a b c, Formed x := formed_instructions
  cases type with
  | nop | codeList | params | popValue | logicAnd | logicOr | question => exact .nil
  | move =>
    exact implements_opcodeRun (h _ (List.mem_singleton.2 rfl)).1 (hf _ (List.mem_singleton.2 rfl)) (readsOperands_true _ _ _ _) rfl
  | getXConst =>
    refine implements_single (h _ (List.mem_singleton.2 rfl)).1 (hf _ (List.mem_singleton.2 rfl)) fun fetch pc σ hfetch => ?_
    unfold step
    rw [hfetch]
    have hb : b < 0 := by
      have := (h _ (List.mem_singleton.2 rfl)).1.2.1
      omega
    show _ = some (arrive (pc + 1) (.ok (setSlot f a (slotValue f M σ b) σ)))
    rw [slotValue, if_pos hb]
    rfl
  | getUpvalue =>
    obtain ⟨hfits, hb, hc⟩ := h _ (List.mem_singleton.2 rfl)
    refine (implements_opcodeRun hfits (hf _ (List.mem_singleton.2 rfl)) (readsOperands_true _ _ _ _) rfl).congr ?_
    funext σ
    rw [operandIndex_of_nonneg hb, operandIndex_of_nonneg hc]
    rfl
  | setUpvalue | setUpvalueNoPop =>
    obtain ⟨hfits, hb, hc⟩ := h _ (List.mem_singleton.2 rfl)
    refine (implements_opcodeRun hfits (hf _ (List.mem_singleton.2 rfl)) (readsOperands_true _ _ _ _) rfl).congr ?_
    funext σ
    rw [register, operandIndex_of_nonneg hb, operandIndex_of_nonneg hc]
    rfl
  | getProperty =>
    obtain ⟨hfits, hb⟩ := h _ (List.mem_singleton.2 rfl)
    refine (implements_opcodeRun hfits (hf _ (List.mem_singleton.2 rfl)) (readsOperands_true _ _ _ _) rfl).congr ?_
    funext σ
    rw [register, operandIndex_of_nonneg hb]
    rfl
  | setProperty | setPropertyNoPop =>
    exact implements_opcodeRun (h _ (List.mem_singleton.2 rfl)).1 (hf _ (List.mem_singleton.2 rfl)) (readsOperands_true _ _ _ _) rfl
  | unary op =>
    cases op <;> exact implements_opcodeRun (h _ (List.mem_singleton.2 rfl)).1 (hf _ (List.mem_singleton.2 rfl)) (readsOperands_true _ _ _ _) rfl
  | binary op =>
    cases op <;> exact implements_opcodeRun (h _ (List.mem_singleton.2 rfl)).1 (hf _ (List.mem_singleton.2 rfl)) (readsOperands_true _ _ _ _) rfl
  | logicNot =>
    refine implements_single (h _ (List.mem_singleton.2 rfl)).1 (hf _ (List.mem_singleton.2 rfl)) fun fetch pc σ hfetch => ?_
    rw [step_logicBool fetch pc σ hfetch]
    refine (compareStep_write fetch pc _ a true σ).trans ?_
    rw [pure_compareAnswer, Bool.xor_true]
    rfl
  | logicBool =>
    refine implements_single (h _ (List.mem_singleton.2 rfl)).1 (hf _ (List.mem_singleton.2 rfl)) fun fetch pc σ hfetch => ?_
    rw [step_logicBool fetch pc σ hfetch]
    refine (compareStep_write fetch pc _ a false σ).trans ?_
    rw [pure_compareAnswer, Bool.xor_false]
    rfl
  | logic op =>
    refine implements_single (h _ (List.mem_singleton.2 rfl)).1 (hf _ (List.mem_singleton.2 rfl)) fun fetch pc σ hfetch => ?_
    rw [step_compare fetch pc σ hfetch]
    refine (compareStep_write fetch pc _ a op.inverse σ).trans ?_
    rw [← inverse_eq]
    rfl
  | call kind =>
    obtain ⟨hfits, hplain⟩ := h _ (List.mem_singleton.2 rfl)
    have hbc : 0 ≤ b ∧ 0 ≤ c := by cases kind <;> exact hplain
    refine (implements_opcodeRun (m := act f M (.call kind) a b c) hfits (hf _ (List.mem_singleton.2 rfl)) (readsOperands_true _ _ _ _) ?_)
    have hrun : act f M (.call kind) a b c = fun σ => Run.keep (M.call kind
      ((List.range (operandIndex b).toNat).map fun i : Nat => slotValue f M σ (a + i)) (operandIndex c).toNat)
      (place a.toNat) σ := by
      rw [operandIndex_of_nonneg hbc.1, operandIndex_of_nonneg hbc.2]
      rfl
    rw [hrun]
    cases kind <;> rfl

/-! ## Tests -/

end NewVM
end Compiler
end ObjectScript
