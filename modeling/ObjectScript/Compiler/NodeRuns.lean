import ObjectScript.Compiler.PostCompile
/-!
# What nodes do

The registers of a running function are its locals, which the program can see, and its temporaries.  A node does what its
list does and then its own instruction.  What the values are and what the operators do is a parameter: they may run any
program, so they work on the locals as well as on the world.  A run that stops shows its exception and the world but not
the locals: an operator that throws has written to its register all the same.
-/
namespace ObjectScript
namespace Compiler
namespace NewVM

open Registers

variable {V W τ : Type}

/-- The locals of a running function, and everything else a program can see. -/
structure Frame (V W : Type) where
  locals : Nat → V
  world : W

def update (T : Nat → V) (i : Nat) (v : V) : Nat → V := fun j => if j = i then v else T j

@[simp] theorem update_same (T : Nat → V) (i : Nat) (v : V) : update T i v i = v := if_pos rfl

theorem update_ne (T : Nat → V) {i j : Nat} (v : V) (h : j ≠ i) : update T i v j = T j := if_neg h

theorem update_update (T : Nat → V) (i : Nat) (v w : V) : update (update T i v) i w = update T i w := by
  funext j
  rcases eq_or_ne j i with rfl | hj
  · rw [update_same, update_same]
  · rw [update_ne _ _ hj, update_ne _ _ hj, update_ne _ _ hj]

def Frame.setLocal (f : Frame V W) (i : Nat) (v : V) : Frame V W := { f with locals := update f.locals i v }

inductive CompareType where
  | ptrEq | eq | greater | ge
deriving DecidableEq, Repr

/-- The comparison that is done, and whether its answer is turned round. -/
def LogicType.compare : LogicType → CompareType × Bool
  | .ptrEq => (.ptrEq, false)
  | .ptrNe => (.ptrEq, true)
  | .eq => (.eq, false)
  | .ne => (.eq, true)
  | .ge => (.ge, false)
  | .less => (.ge, true)
  | .greater => (.greater, false)
  | .le => (.greater, true)

/-- The values and what the instructions do with them.  A comparison may have no answer.  A call gives its values and what it
leaves in the registers behind them. -/
structure Machine (V W τ : Type) where
  constant : Nat → V
  toBool : V → Bool
  ofBool : Bool → V
  toBool_ofBool : ∀ b, toBool (ofBool b) = b
  unary : UnaryType → V → Comp (Frame V W) τ V
  binary : BinaryType → V → V → Comp (Frame V W) τ V
  compare : CompareType → V → V → Comp (Frame V W) τ (Option Bool)
  getUpvalue : (index upCount : Nat) → Frame V W → V
  setUpvalue : (index upCount : Nat) → V → Frame V W → Frame V W
  getProperty : (obj index : V) → Comp (Frame V W) τ V
  setProperty : (obj index value : V) → Comp (Frame V W) τ Unit
  call : CallType → List V → (ret : Nat) → Comp (Frame V W) τ (List V × (Nat → V))
  call_length : ∀ kind vs ret f r g, call kind vs ret f = .ok (r, g) → r.1.length = ret
  /-- Where the buffer of `call_stack_funcs` is. -/
  callStackFuncs : W → Nat
  /-- Where it is when a run stops. -/
  stoppedFuncs : τ → Nat
  /-- The operands that an instruction passes by reference are read before a push replaces the buffer of `stack_values`. -/
  reads : List V → Frame V W → Bool

/-- What is made of the answer of a comparison: when there is none it is no, turned round or not. -/
def compareAnswer (r : Option Bool) (inverse : Bool) : Bool := r.any fun b => b ^^ inverse

namespace Machine

variable (M : Machine V W τ)

def logic (op : LogicType) (l r : V) : Comp (Frame V W) τ Bool := do
  let b ← M.compare op.compare.1 l r
  return compareAnswer b op.compare.2

end Machine

/-- The values of a call from the register `a` on, and behind them what the call left there. -/
def place (a : Nat) (r : List V × (Nat → V)) (T : Nat → V) : Nat → V := fun i =>
  if i < a then T i else r.1.getD (i - a) (r.2 i)

section

variable (f : Function) (M : Machine V W τ)

def slotValue (σ : State (Frame V W) V) (b : Int) : V :=
  if b < 0 then M.constant (-1 - b).toNat
  else if b < f.numLocals then σ.frame.locals b.toNat else σ.temps b.toNat

def setSlot (a : Int) (v : V) (σ : State (Frame V W) V) : State (Frame V W) V :=
  if a < f.numLocals then ⟨σ.frame.setLocal a.toNat v, σ.temps⟩ else ⟨σ.frame, update σ.temps a.toNat v⟩

def store (a : Int) (x : Comp (Frame V W) τ V) : Run (Frame V W) V τ := fun σ =>
  match x σ.frame with
  | .error t => .error t
  | .ok (v, fr) => .ok (setSlot f a v ⟨fr, σ.temps⟩)

/-- What an instruction writes to its register `a`. -/
def result (type : NodeType) (b c : Int) (σ : State (Frame V W) V) : Comp (Frame V W) τ V :=
  match type with
  | .unary op => M.unary op (slotValue f M σ b)
  | .binary op => M.binary op (slotValue f M σ b) (slotValue f M σ c)
  | .getUpvalue => .read (M.getUpvalue b.toNat c.toNat)
  | .getProperty => M.getProperty (slotValue f M σ b) (slotValue f M σ c)
  | _ => Pure.pure (slotValue f M σ b)

/-- The comparison of the registers `a` and `a + 1`. -/
def compareSlots (op : LogicType) (a : Int) (σ : State (Frame V W) V) : Comp (Frame V W) τ Bool :=
  M.logic op (slotValue f M σ a) (slotValue f M σ (a + 1))

def act (type : NodeType) (a b c : Int) : Run (Frame V W) V τ := fun σ =>
  match type with
  | .nop | .codeList | .params | .popValue | .logicAnd | .logicOr | .question => .ok σ
  | .logicNot => .ok (setSlot f a (M.ofBool !M.toBool (slotValue f M σ a)) σ)
  | .logicBool => .ok (setSlot f a (M.ofBool (M.toBool (slotValue f M σ a))) σ)
  | .logic op => store f a (M.ofBool <$> compareSlots f M op a σ) σ
  | .setUpvalue | .setUpvalueNoPop => .ok ⟨M.setUpvalue a.toNat c.toNat (slotValue f M σ b) σ.frame, σ.temps⟩
  | .setProperty | .setPropertyNoPop =>
    Run.keep (M.setProperty (slotValue f M σ a) (slotValue f M σ b) (slotValue f M σ c)) (fun _ T => T) σ
  | .call kind =>
    Run.keep (M.call kind ((List.range b.toNat).map fun i : Nat => slotValue f M σ (a + i)) c.toNat) (place a.toNat) σ
  | type => store f a (result f M type b c σ) σ

/-- The conditions that are tested without being written to a register. -/
def NodeType.isTest : NodeType → Bool
  | .logic _ | .logicNot | .logicBool => true
  | _ => false

def testSlots (n : Node) : State (Frame V W) V → Comp (Frame V W) τ Bool := fun σ =>
  match n.type with
  | .logic op => compareSlots f M op n.a σ
  | .logicNot => Pure.pure !M.toBool (slotValue f M σ n.a)
  | _ => Pure.pure (M.toBool (slotValue f M σ n.a))

def branchOn (test : State (Frame V W) V → Comp (Frame V W) τ Bool) (m k : Run (Frame V W) V τ) : Run (Frame V W) V τ :=
  fun σ => match test σ σ.frame with
    | .error t => .error t
    | .ok (b, fr) => bif b then m ⟨fr, σ.temps⟩ else k ⟨fr, σ.temps⟩

theorem Node.sizeOf_list_lt (n : Node) : sizeOf n.list < sizeOf n := by
  cases n
  simp only [Node.mk.sizeOf_spec]
  omega

mutual

def exec : Node → Run (Frame V W) V τ
  | ⟨.logicAnd, a, _, _, [l, r]⟩ => (exec l).seq (Run.branch (fun σ => M.toBool (slotValue f M σ a)) (exec r) Run.done)
  | ⟨.logicOr, a, _, _, [l, r]⟩ => (exec l).seq (Run.branch (fun σ => M.toBool (slotValue f M σ a)) Run.done (exec r))
  | ⟨.question, _, _, _, [c, l, r]⟩ =>
    (if c.type.isTest then execList c.list else exec c).seq (branchOn (testSlots f M c) (exec l) (exec r))
  | ⟨type, a, b, c, list⟩ => (execList list).seq (act f M type a b c)
termination_by n => sizeOf n
decreasing_by
  all_goals simp
  all_goals try have := Node.sizeOf_list_lt c
  all_goals omega

def execList : List Node → Run (Frame V W) V τ
  | [] => Run.done
  | n :: ns => (exec n).seq (execList ns)
termination_by ns => sizeOf ns

end

section

attribute [local simp] exec execList

@[simp] theorem execList_nil : execList f M [] = Run.done := by simp

end

end

end NewVM
end Compiler
end ObjectScript
