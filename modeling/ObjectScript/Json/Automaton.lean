import ObjectScript.Json.Parser
/-!
# The automaton of the tables

What the parser does with its state and its stack of modes does not depend on what it collects: it is the run of a pushdown
automaton (`Automaton.step`), which the parser follows step by step (`step_sim`).  Beside it the containers on the stack
(`Stacks`) and what each step does to them and to the retain pool (`Effect`).
-/
namespace ObjectScript
namespace Json

structure Automaton where
  state : State
  modes : List Mode
deriving DecidableEq, Repr

inductive Reject where
  | overflow
  | invalid
deriving DecidableEq, Repr

namespace Automaton

def start : Automaton := ⟨.go, [.done]⟩

def act (depth : Nat) (modes : List Mode) : Action → Except Reject Automaton
  | .emptyObject =>
    match modes with
    | .key :: ms => .ok ⟨.ok, ms⟩
    | _ => .error .invalid
  | .closeObject =>
    match modes with
    | .object :: ms => .ok ⟨.ok, ms⟩
    | _ => .error .invalid
  | .closeArray =>
    match modes with
    | .array :: ms => .ok ⟨.ok, ms⟩
    | _ => .error .invalid
  | .openObject => if modes.length < depth then .ok ⟨.ob, .key :: modes⟩ else .error .overflow
  | .openArray => if modes.length < depth then .ok ⟨.ar, .array :: modes⟩ else .error .overflow
  | .quote =>
    match modes with
    | .key :: _ => .ok ⟨.co, modes⟩
    | _ => .ok ⟨.ok, modes⟩
  | .comma =>
    match modes with
    | .object :: ms => .ok ⟨.ke, .key :: ms⟩
    | .array :: _ => .ok ⟨.va, modes⟩
    | _ => .error .invalid
  | .colon =>
    match modes with
    | .key :: ms => .ok ⟨.va, .object :: ms⟩
    | _ => .error .invalid
  | .numericColon =>
    match modes with
    | .key :: ms => .ok ⟨.va, .object :: ms⟩
    | _ => .error .invalid

def step (depth : Nat) (a : Automaton) (c : Nat) : Except Reject Automaton :=
  match charClass c with
  | none => .error .invalid
  | some cls =>
    match nextState a.state cls with
    | .error => .error .invalid
    | .state s => .ok ⟨s, a.modes⟩
    | .action x => act depth a.modes x

def run (depth : Nat) : Automaton → List Nat → Except Reject Automaton
  | a, [] => .ok a
  | a, c :: cs =>
    match step depth a c with
    | .ok a => run depth a cs
    | .error r => .error r

/-- The text is read to its end, and nothing is open. -/
def Accepts (depth : Nat) (text : List Nat) : Prop := run depth start text = .ok ⟨.ok, [.done]⟩

instance (depth : Nat) (text : List Nat) : Decidable (Accepts depth text) := by
  unfold Accepts
  exact match h : run depth start text with
  | .ok a => if ha : a = ⟨.ok, [.done]⟩ then .isTrue (by rw [ha]) else .isFalse fun heq => ha (Except.ok.inj heq)
  | .error r => .isFalse (by rintro ⟨⟩)

end Automaton

/-! ## The stacks -/

theorem read_natCast {α : Type} (xs : List α) (n : Nat) : read xs (n : Int) = xs[n]? := if_pos (Int.natCast_nonneg n)

theorem write_natCast {α : Type} (xs : List α) (n : Nat) (x : α) (h : n < xs.length) :
    write xs (n : Int) x = some (xs.set n x) := if_pos ⟨Int.natCast_nonneg n, h⟩

/-- The modes and the containers on the stacks, the top ones first; nothing is left above. -/
structure StacksOf (depth : Nat) (top : Int) (stack : List Mode) (zstack : List Ref) (modes : List Mode) (refs : List Ref) :
    Prop where
  top_eq : top + 1 = modes.length
  refs_length : refs.length = modes.length
  fits : modes.length ≤ depth
  stack_length : stack.length = depth
  stack_eq : ∃ rest, stack = modes.reverse ++ rest
  zstack_eq : zstack = refs.reverse ++ List.replicate (depth - refs.length) .zero

abbrev JsonParser.Stacks (p : JsonParser) (modes : List Mode) (refs : List Ref) : Prop :=
  StacksOf p.depth p.top p.stack p.zstack modes refs

namespace JsonParser

variable {p : JsonParser} {m : Mode} {r : Ref} {modes : List Mode} {refs : List Ref}

theorem Stacks.topMode_eq (h : p.Stacks (m :: modes) refs) : p.topMode = some m := by
  obtain ⟨rest, hstack⟩ := h.stack_eq
  have htop : p.top = (modes.length : Int) := by
    have := h.top_eq
    rw [List.length_cons] at this
    omega
  unfold JsonParser.topMode
  rw [htop, read_natCast, hstack, List.reverse_cons, List.append_assoc, List.getElem?_append_right (by simp)]
  simp

theorem Stacks.topRef_eq (h : p.Stacks (m :: modes) (r :: refs)) : p.topRef = some r := by
  have hlen := h.refs_length
  have htop : p.top = (refs.length : Int) := by
    have := h.top_eq
    simp only [List.length_cons] at this hlen
    omega
  unfold JsonParser.topRef
  rw [htop, read_natCast, h.zstack_eq, List.reverse_cons, List.append_assoc, List.getElem?_append_right (by simp)]
  simp

theorem Stacks.write_top (h : p.Stacks (m :: modes) (r :: refs)) (r' : Ref) :
    ∃ zstack, write p.zstack p.top r' = some zstack ∧ StacksOf p.depth p.top p.stack zstack (m :: modes) (r' :: refs) := by
  have hlen := h.refs_length
  have htop : p.top = (refs.length : Int) := by
    have := h.top_eq
    simp only [List.length_cons] at this hlen
    omega
  have hz := h.zstack_eq
  refine ⟨(r' :: refs).reverse ++ List.replicate (p.depth - (r' :: refs).length) .zero, ?_, h.top_eq, hlen, h.fits, h.stack_length,
    h.stack_eq, rfl⟩
  rw [htop, write_natCast _ _ _ (by rw [hz]; simp), hz, List.reverse_cons, List.append_assoc,
    List.set_append_right _ _ (by simp)]
  simp

theorem Stacks.push_ok (h : p.Stacks modes refs) (hlt : modes.length < p.depth) (m : Mode) :
    ∃ stack, p.push m = some (true, { p with top := p.top + 1, stack := stack }) ∧
      StacksOf p.depth (p.top + 1) stack p.zstack (m :: modes) (.zero :: refs) := by
  obtain ⟨rest, hstack⟩ := h.stack_eq
  have htop := h.top_eq
  have hlen := h.refs_length
  have hslen := h.stack_length
  have hrest : rest.length = p.depth - modes.length := by
    rw [hstack, List.length_append, List.length_reverse] at hslen
    omega
  cases rest with
  | nil =>
    rw [List.length_nil] at hrest
    omega
  | cons x rest =>
    refine ⟨(m :: modes).reverse ++ rest, ?_, ?_, by simp [hlen], hlt, ?_, ⟨rest, rfl⟩, ?_⟩
    · unfold JsonParser.push
      dsimp only
      rw [if_neg (by omega), htop, write_natCast _ _ _ (by rw [hslen]; exact hlt), hstack, List.set_append_right _ _ (by simp)]
      simp
    · rw [htop, List.length_cons]
      rfl
    · rw [← hslen, hstack]
      simp
    · have hsucc : p.depth - refs.length = (p.depth - (Ref.zero :: refs).length) + 1 := by
        rw [List.length_cons]
        omega
      rw [h.zstack_eq, hsucc, List.replicate_succ, List.reverse_cons, List.append_assoc]
      rfl

theorem Stacks.push_full (h : p.Stacks modes refs) (hge : ¬ modes.length < p.depth) (m : Mode) :
    p.push m = some (false, { p with top := p.top + 1, errorCode := .depth }) := by
  have htop := h.top_eq
  unfold JsonParser.push
  exact if_pos (show (p.depth : Int) ≤ p.top + 1 by omega)

theorem Stacks.pop_ok (h : p.Stacks (m :: modes) (r :: refs)) :
    ∃ zstack, p.pop m true = some (true, { p with core := p.core.releaseValueById r, zstack := zstack, top := p.top - 1 }) ∧
      StacksOf p.depth (p.top - 1) p.stack zstack modes refs := by
  have htop := h.top_eq
  obtain ⟨zstack, hwrite, hs⟩ := h.write_top .zero
  rw [List.length_cons] at htop
  refine ⟨zstack, ?_, by omega, by simpa using h.refs_length, Nat.le_of_succ_le h.fits, h.stack_length, ?_, ?_⟩
  · unfold JsonParser.pop
    rw [if_neg (by omega), h.topMode_eq, h.topRef_eq, hwrite]
    simp
  · obtain ⟨rest, hstack⟩ := h.stack_eq
    exact ⟨m :: rest, by rw [hstack]; simp⟩
  · have hfits := h.fits
    have hlen := h.refs_length
    simp only [List.length_cons] at hfits hlen
    have hsucc : p.depth - refs.length = (p.depth - (Ref.zero :: refs).length) + 1 := by
      rw [List.length_cons]
      omega
    rw [hs.zstack_eq, hsucc, List.replicate_succ, List.reverse_cons, List.append_assoc]
    rfl

theorem Stacks.pop_mismatch (h : p.Stacks (m :: modes) refs) {m' : Mode} (hne : m ≠ m') (release : Bool) :
    p.pop m' release = some (false, { p with errorCode := .stateMismatch }) := by
  have htop := h.top_eq
  rw [List.length_cons] at htop
  unfold JsonParser.pop
  rw [if_neg (by omega), h.topMode_eq]
  exact if_pos hne

theorem Stacks.switch (h : p.Stacks (m :: modes) (r :: refs)) (m' : Mode) :
    ∃ stack, p.pop m false = some (true, { p with top := p.top - 1 }) ∧
      ({ p with top := p.top - 1 } : JsonParser).push m' = some (true, { p with stack := stack }) ∧
      StacksOf p.depth p.top stack p.zstack (m' :: modes) (r :: refs) := by
  have htop := h.top_eq
  have hfits := h.fits
  have hslen := h.stack_length
  obtain ⟨rest, hstack⟩ := h.stack_eq
  rw [List.length_cons] at htop hfits
  have htop' : p.top = (modes.length : Int) := by omega
  refine ⟨(m' :: modes).reverse ++ rest, ?_, ?_, h.top_eq, h.refs_length, h.fits, ?_, ⟨rest, rfl⟩, h.zstack_eq⟩
  · unfold JsonParser.pop
    rw [if_neg (by omega), h.topMode_eq]
    simp
  · unfold JsonParser.push
    dsimp only
    rw [Int.sub_add_cancel, if_neg (by omega), htop', write_natCast _ _ _ (by omega), hstack, List.reverse_cons, List.append_assoc,
      List.set_append_right _ _ (by simp)]
    simp
  · rw [← hslen, hstack]
    simp

end JsonParser
end Json
end ObjectScript
