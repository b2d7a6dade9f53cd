import Mathlib.Data.List.Basic
import Mathlib.Tactic.Common
/-!
# Operator precedence

A row of operands joined by binary operators, and the trees over it.  A relation `b p n` says that a pending operator
`p` leaves its right operand to the later operator `n` (`n` binds tighter on that side).  `Tree.Respects b` is the
declarative reading: every operator met down the left edge of a right operand binds into it, and none met down the
right edge of a left operand does.  `parse b` is the stack parser of the relation, and the only tree of a row that
respects `b` (`respects_iff_eq_parse`).

`Fits` reads the same condition off a parser's stack: one push or one pop at a time it is an equivalence, so that a
parser with other rules of its own respects `b` exactly when each of its pushes does.
-/
namespace Precedence

variable {Op α : Type*}

/-- A binary tree over operands `α` and operators `Op`. -/
inductive Tree (Op α : Type*) where
  | leaf (x : α)
  | node (op : Op) (l r : Tree Op α)
deriving DecidableEq, Repr

namespace Tree

def first : Tree Op α → α
  | leaf x => x
  | node _ l _ => l.first

def rest : Tree Op α → List (Op × α)
  | leaf _ => []
  | node op l r => l.rest ++ (op, r.first) :: r.rest

def leftSpine : Tree Op α → List Op
  | leaf _ => []
  | node op l _ => op :: l.leftSpine

def rightSpine : Tree Op α → List Op
  | leaf _ => []
  | node op _ r => op :: r.rightSpine

/-- **Every operator binds as `b` says**, on both of its sides. -/
def Respects (b : Op → Op → Bool) : Tree Op α → Prop
  | leaf _ => True
  | node op l r => l.Respects b ∧ r.Respects b ∧
      (∀ q ∈ l.rightSpine, b q op = false) ∧ (∀ q ∈ r.leftSpine, b op q = true)

end Tree

open Precedence.Tree

/-- The pending operators, the last one first, each with its left operand. -/
abbrev Stack (Op α : Type*) := List (Op × Tree Op α)

/-- The operator on top, if there is one, leaves its right operand to `q`. -/
def Stack.TopBinds (b : Op → Op → Bool) : Stack Op α → Op → Prop
  | [], _ => True
  | (p, _) :: _, q => b p q = true

def Stack.Ordered (b : Op → Op → Bool) : Stack Op α → Prop
  | [] => True
  | (o, e) :: st => e.Respects b ∧ (∀ q ∈ e.rightSpine, b q o = false) ∧
      (∀ q ∈ o :: e.leftSpine, Stack.TopBinds b st q) ∧ Stack.Ordered b st

/-- **The stack and the operand read after it are part of a tree that respects `b`.** -/
def Stack.Fits (b : Op → Op → Bool) (st : Stack Op α) (t : Tree Op α) : Prop :=
  st.Ordered b ∧ t.Respects b ∧ ∀ q ∈ t.leftSpine, st.TopBinds b q

/-- Every pending operator takes what was read as its right operand. -/
def close : Stack Op α → Tree Op α → Tree Op α
  | [], t => t
  | (p, l) :: st, t => close st (node p l t)

/-- The pending operators that `n` does not bind into are closed. -/
def reduce (b : Op → Op → Bool) (n : Op) : Stack Op α → Tree Op α → Stack Op α × Tree Op α
  | [], t => ([], t)
  | (p, l) :: st, t => if b p n then ((p, l) :: st, t) else reduce b n st (node p l t)

def parseFrom (b : Op → Op → Bool) : Stack Op α → Tree Op α → List (Op × α) → Tree Op α
  | st, t, [] => close st t
  | st, t, (n, x) :: ops => parseFrom b ((n, (reduce b n st t).2) :: (reduce b n st t).1) (leaf x) ops

/-- **The tree operator-precedence parsing gives a row.** -/
def parse (b : Op → Op → Bool) (x : α) (ops : List (Op × α)) : Tree Op α := parseFrom b [] (leaf x) ops

/-! ## The stack, one push or one pop at a time -/

theorem fits_pop (b : Op → Op → Bool) (o : Op) (e : Tree Op α) (st : Stack Op α) (t : Tree Op α) :
    Stack.Fits b ((o, e) :: st) t ↔ Stack.Fits b st (node o e t) := by
  simp only [Stack.Fits, Stack.Ordered, Stack.TopBinds, Respects, leftSpine]
  grind

theorem fits_push (b : Op → Op → Bool) (n : Op) (st : Stack Op α) (t : Tree Op α) (x : α) :
    Stack.Fits b ((n, t) :: st) (leaf x) ↔
      Stack.Fits b st t ∧ (∀ q ∈ t.rightSpine, b q n = false) ∧ st.TopBinds b n := by
  simp only [Stack.Fits, Stack.Ordered, Respects, leftSpine, List.mem_cons, forall_eq_or_imp]
  simp only [List.not_mem_nil, false_implies, implies_true, and_true]
  grind

theorem fits_nil (b : Op → Op → Bool) (t : Tree Op α) : Stack.Fits b [] t ↔ t.Respects b := by
  simp [Stack.Fits, Stack.Ordered, Stack.TopBinds]

theorem respects_close (b : Op → Op → Bool) : ∀ (st : Stack Op α) (t : Tree Op α),
    (close st t).Respects b ↔ Stack.Fits b st t
  | [], t => (fits_nil b t).symm
  | (p, l) :: st, t => by rw [close, respects_close b st, fits_pop]

/-! ## The row is kept -/

/-- The row of a stack before its operand, and the operand's own. -/
def Stack.first : Stack Op α → Tree Op α → α
  | [], t => t.first
  | (_, l) :: st, _ => Stack.first st l

def Stack.rest : Stack Op α → Tree Op α → List (Op × α)
  | [], t => t.rest
  | (p, l) :: st, t => Stack.rest st l ++ (p, t.first) :: t.rest

theorem stack_first_node (p : Op) (l t : Tree Op α) : ∀ st : Stack Op α, Stack.first st (node p l t) = Stack.first st l
  | [] => rfl
  | _ :: _ => rfl

theorem stack_rest_node (p : Op) (l t : Tree Op α) : ∀ st : Stack Op α,
    Stack.rest st (node p l t) = Stack.rest st l ++ (p, t.first) :: t.rest
  | [] => rfl
  | _ :: _ => by simp [Stack.rest, Tree.rest, Tree.first]

theorem first_close : ∀ (st : Stack Op α) (t : Tree Op α), (close st t).first = Stack.first st t
  | [], _ => rfl
  | (p, l) :: st, t => by rw [close, first_close st, stack_first_node, Stack.first]

theorem rest_close : ∀ (st : Stack Op α) (t : Tree Op α), (close st t).rest = Stack.rest st t
  | [], _ => rfl
  | (p, l) :: st, t => by rw [close, rest_close st, stack_rest_node, Stack.rest]

/-! ## The parser -/

theorem reduce_fits (b : Op → Op → Bool) (n : Op) : ∀ (st : Stack Op α) (t : Tree Op α), Stack.Fits b st t →
    (∀ q ∈ t.rightSpine, b q n = false) →
    Stack.Fits b (reduce b n st t).1 (reduce b n st t).2 ∧
      (∀ q ∈ (reduce b n st t).2.rightSpine, b q n = false) ∧ (reduce b n st t).1.TopBinds b n
  | [], t, h, hr => ⟨h, hr, trivial⟩
  | (p, l) :: st, t, h, hr => by
    by_cases hp : b p n = true
    · simp only [reduce, hp, if_true]
      exact ⟨h, hr, hp⟩
    · simp only [reduce, hp]
      refine reduce_fits b n st (node p l t) ((fits_pop b p l st t).1 h) ?_
      simp only [rightSpine, List.mem_cons, forall_eq_or_imp]
      exact ⟨by simpa using hp, hr⟩

theorem respects_parseFrom (b : Op → Op → Bool) : ∀ (ops : List (Op × α)) (st : Stack Op α) (x : α),
    Stack.Fits b st (leaf x) → (parseFrom b st (leaf x) ops).Respects b
  | [], st, x, h => (respects_close b st _).2 h
  | (n, y) :: ops, st, x, h => by
    rw [parseFrom]
    have hr := reduce_fits b n st (leaf x) h (by simp [rightSpine])
    exact respects_parseFrom b ops _ y ((fits_push b n _ _ y).2 hr)

/-- The operator a row starts with, if any, does not bind into the operators of `s`. -/
def ClosedBy (b : Op → Op → Bool) (s : List Op) : List (Op × α) → Prop
  | [] => True
  | (n, _) :: _ => ∀ q ∈ s, b q n = false

/-- **A tree that respects `b` is read back in one piece**, in front of anything that closes it. -/
theorem parseFrom_of_respects (b : Op → Op → Bool) : ∀ (t : Tree Op α) (st : Stack Op α) (more : List (Op × α)),
    t.Respects b → (∀ q ∈ t.leftSpine, st.TopBinds b q) → ClosedBy b t.rightSpine more →
    parseFrom b st (leaf t.first) (t.rest ++ more) = parseFrom b st t more
  | leaf x, st, more, _, _, _ => rfl
  | node o l r, st, more, ⟨hl, hr, hlo, hor⟩, hst, hmore => by
    simp only [leftSpine, List.mem_cons, forall_eq_or_imp] at hst
    have hread : parseFrom b st (leaf l.first) (l.rest ++ (o, r.first) :: (r.rest ++ more)) =
        parseFrom b st l ((o, r.first) :: (r.rest ++ more)) :=
      parseFrom_of_respects b l st _ hl hst.2 hlo
    have hkeep : reduce b o st l = (st, l) := by
      cases st with
      | nil => rfl
      | cons top st =>
        have : b top.1 o = true := hst.1
        simp [reduce, this]
    have hright : parseFrom b ((o, l) :: st) (leaf r.first) (r.rest ++ more) = parseFrom b ((o, l) :: st) r more := by
      refine parseFrom_of_respects b r _ more hr hor ?_
      cases more with
      | nil => trivial
      | cons m more => exact fun q hq => hmore q (by simp [rightSpine, hq])
    rw [first, rest, List.append_assoc, List.cons_append, hread, parseFrom, hkeep, hright]
    cases more with
    | nil => rfl
    | cons m more =>
      have ho : b o m.1 = false := hmore o (by simp [rightSpine])
      simp only [parseFrom, reduce, ho]
      rfl

/-- **A row has one tree that respects `b`**, and the stack parser finds it. -/
theorem respects_iff_eq_parse (b : Op → Op → Bool) (t : Tree Op α) : t.Respects b ↔ t = parse b t.first t.rest := by
  constructor
  · intro h
    have := parseFrom_of_respects b t [] [] h (fun _ _ => trivial) trivial
    rw [List.append_nil] at this
    rw [parse, this, parseFrom, close]
  · intro h
    rw [h]
    exact respects_parseFrom b _ [] _ ((fits_nil b _).2 trivial)

end Precedence
