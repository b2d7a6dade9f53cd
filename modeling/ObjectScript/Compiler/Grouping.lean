import ObjectScript.Compiler.BinaryOperator
/-!
# The grouping of a row of operators

`finishBinaryOperator` is the stack machine `run` (`finish_run`).  Its tree respects `binds`, the levels with the parser's own
rule for assignments, exactly when no operator of the row closes more than two pending ones (`slipFree`).

The stack of `run` holds the operators whose right side is still to come.  Pushing an operator settles those that do not
take it (`settle`), two at the most: the loop of the source does not look at a third.  Where it had to, the tree is
another one than the levels ask for (`eq_parse_iff_slipFree`).
-/
namespace ObjectScript
namespace Compiler

open Precedence Precedence.Tree

variable {α : Type*}

abbrev Row (α : Type*) := List (BinaryExpressionType × Operand α)
abbrev Pending (α : Type*) := Stack BinaryExpressionType (Operand α)

/-! ## The parser as a stack machine -/

/-- What the parser closes when it meets `n` after the operand `x` of the pending operator `o`: nothing, `o`, or `o`
and the operator `prev_level` stands for. -/
def settle (n o : BinaryExpressionType) (e : Expression α) (st : Pending α) (x : Operand α) :
    Pending α × Expression α :=
  if binds o n then ((o, e) :: st, leaf x)
  else match st with
    | [] => ([], node o e (leaf x))
    | (p, l) :: st =>
      if level o ≠ level n ∧ level n ≤ level p then (st, node p l (node o e (leaf x)))
      else ((p, l) :: st, node o e (leaf x))

def run : Pending α → Operand α → Row α → Expression α
  | st, x, [] => close st (leaf x)
  | [], x, (n, y) :: ops => run [(n, leaf x)] y ops
  | (o, e) :: st, x, (n, y) :: ops =>
    run ((n, (settle n o e st x).2) :: (settle n o e st x).1) y ops

/-- The `prev_level` of a call whose pending operators are `st`. -/
def prevLevel : Pending α → Int
  | [] => OpcodeLevel.nothing.value
  | (p, _) :: _ => level p

theorem newBinaryExpression_some {op : BinaryExpressionType} {l r t : Expression α} {ops : Row α}
    (h : newBinaryExpression op l r ops = some t) :
    t = node op l r ∧ (isAssignOperator op = true → assignable op (expressionKind l) = true) := by
  unfold newBinaryExpression at h
  split at h
  · rename_i hq
    split at h
    · exact ⟨(Option.some.inj h).symm, by subst hq; intro hn; cases hn⟩
    · cases h
  · split at h
    · split at h
      · rename_i hw
        exact ⟨(Option.some.inj h).symm, fun _ => hw⟩
      · cases h
    · rename_i hn
      exact ⟨(Option.some.inj h).symm, fun hy => absurd hy hn⟩

theorem level_pos (p : BinaryExpressionType) : 1 ≤ level p := by cases p <;> decide

/-- What a call of `finishBinaryOperator` leaves of the run: all of it read, or the run goes on below the pending
operator its `prev_level` stands for. -/
def Resumes (st : Pending α) (whole : Expression α) : Expression α × Bool × Row α → Prop
  | (t, true, rest) => rest = [] ∧ whole = close st t
  | (t, false, rest) => ∃ n y more p l below, rest = (n, y) :: more ∧ st = (p, l) :: below ∧
      whole = run ((n, node p l t) :: below) y more

/-- `finishBinaryOperator` with this fuel is `run`. -/
def RunsAs (α : Type*) (fuel : Nat) : Prop :=
  ∀ (st : Pending α) (exp : Expression α) (o : BinaryExpressionType) (x : Operand α) (ops : Row α)
    (r : Expression α × Bool × Row α), finishBinaryOperator fuel (prevLevel st) exp ((o, x) :: ops) = some r →
    Resumes st (run ((o, exp) :: st) x ops) r

/-- The recursive call on the right operand, and what is done with the operator it hands back. -/
theorem finish_descend {fuel : Nat} (ih : RunsAs α fuel) {st : Pending α} {exp : Expression α}
    {o : BinaryExpressionType} {x : Operand α} {n : BinaryExpressionType} {y : Operand α} {ops : Row α}
    {r : Expression α × Bool × Row α} (hs : settle n o exp st x = ((o, exp) :: st, leaf x))
    (h : ((finishBinaryOperator fuel (level o) (leaf x) ((n, y) :: ops)).bind fun q =>
      (newBinaryExpression o exp q.1 q.2.2).bind fun exp =>
        if q.2.1 then some (exp, true, q.2.2) else finishBinaryOperator fuel (prevLevel st) exp q.2.2) = some r) :
    Resumes st (run ((o, exp) :: st) x ((n, y) :: ops)) r := by
  simp only [Option.bind_eq_some_iff] at h
  obtain ⟨q, hq, e, he, h⟩ := h
  obtain ⟨rfl, -⟩ := newBinaryExpression_some he
  have hin := ih ((o, exp) :: st) (leaf x) n y ops q hq
  rw [run, hs]
  obtain ⟨t, fin, rest⟩ := q
  cases fin with
  | true =>
    obtain ⟨hrest, hwhole⟩ := hin
    simp only [if_true, Option.some.injEq] at h
    subst h
    exact ⟨hrest, by rw [hwhole, close]⟩
  | false =>
    obtain ⟨m, z, more, p, l, below, hrest, hst, hwhole⟩ := hin
    simp only [List.cons.injEq, Prod.mk.injEq] at hst
    obtain ⟨⟨rfl, rfl⟩, rfl⟩ := hst
    subst hrest
    rw [hwhole]
    exact ih st _ m z more r (by simpa using h)

/-- **`finishBinaryOperator` is `run`.** -/
theorem finish_run : ∀ fuel : Nat, RunsAs α fuel
  | 0, _, _, _, _, _, _, h => by cases h
  | fuel + 1, st, exp, o, x, [], r, h => by
    simp only [finishBinaryOperator, Option.bind_eq_bind, Option.bind_eq_some_iff, Option.pure_def,
      Option.some.injEq] at h
    obtain ⟨t, ht, rfl⟩ := h
    obtain ⟨rfl, -⟩ := newBinaryExpression_some ht
    exact ⟨rfl, rfl⟩
  | fuel + 1, st, exp, o, x, (n, y) :: ops, r, h => by
    simp only [finishBinaryOperator, Option.bind_eq_bind, Option.pure_def] at h
    by_cases hadj : o ≠ .params ∧ isAssignOperator n = true
    · -- an assignment after an operator other than ',': the right operand starts with it
      have hb : binds o n = true := by simp [binds, hadj]
      have hs : settle n o exp st x = ((o, exp) :: st, leaf x) := by simp [settle, hb]
      have hlt : ¬ level o = level o + 1 := by omega
      have hgt : ¬ level o > level o + 1 := by omega
      rw [if_pos hadj, if_neg hlt, if_neg hgt] at h
      exact finish_descend (finish_run fuel) hs h
    · rw [if_neg hadj] at h
      have hb : binds o n = decide (level o < level n) := by
        rcases not_and_or.1 hadj with hp | ha
        · simp [binds, not_not.1 hp]
        · simp [binds, ha]
      by_cases heq : level o = level n
      · rw [if_pos heq] at h
        simp only [Option.bind_eq_some_iff] at h
        obtain ⟨t, ht, h⟩ := h
        obtain ⟨rfl, -⟩ := newBinaryExpression_some ht
        have hs : settle n o exp st x = (st, node o exp (leaf x)) := by
          have : binds o n = false := by rw [hb]; simp [heq]
          cases st <;> simp [settle, this, heq]
        rw [run, hs]
        exact finish_run fuel st _ n y ops r h
      · rw [if_neg heq] at h
        by_cases hgt : level o > level n
        · rw [if_pos hgt] at h
          simp only [Option.bind_eq_some_iff] at h
          obtain ⟨t, ht, h⟩ := h
          obtain ⟨rfl, -⟩ := newBinaryExpression_some ht
          have hnb : binds o n = false := by rw [hb]; simp; omega
          by_cases hprev : prevLevel st ≥ level n
          · rw [if_pos hprev] at h
            simp only [Option.some.injEq] at h
            subst h
            cases st with
            | nil =>
              have := level_pos n
              simp only [prevLevel, OpcodeLevel.value] at hprev
              omega
            | cons top below =>
              have hs : settle n o exp (top :: below) x = (below, node top.1 top.2 (node o exp (leaf x))) := by
                have : level n ≤ level top.1 := hprev
                simp [settle, hnb, heq, this]
              refine ⟨n, y, ops, top.1, top.2, below, rfl, rfl, ?_⟩
              rw [run, hs]
          · rw [if_neg hprev] at h
            have hs : settle n o exp st x = (st, node o exp (leaf x)) := by
              cases st with
              | nil => simp [settle, hnb]
              | cons top below =>
                have : ¬ level n ≤ level top.1 := hprev
                simp [settle, hnb, this]
            rw [run, hs]
            exact finish_run fuel st _ n y ops r h
        · rw [if_neg hgt] at h
          have hs : settle n o exp st x = ((o, exp) :: st, leaf x) := by
            have : binds o n = true := by rw [hb]; simp; omega
            simp [settle, this]
          exact finish_descend (finish_run fuel) hs h
/-! ## Accepted expressions -/

/-- Every assignment in the tree has a left side it can be made to. -/
def Assignable : Expression α → Prop
  | leaf _ => True
  | node op l r => (isAssignOperator op = true → assignable op (expressionKind l) = true) ∧ Assignable l ∧ Assignable r

def PendingAssignable (st : Pending α) : Prop :=
  ∀ q ∈ st, (isAssignOperator q.1 = true → assignable q.1 (expressionKind q.2) = true) ∧ Assignable q.2

theorem assignable_close : ∀ (st : Pending α) (t : Expression α),
    Assignable (close st t) ↔ PendingAssignable st ∧ Assignable t
  | [], t => by simp [close, PendingAssignable]
  | (p, l) :: st, t => by
    rw [close, assignable_close st]
    simp only [PendingAssignable, Assignable, List.mem_cons, forall_eq_or_imp]
    grind

theorem assignable_settle (n o : BinaryExpressionType) (e : Expression α) (st : Pending α) (x : Operand α) :
    PendingAssignable (settle n o e st x).1 ∧ Assignable (settle n o e st x).2 → PendingAssignable ((o, e) :: st) := by
  unfold settle
  split
  · exact fun h => h.1
  · cases st with
    | nil => simp only [PendingAssignable, Assignable, List.mem_cons, forall_eq_or_imp]; grind
    | cons top st =>
      dsimp only
      split
      · simp only [PendingAssignable, Assignable, List.mem_cons, forall_eq_or_imp]; grind
      · simp only [PendingAssignable, Assignable, List.mem_cons, forall_eq_or_imp]; grind

theorem assignable_run : ∀ (ops : Row α) (st : Pending α) (x : Operand α),
    Assignable (run st x ops) → PendingAssignable st
  | [], st, x, h => by
    have : Assignable (close st (leaf x)) := by cases st <;> exact h
    exact ((assignable_close st _).1 this).1
  | (n, y) :: ops, [], x, h => by simp [PendingAssignable]
  | (n, y) :: ops, (o, e) :: st, x, h => by
    have hp := assignable_run ops _ y h
    refine assignable_settle n o e st x ⟨fun q hq => hp q (List.mem_cons_of_mem _ hq), ?_⟩
    exact (hp _ List.mem_cons_self).2

theorem assignable_finish : ∀ (fuel : Nat) (prev : Int) (exp : Expression α) (ops : Row α)
    (r : Expression α × Bool × Row α), finishBinaryOperator fuel prev exp ops = some r → Assignable exp →
    Assignable r.1
  | 0, _, _, _, _, h, _ => by cases h
  | _ + 1, _, _, [], _, h, _ => by cases h
  | fuel + 1, prev, exp, [(o, x)], r, h, he => by
    simp only [finishBinaryOperator, Option.bind_eq_bind, Option.bind_eq_some_iff, Option.pure_def,
      Option.some.injEq] at h
    obtain ⟨t, ht, rfl⟩ := h
    obtain ⟨rfl, ha⟩ := newBinaryExpression_some ht
    exact ⟨ha, he, trivial⟩
  | fuel + 1, prev, exp, (o, x) :: (n, y) :: ops, r, h, he => by
    simp only [finishBinaryOperator, Option.bind_eq_bind, Option.pure_def] at h
    generalize (if o ≠ .params ∧ isAssignOperator n = true then level o + 1 else level n) = rightLevel at h
    split at h
    · simp only [Option.bind_eq_some_iff] at h
      obtain ⟨t, ht, h⟩ := h
      obtain ⟨rfl, ha⟩ := newBinaryExpression_some ht
      exact assignable_finish fuel _ _ _ r h ⟨ha, he, trivial⟩
    · split at h
      · simp only [Option.bind_eq_some_iff] at h
        obtain ⟨t, ht, h⟩ := h
        obtain ⟨rfl, ha⟩ := newBinaryExpression_some ht
        split at h
        · simp only [Option.some.injEq] at h
          subst h
          exact ⟨ha, he, trivial⟩
        · exact assignable_finish fuel _ _ _ r h ⟨ha, he, trivial⟩
      · simp only [Option.bind_eq_some_iff] at h
        obtain ⟨q, hq, e, hn, h⟩ := h
        obtain ⟨rfl, ha⟩ := newBinaryExpression_some hn
        have hin := assignable_finish fuel _ _ _ q hq trivial
        split at h
        · simp only [Option.some.injEq] at h
          subst h
          exact ⟨ha, he, hin⟩
        · exact assignable_finish fuel _ _ _ r h ⟨ha, he, hin⟩

/-! ## The tree of the machine -/

theorem first_settle (n o : BinaryExpressionType) (e : Expression α) (st : Pending α) (x : Operand α) :
    Stack.first (settle n o e st x).1 (settle n o e st x).2 = Stack.first ((o, e) :: st) (leaf x) ∧
      Stack.rest (settle n o e st x).1 (settle n o e st x).2 = Stack.rest ((o, e) :: st) (leaf x) := by
  unfold settle
  split
  · exact ⟨rfl, rfl⟩
  · cases st with
    | nil => exact ⟨rfl, rfl⟩
    | cons top st =>
      dsimp only
      split
      · simp only [stack_first_node, stack_rest_node, Stack.first, Stack.rest]
        simp [Tree.rest, Tree.first]
      · simp [Stack.first, Stack.rest, Tree.rest, Tree.first]

/-- **The machine keeps the row.** -/
theorem row_run : ∀ (ops : Row α) (st : Pending α) (x : Operand α),
    (run st x ops).first = Stack.first st (leaf x) ∧ (run st x ops).rest = Stack.rest st (leaf x) ++ ops
  | [], st, x => by
    have : run st x [] = close st (leaf x) := by cases st <;> rfl
    simp [this, first_close, rest_close]
  | (n, y) :: ops, [], x => by
    obtain ⟨h1, h2⟩ := row_run ops [(n, leaf x)] y
    rw [run, h1, h2]
    simp [Stack.first, Stack.rest, Tree.first, Tree.rest]
  | (n, y) :: ops, (o, e) :: st, x => by
    obtain ⟨h1, h2⟩ := row_run ops ((n, (settle n o e st x).2) :: (settle n o e st x).1) y
    obtain ⟨h3, h4⟩ := first_settle n o e st x
    rw [run, h1, h2, Stack.first, Stack.rest, h3, h4]
    simp [Tree.first, Tree.rest]

theorem fits_settle (b : BinaryExpressionType → BinaryExpressionType → Bool) (n o : BinaryExpressionType)
    (e : Expression α) (st : Pending α) (x : Operand α) :
    Stack.Fits b (settle n o e st x).1 (settle n o e st x).2 ↔ Stack.Fits b ((o, e) :: st) (leaf x) := by
  unfold settle
  split
  · exact Iff.rfl
  · cases st with
    | nil => exact (fits_pop b o e [] (leaf x)).symm
    | cons top st =>
      dsimp only
      split
      · rw [← fits_pop, ← fits_pop]
      · rw [← fits_pop]

theorem fits_of_respects_run (b : BinaryExpressionType → BinaryExpressionType → Bool) :
    ∀ (ops : Row α) (st : Pending α) (x : Operand α), (run st x ops).Respects b → Stack.Fits b st (leaf x)
  | [], st, x, h => by
    have : run st x [] = close st (leaf x) := by cases st <;> rfl
    exact (respects_close b st _).1 (this ▸ h)
  | (n, y) :: ops, [], x, h => (fits_nil b _).2 trivial
  | (n, y) :: ops, (o, e) :: st, x, h => by
    have hf := fits_of_respects_run b ops _ y h
    exact (fits_settle b n o e st x).1 ((fits_push b n _ _ y).1 hf).1

/-! ## One operator -/

/-- The push of `n` onto what `settle` leaves is one that a parser of `b` makes. -/
def Settled (b : BinaryExpressionType → BinaryExpressionType → Bool) (n : BinaryExpressionType)
    (q : Pending α × Expression α) : Prop :=
  (∀ m ∈ q.2.rightSpine, b m n = false) ∧ q.1.TopBinds b n

theorem level_assign (p : BinaryExpressionType) : isAssignOperator p = true ↔ level p = 1 := by cases p <;> decide

theorem level_of_assign {p : BinaryExpressionType} (h : isAssignOperator p = true) : level p = 1 :=
  (level_assign p).1 h

theorem level_params : level .params = 2 := by decide

theorem isAssignOperator_of_lt_params {p : BinaryExpressionType} (h : level p < level .params) :
    isAssignOperator p = true := by
  have := level_pos p
  rw [level_params] at h
  exact (level_assign p).2 (by omega)

theorem not_assignable_node {op m : BinaryExpressionType} (l r : Expression α) (hm : isAssignOperator m = true) :
    assignable op (expressionKind (node m l r)) = false := by
  simp [expressionKind, joinKind, hm, assignable]

theorem binds_eq_false_iff (p n : BinaryExpressionType) :
    binds p n = false ↔ level n ≤ level p ∧ (isAssignOperator n = true → p = .params) := by
  by_cases hp : p = .params <;> simp [binds, hp, and_comm]

theorem binds_eq_true_iff (p n : BinaryExpressionType) :
    binds p n = true ↔ level p < level n ∨ (p ≠ .params ∧ isAssignOperator n = true) := by
  by_cases hp : p = .params <;> simp [binds, hp]
  grind

/-- Below a ',' that takes its left operand from it there is an assignment. -/
theorem isAssignOperator_of_binds_params {p : BinaryExpressionType} (h : binds p .params = true) :
    isAssignOperator p = true := by
  rcases (binds_eq_true_iff p .params).1 h with h | h
  · exact isAssignOperator_of_lt_params h
  · exact absurd h.2 (by decide)

/-- **Two operators closed at once before an assignment** would leave it a left side it cannot be made to: the outer
one is an assignment itself. -/
theorem not_assign_of_closes_two {n o p : BinaryExpressionType} {l e : Expression α} {x : Operand α}
    (ho : binds o n = false) (hpo : binds p o = true)
    (ha : isAssignOperator n = true → assignable n (expressionKind (node p l (node o e (leaf x)))) = true) :
    isAssignOperator n = false := by
  by_contra hn
  have hn : isAssignOperator n = true := by simpa using hn
  have hop : o = .params := ((binds_eq_false_iff o n).1 ho).2 hn
  subst hop
  have hp : isAssignOperator p = true := isAssignOperator_of_binds_params hpo
  have := ha hn
  rw [not_assignable_node _ _ hp] at this
  cases this

theorem settled_cases (n o : BinaryExpressionType) (e : Expression α) (st : Pending α) (x : Operand α) :
    (binds o n = true ∧ settle n o e st x = ((o, e) :: st, leaf x) ∧
        ∀ b, Settled b n (settle n o e st x) ↔ b o n = true) ∨
      (binds o n = false ∧ (∀ p l below, st = (p, l) :: below → level o = level n ∨ level p < level n) ∧
        settle n o e st x = (st, node o e (leaf x)) ∧
        ∀ b, Settled b n (settle n o e st x) ↔ b o n = false ∧ Stack.TopBinds b st n) ∨
      (∃ p l below, st = (p, l) :: below ∧ binds o n = false ∧ level o ≠ level n ∧ level n ≤ level p ∧
        settle n o e st x = (below, node p l (node o e (leaf x))) ∧
        ∀ b, Settled b n (settle n o e st x) ↔ b p n = false ∧ b o n = false ∧ Stack.TopBinds b below n) := by
  by_cases ho : binds o n = true
  · have hs : settle n o e st x = ((o, e) :: st, leaf x) := by simp [settle, ho]
    refine Or.inl ⟨ho, hs, fun b => ?_⟩
    rw [hs]
    simp [Settled, rightSpine, Stack.TopBinds]
  · have ho : binds o n = false := by simpa using ho
    cases st with
    | nil =>
      have hs : settle n o e [] x = ([], node o e (leaf x)) := by simp [settle, ho]
      refine Or.inr (Or.inl ⟨ho, ?_, hs, fun b => ?_⟩)
      · intro p l below h
        cases h
      rw [hs]
      simp [Settled, rightSpine, Stack.TopBinds]
    | cons top below =>
      obtain ⟨p, l⟩ := top
      by_cases hc : level o ≠ level n ∧ level n ≤ level p
      · have hs : settle n o e ((p, l) :: below) x = (below, node p l (node o e (leaf x))) := by
          simp [settle, ho, hc]
        refine Or.inr (Or.inr ⟨p, l, below, rfl, ho, hc.1, hc.2, hs, fun b => ?_⟩)
        rw [hs]
        simp [Settled, rightSpine, and_assoc]
      · have hs : settle n o e ((p, l) :: below) x = ((p, l) :: below, node o e (leaf x)) := by
          simp only [settle, ho, hc, if_false, Bool.false_eq_true]
        refine Or.inr (Or.inl ⟨ho, ?_, hs, fun b => ?_⟩)
        · intro p' l' below' h
          obtain ⟨⟨rfl, rfl⟩, rfl⟩ := by simpa using h
          by_cases h1 : level o = level n
          · exact Or.inl h1
          · exact Or.inr (by by_contra h2; exact hc ⟨h1, by omega⟩)
        · rw [hs]
          simp [Settled, rightSpine]

/-- An operator binding into the one below it binds into none but a lower one, unless it is an assignment. -/
theorem topBinds_of_fits {b : BinaryExpressionType → BinaryExpressionType → Bool} {o p : BinaryExpressionType}
    {e l : Expression α} {below : Pending α} {x : Operand α}
    (hf : Stack.Fits b ((o, e) :: (p, l) :: below) (leaf x)) : b p o = true := by
  have := hf.1.2.2.1 o List.mem_cons_self
  exact this

theorem settle_pending {n o : BinaryExpressionType} {e : Expression α} {st : Pending α} {x : Operand α}
    (hf : Stack.Fits binds ((o, e) :: st) (leaf x))
    (ha : isAssignOperator n = true → assignable n (expressionKind (settle n o e st x).2) = true) :
    (Settled binds n (settle n o e st x) ↔
      ((o :: st.map Prod.fst).takeWhile (fun p => !binds p n)).length ≤ 2) ∧
    (Settled binds n (settle n o e st x) →
      (o :: st.map Prod.fst).dropWhile (fun p => !binds p n) = (settle n o e st x).1.map Prod.fst) := by
  rcases settled_cases n o e st x with
    ⟨ho, hs, hset⟩ | ⟨ho, hlev, hs, hset⟩ | ⟨p, l, below, rfl, ho, hne, hle, hs, hset⟩
  · rw [hset binds, hs]
    simp [ho]
  · rw [hset binds, hs]
    cases st with
    | nil => simp [ho, Stack.TopBinds]
    | cons top below =>
      obtain ⟨p, l⟩ := top
      have hpo : binds p o = true := topBinds_of_fits hf
      have hpn : binds p n = true := by
        rw [binds_eq_true_iff]
        rcases hlev p l below rfl with h | h
        · rcases (binds_eq_true_iff p o).1 hpo with h2 | ⟨h2, h3⟩
          · exact Or.inl (by omega)
          · -- `o` is an assignment, and so is `n`: they are not on one level here
            have h1 := level_of_assign h3
            have hn : isAssignOperator n = true := (level_assign n).2 (by omega)
            have hop := ((binds_eq_false_iff o n).1 ho).2 hn
            rw [hop, level_params] at h1
            omega
        · exact Or.inl h
      simp [ho, hpn, Stack.TopBinds]
  · rw [hset binds, hs]
    rw [hs] at ha
    have hpo : binds p o = true := topBinds_of_fits hf
    have hn := not_assign_of_closes_two ho hpo ha
    have hpn : binds p n = false := (binds_eq_false_iff p n).2 ⟨hle, fun h => by rw [hn] at h; cases h⟩
    cases below with
    | nil => simp [ho, hpn, Stack.TopBinds]
    | cons top below =>
      cases htop : binds top.1 n <;> simp [ho, hpn, htop, Stack.TopBinds]

/-! ## The whole row -/

/-- What is known of the push of `n` when the tree in the end respects `b` or is accepted. -/
theorem fits_run_cons (b : BinaryExpressionType → BinaryExpressionType → Bool) (n o : BinaryExpressionType)
    (e : Expression α) (st : Pending α) (x y : Operand α) (hf : Stack.Fits b ((o, e) :: st) (leaf x)) :
    Stack.Fits b ((n, (settle n o e st x).2) :: (settle n o e st x).1) (leaf y) ↔ Settled b n (settle n o e st x) := by
  rw [fits_push, fits_settle]
  exact ⟨fun h => h.2, fun h => ⟨hf, h⟩⟩

/-- **The tree respects `binds` exactly when no operator closes three pending ones.** -/
theorem respects_run : ∀ (ops : Row α) (o : BinaryExpressionType) (e : Expression α) (st : Pending α) (x : Operand α),
    Stack.Fits binds ((o, e) :: st) (leaf x) → Assignable (run ((o, e) :: st) x ops) →
    ((run ((o, e) :: st) x ops).Respects binds ↔ slipFree (o :: st.map Prod.fst) (ops.map Prod.fst) = true)
  | [], o, e, st, x, hf, _ => by
    simp only [run, List.map_nil, slipFree, iff_true]
    exact (respects_close binds _ _).2 hf
  | (n, y) :: ops, o, e, st, x, hf, ha => by
    rw [run] at ha ⊢
    have hpush := (assignable_run ops _ y ha _ List.mem_cons_self).1
    obtain ⟨hset, hdrop⟩ := settle_pending hf hpush
    have hfits := fits_run_cons binds n o e st x y hf
    simp only [List.map_cons, slipFree, Bool.and_eq_true, decide_eq_true_eq, ← hset]
    constructor
    · intro h
      have hok := hfits.1 (fits_of_respects_run binds ops _ y h)
      rw [hdrop hok]
      exact ⟨hok, (respects_run ops n _ _ y (hfits.2 hok) ha).1 h⟩
    · rintro ⟨hok, h⟩
      rw [hdrop hok] at h
      exact (respects_run ops n _ _ y (hfits.2 hok) ha).2 h

/-! ## Every row -/

theorem slipFree_cons (o : BinaryExpressionType) (ops : List BinaryExpressionType) :
    slipFree [] (o :: ops) = slipFree [o] ops := by simp [slipFree]

/-- An accepted row is read to its end, and its tree is `run`'s. -/
theorem run_of_binaryExpression {x : Operand α} {o : BinaryExpressionType} {y : Operand α} {ops : Row α}
    {r : Expression α × Bool × Row α} (h : binaryExpression x ((o, y) :: ops) = some r) :
    r = (run [(o, leaf x)] y ops, true, []) ∧ Assignable (run [(o, leaf x)] y ops) := by
  have ha := assignable_finish _ _ _ _ r h trivial
  have hr := finish_run _ [] (leaf x) o y ops r h
  obtain ⟨t, fin, rest⟩ := r
  cases fin with
  | true =>
    obtain ⟨rfl, ht⟩ := hr
    rw [ht]
    exact ⟨rfl, ha⟩
  | false =>
    obtain ⟨_, _, _, _, _, _, _, hst, _⟩ := hr
    cases hst

theorem fits_first (b : BinaryExpressionType → BinaryExpressionType → Bool) (o : BinaryExpressionType)
    (x y : Operand α) : Stack.Fits b [(o, (leaf x : Expression α))] (leaf y) :=
  (fits_pop b o _ [] _).2 ((fits_nil b _).2 ⟨trivial, trivial, by simp [rightSpine], by simp [leftSpine]⟩)

theorem eq_parse_iff_respects (b : BinaryExpressionType → BinaryExpressionType → Bool) (x : Operand α)
    (o : BinaryExpressionType) (y : Operand α) (ops : Row α) :
    run [(o, leaf x)] y ops = Precedence.parse b x ((o, y) :: ops) ↔ (run [(o, leaf x)] y ops).Respects b := by
  obtain ⟨hfirst, hrest⟩ := row_run ops [(o, leaf x)] y
  rw [respects_iff_eq_parse, hfirst, hrest]
  rfl

/-- **The tree of an accepted row groups it as `binds` says exactly when no operator closes three pending ones.** -/
theorem eq_parse_iff_slipFree {x : Operand α} {o : BinaryExpressionType} {y : Operand α} {ops : Row α}
    {r : Expression α × Bool × Row α} (h : binaryExpression x ((o, y) :: ops) = some r) :
    r.1 = Precedence.parse binds x ((o, y) :: ops) ↔ slipFree [] (o :: ops.map Prod.fst) = true := by
  obtain ⟨rfl, ha⟩ := run_of_binaryExpression h
  rw [slipFree_cons, eq_parse_iff_respects]
  exact respects_run ops o (leaf x) [] y (fits_first binds o x y) ha

/-- `a == b + c * d == e`: the last operator closes three, and is joined to the second operand. -/
example : ¬ slipFree [] [.logicEq, .add, .mul, .logicEq] := by decide

/-- **An accepted row is grouped by precedence**: it is read to its end, a higher level binds tighter, one level goes
to the left, and an assignment takes the operand before it, or the whole list when a ',' is before it. -/
theorem binaryExpression_eq_parse (x : Operand α) (ops : Row α) (r : Expression α × Bool × Row α)
    (h : binaryExpression x ops = some r) (hs : slipFree [] (ops.map Prod.fst) = true) :
    r = (Precedence.parse binds x ops, true, []) := by
  cases ops with
  | nil => cases h
  | cons q ops =>
    have htree := (eq_parse_iff_slipFree h).2 hs
    obtain ⟨rfl, -⟩ := run_of_binaryExpression h
    simpa using htree

/-- `a && b == c + d * e - f`, with levels rising and falling. -/
theorem binaryExpression_eq_parse_mixed :
    binaryExpression (.value 0) [(.logicAnd, .value 1), (.logicEq, .value 2), (.add, .value 3), (.mul, .value 4),
      (.sub, .value 5)] = some (Precedence.parse binds (.value 0) [(.logicAnd, .value 1), (.logicEq, .value 2),
      (.add, .value 3), (.mul, .value 4), (.sub, .value 5)], true, []) := by
  obtain ⟨r, hr⟩ : ∃ r, binaryExpression (.value 0) [(.logicAnd, .value 1), (.logicEq, .value 2), (.add, .value 3),
      (.mul, .value 4), (.sub, .value 5)] = some r := ⟨_, rfl⟩
  rw [hr, binaryExpression_eq_parse _ _ r hr (by decide)]

/-- **The levels alone do not give the tree**: `a + b = c` is `a + (b = c)`. -/
theorem binaryExpression_ne_parse_levels : ¬ ∀ (x : Operand Nat) (ops : Row Nat) (r : Expression Nat × Bool × Row Nat),
    binaryExpression x ops = some r → r.1 = Precedence.parse levelBinds x ops := by
  intro h
  have := h (.writeable 0) [(.add, .writeable 1), (.assign, .value 2)] _ rfl
  revert this
  decide

end Compiler
end ObjectScript
