import ObjectScript.Compiler.ValueCounts
/-!
# The values that are wanted

Where no assignment is asked for more than it keeps, `expectExpressionValues` yields the first of the values of the expression
(`eval_expect`).  Elsewhere there is a program for which it does not: with `full`, whose calls, reads and assignments give a
value that is not null, the assignment leaves a null first, or has no code (`full_fails`).
-/
namespace ObjectScript
namespace Compiler
namespace Values

open Expression ExpressionType

variable {τ V σ ε : Type}

def Stops (m : Meaning τ V σ ε) (e : Expression τ) : Prop := ∀ s, ∃ x s', eval m e s = .error x s'

theorem leavesAny_iff : ∀ {list : List (Expression τ)}, leavesAny list = true ↔ ∃ e ∈ list, leaves e = true
  | [] => by simp [leavesAny]
  | e :: list => by
    have ih : leavesAny list = true ↔ ∃ d ∈ list, leaves d = true := leavesAny_iff
    simp [leavesAny, ih]

theorem evalAll_stops {m : Meaning τ V σ ε} : ∀ {list : List (Expression τ)}, (∃ e ∈ list, Stops m e) →
    ∀ s, ∃ x s', evalAll m list s = .error x s'
  | [], h, s => by simp at h
  | e :: list, h, s => by
    rw [evalAll_cons]
    change ∃ x s', EStateM.bind _ _ s = .error x s'
    cases he : eval m e s with
    | error x t => exact ⟨x, t, by simp only [EStateM.bind, he]⟩
    | ok vs t =>
      have htail : ∃ e ∈ list, Stops m e := by
        obtain ⟨d, hd, hstops⟩ := h
        rcases List.mem_cons.1 hd with rfl | hd
        · obtain ⟨x, t', hx⟩ := hstops s
          rw [he] at hx
          cases hx
        · exact ⟨d, hd, hstops⟩
      obtain ⟨x, t', hx⟩ := evalAll_stops htail t
      refine ⟨x, t', ?_⟩
      simp only [EStateM.bind, he]
      change EStateM.bind _ _ t = _
      simp only [EStateM.bind, hx]

theorem map_stops {α β : Type} {x : EStateM (Stop ε) σ α} {f : α → β} {s : σ} (h : ∃ e s', x s = .error e s') :
    ∃ e s', (f <$> x) s = .error e s' := by
  obtain ⟨e, s', hx⟩ := h
  refine ⟨e, s', ?_⟩
  change EStateM.map f x s = _
  simp only [EStateM.map, hx]

theorem stops_of_leaves {e : Expression τ} (h : WellFormed e) (hleaves : leaves e = true) (m : Meaning τ V σ ε) : Stops m e := by
  induction h with
  | jumps h | leaves h | returns h =>
    intro s
    simp only [eval, h]
    exact ⟨_, _, rfl⟩
  | asked h | other h | increment h | set h | kept h | const h | compound h => simp [leaves, h] at hleaves
  | @popValue token ret child hchild hret ih =>
    intro s
    simp only [leaves, group, leavesAny, Bool.or_false] at hleaves
    simp only [eval, group, evalAll_singleton]
    exact map_stops (ih hleaves s)
  | @params token list h hasked ih =>
    intro s
    simp only [leaves, group, leavesAny_iff] at hleaves
    obtain ⟨e, he, hleaves⟩ := hleaves
    rw [eval_params]
    exact evalAll_stops ⟨e, he, ih e he hleaves⟩ s
  | @codeList token ret list last h hnone hlast hret ih ihlast =>
    intro s
    simp only [leaves, group, leavesAny_iff] at hleaves
    obtain ⟨e, he, hleaves⟩ := hleaves
    simp only [eval, group]
    refine evalAll_stops ⟨e, he, ?_⟩ s
    rcases List.mem_append.1 he with hin | hin
    · exact ih e hin hleaves
    · obtain rfl := List.mem_singleton.1 hin
      exact ihlast hleaves
  | nothing => simp [leaves, group, leavesAny] at hleaves

theorem keepsLast_append (last : Expression τ) (n : Nat) : ∀ list : List (Expression τ),
    KeepsLast (list ++ [last]) n ↔ (∃ e ∈ list, leaves e = true) ∨ Keeps last n
  | [] => by simp [KeepsLast]
  | [e] => by simp [KeepsLast]
  | e :: e' :: list => by
    have ih := keepsLast_append last n (e' :: list)
    simp only [List.cons_append] at ih ⊢
    rw [KeepsLast, ih, ← or_assoc]
    simp only [List.mem_cons, exists_eq_or_imp]

theorem bind_stops {α β : Type} {x : EStateM (Stop ε) σ α} (h : ∀ s, ∃ e s', x s = .error e s')
    (f g : α → EStateM (Stop ε) σ β) : x >>= f = x >>= g :=
  bind_congr_ok fun s a s' hok => by
    obtain ⟨e, t, herr⟩ := h s
    rw [hok] at herr
    cases herr

/-- Where two runs have the same effects and one never ends, neither yields anything. -/
theorem map_of_stops {α β γ : Type} {x : EStateM (Stop ε) σ α} {y : EStateM (Stop ε) σ β}
    (heffects : (fun _ => ()) <$> x = (fun _ => ()) <$> y) (hstops : ∀ s, ∃ e s', y s = .error e s') (f : α → γ) (g : β → γ) :
    f <$> x = g <$> y := by
  funext s
  have hat := congrFun heffects s
  change EStateM.map _ x s = EStateM.map _ y s at hat
  change EStateM.map f x s = EStateM.map g y s
  obtain ⟨e, s', hy⟩ := hstops s
  cases hx : x s with
  | ok a t =>
    simp only [EStateM.map, hx, hy] at hat
    cases hat
  | error e' t =>
    simp only [EStateM.map, hx, hy, EStateM.Result.error.injEq] at hat ⊢
    exact hat

theorem expect_of_eq {e : Expression τ} {n : Nat} (h : e.ret_values = n) (auto : Bool) : expectExpressionValues e n auto = e := by
  obtain ⟨type, token, ret, list⟩ := e
  exact if_pos h

theorem eval_expect_same {e : Expression τ} {n : Nat} (h : WellFormed e) (heq : e.ret_values = n) (m : Meaning τ V σ ε) :
    eval m (expectExpressionValues e n false) = takeValues m.null n <$> yields m e := by
  rw [expect_of_eq heq, h.eval_eq m, heq]

theorem fit_of_eq {e : Expression τ} {n : Nat} (h : e.ret_values = n) (auto : Bool) : fit e n auto = e := by
  subst h
  rw [fit, Nat.sub_self, popValues, padValues, if_neg (Nat.lt_irrefl _)]

theorem expect_set {type : ExpressionType} {token : τ} {list : List (Expression τ)} {one : Bool} {ret n : Nat}
    (h : type.group = .set one) (hret : ret ≠ n) (hone : one = false ∨ n = 1) :
    expectExpressionValues (.mk type token ret list) n false = fit (.mk type.noPop token 1 list) n false := by
  simp only [expectExpressionValues, if_neg hret, h, if_pos hone]

theorem pop_of_set {type : ExpressionType} {one : Bool} (h : type.group = .set one) : type.pop = type := by
  cases type <;> first | rfl | cases h

/-- What is popped or padded yields the first of its values. -/
theorem eval_fit_yields {e : Expression τ} (h : WellFormed e) (m : Meaning τ V σ ε) (hall : yields m e = eval m e) (n : Nat) :
    eval m (fit e n false) = takeValues m.null n <$> yields m e := by
  rw [eval_fit (h.counted m), hall]

/-- **The values are the right ones** where no assignment is asked for more than it keeps. -/
theorem eval_expect {e : Expression τ} (h : WellFormed e) (n : Nat) (hkeeps : Keeps e n) (m : Meaning τ V σ ε) :
    eval m (expectExpressionValues e n false) = takeValues m.null n <$> yields m e := by
  induction h with
  | @asked type token ret list h hread =>
    by_cases heq : ret = n
    · exact eval_expect_same (WellFormed.asked h hread) heq m
    · simp only [Keeps, h, heq, false_or] at hkeeps
      simp only [expectExpressionValues, if_neg heq, h, eval, yields, hkeeps, Bool.false_eq_true, if_false]
  | @jumps type token ret list h | @leaves type token ret list h =>
    by_cases heq : ret = n
    · subst heq
      simp only [expectExpressionValues, if_true, h, eval, yields, map_stop]
    · simp only [expectExpressionValues, if_neg heq, h, eval, yields, map_stop]
  | @returns type token ret list h =>
    by_cases heq : ret = n
    · simp only [expectExpressionValues, if_pos heq, h, eval, yields, map_stop]
    · simp only [expectExpressionValues, if_neg heq, h, eval, yields, map_stop, group_codeList, evalAll_singleton]
  | @other type token ret list h =>
    by_cases heq : ret = n
    · exact eval_expect_same (WellFormed.other h) heq m
    · simp only [expectExpressionValues, if_neg heq, h]
      exact eval_fit_yields (.other h) m (by simp only [yields, h]) n
  | @increment type token ret list h hret =>
    by_cases heq : ret = n
    · exact eval_expect_same (WellFormed.increment h hret) heq m
    · simp only [Keeps, h, heq, false_or] at hkeeps
      subst hkeeps
      by_cases hn : n = 0
      · subst hn
        simp only [expectExpressionValues, if_neg heq, h, if_true, eval, yields, Functor.map_map]
        rfl
      · simp only [expectExpressionValues, if_neg heq, h, if_neg hn]
        exact eval_fit_yields (.increment h hret) m (by simp only [yields, eval, h]; rfl) n
  | @set type token list one h =>
    by_cases heq : 0 = n
    · exact eval_expect_same (WellFormed.set h) heq m
    · have hone : one = false ∨ n = 1 := by
        simp only [Keeps, h, heq, false_or] at hkeeps
        cases one with
        | false => exact .inl rfl
        | true => exact .inr hkeeps
      have hyields : yields m (.mk type token 0 list) = yields m (.mk type.noPop token 1 list) := by
        simp only [yields, h, group_noPop h, pop_noPop h, pop_of_set h]
      rw [expect_set h heq hone, hyields]
      exact eval_fit_yields (.kept (group_noPop h)) m (by simp only [yields, eval, group_noPop h]) n
  | @kept type token list h =>
    by_cases heq : 1 = n
    · exact eval_expect_same (WellFormed.kept h) heq m
    · simp only [expectExpressionValues, if_neg heq, h]
      exact eval_fit_yields (.kept h) m (by simp only [yields, eval, h]) n
  | @const type token list h =>
    by_cases heq : 1 = n
    · exact eval_expect_same (WellFormed.const h) heq m
    · simp only [expectExpressionValues, if_neg heq, h]
      exact eval_fit_yields (.const h) m (by simp only [yields, h]) n
  | @compound type token child h hassigns hchild ih =>
    by_cases heq : child.ret_values = n
    · exact eval_expect_same (WellFormed.compound h hassigns hchild) heq m
    · simp only [Keeps, h, heq, false_or] at hkeeps
      subst hkeeps
      rcases hassigns with hkept | ⟨one, hset⟩
      · exact absurd (hchild.ret_of_kept hkept) heq
      · obtain ⟨type', token', ret', list'⟩ := child
        simp only [type_mk, ret_values_mk] at hset heq
        have hkept : expectExpressionValues (.mk type' token' ret' list') 1 false = .mk type'.noPop token' 1 list' :=
          (expect_set hset heq (.inr rfl)).trans (fit_of_eq rfl false)
        have hlast := expectLastValues_append (.mk type' token' ret' list') 1 false []
        simp only [List.nil_append, hkept, ret_values_mk] at hlast
        simp only [expectExpressionValues, if_neg heq, h, hlast, ret_values_mk]
        simp only [eval, yields, h, Meaning.compound, group_noPop hset, hset, pop_noPop hset, pop_of_set hset, Functor.map_map]
        rfl
  | @popValue token ret child hchild hret ih =>
    by_cases heq : ret = n
    · exact eval_expect_same (WellFormed.popValue hchild hret) heq m
    · simp only [expectExpressionValues, if_neg heq, group_popValue]
      exact eval_fit_yields (.popValue hchild hret) m (by simp only [yields, group_popValue]) n
  | @params token list h hasked ih =>
    by_cases heq : (list.map ret_values).sum = n
    · exact eval_expect_same (WellFormed.params h hasked) heq m
    · have hyields : yields m (.mk .params token (list.map ret_values).sum list) = evalAll m list := by
        simp only [yields, group_params, eval_params]
      have hrev : (list.reverse.map ret_values).sum = (list.map ret_values).sum := by rw [List.map_reverse, List.sum_reverse]
      simp only [expectExpressionValues, if_neg heq, group_params]
      simp only [Keeps, group_params, heq, false_or] at hkeeps
      by_cases hle : n ≤ (list.map ret_values).sum
      · have hwf : ∀ e ∈ list.reverse, WellFormed e := fun e he => h e (List.mem_reverse.1 he)
        rcases hkeeps with hleaves | hreads
        · -- Control leaves at the same place, with the same effects.
          obtain ⟨e, he, hl⟩ := leavesAny_iff.1 hleaves
          have hstops := evalAll_stops ⟨e, he, stops_of_leaves (h e he) hl m⟩
          have heffects := trimParams_effects n hwf m
          rw [hrev, List.reverse_reverse] at heffects
          rw [fit, eval_padValues, eval_popValues, Functor.map_map, eval_params, hyields]
          exact map_of_stops heffects hstops _ _
        rw [← hrev] at hle hreads
        have htrimmed := trimParams_trimmed hwf (fun e he => hasked e (List.mem_reverse.1 he)) hle hreads
        rw [hrev] at htrimmed
        generalize trimParams n list.reverse (list.map ret_values).sum = r at htrimmed ⊢
        have heval := htrimmed.eval_eq m
        rw [List.reverse_reverse] at heval
        have hcounted : Counted m (.mk .params token r.2 r.1.reverse) := by
          intro s vs s' he
          rw [eval_params, heval] at he
          obtain ⟨ws, hw, rfl⟩ := map_ok he
          have hlen := evalAll_counted (fun e he => (h e he).counted m) s ws s' hw
          have hfewer := htrimmed.le_sum
          rw [List.length_take, ret_values_mk]
          omega
        rw [eval_fit hcounted, eval_params, heval, hyields, Functor.map_map]
        exact map_congr_ok fun s vs s' _ => takeValues_take htrimmed.le vs
      · rw [trimParams_of_le (by omega), List.reverse_reverse]
        exact eval_fit_yields (.params h hasked) m (by rw [hyields, eval_params]) n
  | @codeList token ret list last h hnone hlast hret ih ihlast =>
    by_cases heq : ret = n
    · exact eval_expect_same (WellFormed.codeList h hnone hlast hret) heq m
    · have hcounted : ∀ e ∈ list, Counted m e := fun e he => (h e he).counted m
      simp only [Keeps, group_codeList, heq, false_or, keepsLast_append] at hkeeps
      simp only [expectExpressionValues, if_neg heq, group_codeList, expectLastValues_append, eval, yields]
      rw [evalAll_last hcounted hnone, yieldsLast_append, map_bind]
      rcases hkeeps with ⟨e, he, hleaves⟩ | hkeeps
      · exact bind_stops (evalAll_stops ⟨e, he, stops_of_leaves (h e he) hleaves m⟩) _ _
      · rw [ihlast hkeeps]
  | @nothing token =>
    by_cases heq : 0 = n
    · exact eval_expect_same WellFormed.nothing heq m
    · simp only [expectExpressionValues, if_neg heq, group_codeList, expectLastValues]
      exact eval_fit_yields .nothing m (by simp only [yields, eval, group_codeList, evalAll, yieldsLast]) n

/-! ## The condition is exact -/

/-- No call, no read and no assignment gives a null. -/
def full (τ : Type) : Meaning τ Bool Unit Unit where
  null := false
  constant _ _ := true
  ask _ _ _ := pure [true]
  read _ _ _ := pure true
  increment _ _ _ := pure true
  assign _ _ _ _ := pure true
  leave _ _ _ s := ((), s)
  value _ _ _ _ := pure fun _ => true

theorem evalAll_runs : ∀ {list : List (Expression τ)}, (∀ e ∈ list, ∃ vs, eval (full τ) e () = .ok vs ()) →
    ∃ vs, evalAll (full τ) list () = .ok vs ()
  | [], _ => ⟨[], by rw [evalAll]; rfl⟩
  | e :: list, h => by
    obtain ⟨vs, he⟩ := h e (List.mem_cons_self ..)
    obtain ⟨ws, hes⟩ := evalAll_runs fun d hd => h d (List.mem_cons_of_mem _ hd)
    refine ⟨vs ++ ws, ?_⟩
    rw [evalAll_cons]
    change EStateM.bind _ _ () = _
    simp only [EStateM.bind, he]
    change EStateM.bind _ _ () = _
    simp only [EStateM.bind, hes]
    rfl

theorem map_runs {α β : Type} {x : EStateM (Stop ε) σ α} {s s' : σ} (f : α → β) (h : ∃ a, x s = .ok a s') :
    ∃ b, (f <$> x) s = .ok b s' := by
  obtain ⟨a, hx⟩ := h
  refine ⟨f a, ?_⟩
  change EStateM.map f x s = _
  simp only [EStateM.map, hx]

theorem full_runs {e : Expression τ} (h : WellFormed e) (hleaves : leaves e = false) : ∃ vs, eval (full τ) e () = .ok vs () := by
  induction h with
  | @asked type token ret list h hread =>
    simp only [eval, h]
    by_cases hreads : readsProperty type list
    · rw [if_pos hreads]
      exact ⟨_, rfl⟩
    · rw [if_neg hreads]
      exact ⟨_, rfl⟩
  | other h | increment h | set h | kept h | const h =>
    simp only [eval, h]
    exact ⟨_, rfl⟩
  | jumps h | leaves h | returns h => simp [leaves, h] at hleaves
  | @compound type token child h hassigns hchild ih =>
    obtain ⟨-, hx⟩ := compound_assigns (full τ) type hassigns hchild
    simp only [eval, h, hx]
    exact ⟨_, rfl⟩
  | @popValue token ret child hchild hret ih =>
    simp only [leaves, group_popValue, leavesAny, Bool.or_false] at hleaves
    simp only [eval, group_popValue, evalAll_singleton]
    exact map_runs _ (ih hleaves)
  | @params token list h hasked ih =>
    simp only [leaves, group_params] at hleaves
    rw [eval_params]
    exact evalAll_runs fun e he => ih e he (Bool.eq_false_iff.2 fun hl => by
      rw [leavesAny_iff.2 ⟨e, he, hl⟩] at hleaves
      cases hleaves)
  | @codeList token ret list last h hnone hlast hret ih ihlast =>
    simp only [leaves, group_codeList] at hleaves
    have hstays (e : Expression τ) (he : e ∈ list ++ [last]) : leaves e = false := Bool.eq_false_iff.2 fun hl => by
      rw [leavesAny_iff.2 ⟨e, he, hl⟩] at hleaves
      cases hleaves
    simp only [eval, group_codeList]
    refine evalAll_runs fun e he => ?_
    rcases List.mem_append.1 he with hin | hin
    · exact ih e hin (hstays e he)
    · obtain rfl := List.mem_singleton.1 hin
      exact ihlast (hstays e he)
  | nothing =>
    simp only [eval, group_codeList, evalAll]
    exact ⟨_, rfl⟩

theorem takeValues_ne {n : Nat} (h : n ≠ 0) : takeValues false n [] ≠ takeValues false n [true] := by
  obtain ⟨k, rfl⟩ := Nat.exists_eq_succ_of_ne_zero h
  simp [takeValues, List.replicate_succ]

theorem fit_type_of_lt {e : Expression τ} {n : Nat} (h : e.ret_values < n) : (fit e n false).type = .params := by
  have hnone : e.ret_values - n = 0 := by omega
  rw [fit, hnone, popValues, padValues, if_pos h]
  by_cases htype : e.type = .params
  · simp only [if_pos htype, type_mk]
  · simp only [if_neg htype, type_mk]

theorem fit_type_of_gt {e : Expression τ} {n : Nat} (h : n < e.ret_values) : (fit e n false).type = .popValue := by
  obtain ⟨k, hk⟩ : ∃ k, e.ret_values - n = k + 1 := ⟨e.ret_values - n - 1, by omega⟩
  have hret := ret_values_popValues e (k + 1)
  rw [fit, hk, padValues, if_neg (by omega), popValues, type_mk]

theorem expect_assigns {child : Expression τ} (h : child.Assigns) (hchild : WellFormed child) {n : Nat}
    (hne : child.ret_values ≠ n) (hn : n ≠ 1) :
    (expectExpressionValues child n false).type = .params ∨ (expectExpressionValues child n false).type = .popValue := by
  rcases h with h | ⟨one, h⟩
  · have hret := hchild.ret_of_kept h
    obtain ⟨type, token, ret, list⟩ := child
    simp only [type_mk, ret_values_mk] at h hret hne
    subst hret
    simp only [expectExpressionValues, if_neg hne, h]
    rcases Nat.lt_or_gt_of_ne hne with hlt | hgt
    · exact .inl (fit_type_of_lt hlt)
    · exact .inr (fit_type_of_gt hgt)
  · have hret := hchild.ret_of_set h
    obtain ⟨type, token, ret, list⟩ := child
    simp only [type_mk, ret_values_mk] at h hret hne
    subst hret
    left
    by_cases hone : one = false ∨ n = 1
    · rw [expect_set h hne hone]
      exact fit_type_of_lt (by rw [ret_values_mk]; omega)
    · simp only [expectExpressionValues, if_neg hne, h, if_neg hone]
      exact fit_type_of_lt (by rw [ret_values_mk]; omega)

theorem pure_inj {a b : List Bool} (h : (pure a : EStateM (Stop Unit) Unit (List Bool)) = pure b) : a = b := by
  have := congrFun h ()
  injection this

/-- **An assignment that is asked for more than it keeps** does not yield what it stores. -/
theorem full_fails {e : Expression τ} (h : WellFormed e) {n : Nat} (hkeeps : ¬ Keeps e n) :
    eval (full τ) (expectExpressionValues e n false) ≠ takeValues false n <$> yields (full τ) e := by
  induction h with
  | @asked type token ret list h hread =>
    simp only [Keeps, h, not_or, Bool.not_eq_false] at hkeeps
    obtain ⟨heq, hreads⟩ := hkeeps
    obtain rfl := hread hreads
    intro hmeets
    simp only [expectExpressionValues, if_neg heq, h, eval, yields, hreads, if_true] at hmeets
    have hlen := congrArg List.length (pure_inj hmeets)
    rw [length_takeValues] at hlen
    exact heq hlen
  | jumps h | leaves h | returns h | other h | kept h | const h => simp [Keeps, h] at hkeeps
  | @increment type token ret list h hret =>
    simp only [Keeps, h, not_or] at hkeeps
    obtain ⟨heq, hone⟩ := hkeeps
    obtain rfl : ret = 0 := by omega
    have hn : n ≠ 0 := fun hz => heq hz.symm
    intro hmeets
    simp only [expectExpressionValues, if_neg heq, h, if_neg hn] at hmeets
    rw [eval_fit ((WellFormed.increment h hret).counted (full τ))] at hmeets
    simp only [eval, yields, h] at hmeets
    exact takeValues_ne hn (pure_inj hmeets)
  | @set type token list one h =>
    cases one with
    | false => simp [Keeps, h] at hkeeps
    | true =>
      simp only [Keeps, h, not_or] at hkeeps
      obtain ⟨heq, hone⟩ := hkeeps
      have hn : n ≠ 0 := fun hz => heq hz.symm
      intro hmeets
      simp only [expectExpressionValues, if_neg heq, h, if_neg hone, Bool.true_eq_false, false_or] at hmeets
      rw [eval_fit ((WellFormed.set h).counted (full τ))] at hmeets
      simp only [eval, yields, h] at hmeets
      exact takeValues_ne hn (pure_inj hmeets)
  | @compound type token child h hassigns hchild ih =>
    simp only [Keeps, h, not_or] at hkeeps
    obtain ⟨heq, hone⟩ := hkeeps
    obtain ⟨-, hx⟩ := compound_assigns (full τ) type hassigns hchild
    have hlast := expectLastValues_append child n false []
    simp only [List.nil_append] at hlast
    have hnone : (full τ).compound type [expectExpressionValues child n false] = throw .rejected := by
      have htype := expect_assigns hassigns hchild heq hone
      generalize expectExpressionValues child n false = d at htype
      obtain ⟨type', token', ret', list'⟩ := d
      simp only [type_mk] at htype
      rcases htype with rfl | rfl <;> rfl
    intro hmeets
    simp only [expectExpressionValues, if_neg heq, h, hlast, eval, hnone, yields, hx] at hmeets
    have := congrFun hmeets ()
    cases this
  | @popValue token ret child hchild hret ih => simp [Keeps] at hkeeps
  | @params token list h hasked ih =>
    simp only [Keeps, group_params, not_or, Bool.not_eq_false] at hkeeps
    obtain ⟨heq, hstays, hreads⟩ := hkeeps
    have hwf : ∀ e ∈ list.reverse, WellFormed e := fun e he => h e (List.mem_reverse.1 he)
    have hrev : (list.reverse.map ret_values).sum = (list.map ret_values).sum := by rw [List.map_reverse, List.sum_reverse]
    have hyields : yields (full τ) (.mk .params token (list.map ret_values).sum list) = evalAll (full τ) list := by
      simp only [yields, group_params, eval_params]
    have hle : n ≤ (list.reverse.map ret_values).sum := by
      by_contra hmore
      rw [← hrev] at hreads
      rw [trimsRead_of_le (Nat.le_of_not_le hmore)] at hreads
      cases hreads
    have hkept := le_trimParams hwf (fun e he => hasked e (List.mem_reverse.1 he)) hle
    obtain ⟨vs, hvs⟩ := evalAll_runs fun e he => full_runs (h e he) (Bool.eq_false_iff.2 fun hl => hstays (leavesAny_iff.2 ⟨e, he, hl⟩))
    have heffects := congrFun (trimParams_effects n hwf (full τ)) ()
    have hlonger := trimParams_reads n hwf (full τ) ()
    rw [hrev] at hkept heffects hlonger
    rw [List.reverse_reverse] at heffects
    intro hmeets
    simp only [expectExpressionValues, if_neg heq, group_params] at hmeets
    generalize trimParams n list.reverse (list.map ret_values).sum = r at hkept heffects hlonger hmeets
    rw [fit, eval_padValues, eval_popValues, Functor.map_map, eval_params, hyields] at hmeets
    have hat := congrFun hmeets ()
    change EStateM.map _ _ () = EStateM.map _ _ () at heffects hat
    cases hws : evalAll (full τ) r.1.reverse () with
    | error e t =>
      simp only [EStateM.map, hvs, hws] at heffects
      cases heffects
    | ok ws t =>
      have hmany := hlonger () ws hws
      simp only [hreads, if_true] at hmany
      simp only [EStateM.map, hvs, hws, ret_values_popValues, ret_values_mk, EStateM.Result.ok.injEq] at hat
      have hlen := congrArg List.length hat.1
      rw [length_takeValues, List.length_append, List.length_take, List.length_replicate] at hlen
      omega
  | @codeList token ret list last h hnone hlast hret ih ihlast =>
    simp only [Keeps, group_codeList, not_or, keepsLast_append, not_exists, not_and] at hkeeps
    obtain ⟨heq, hstays, hkeeps⟩ := hkeeps
    have hcounted : ∀ e ∈ list, Counted (full τ) e := fun e he => (h e he).counted (full τ)
    obtain ⟨vs, hruns⟩ := evalAll_runs fun e he => full_runs (h e he) (Bool.eq_false_iff.2 (hstays e he))
    intro hmeets
    simp only [expectExpressionValues, if_neg heq, group_codeList, expectLastValues_append, eval, yields] at hmeets
    rw [evalAll_last hcounted hnone, yieldsLast_append, map_bind] at hmeets
    refine ihlast hkeeps (funext fun s => ?_)
    have hat := congrFun hmeets s
    change EStateM.bind _ _ () = EStateM.bind _ _ () at hat
    simpa only [EStateM.bind, hruns] using hat
  | nothing => simp [Keeps, KeepsLast] at hkeeps

/-- **Value counts**: the wanted number of values, the first of those the expression yields, with its effects, exactly when no
assignment is asked for more than it keeps. -/
theorem values_iff {e : Expression τ} (h : WellFormed e) (n : Nat) : Meets e n ↔ Keeps e n := by
  constructor
  · rintro ⟨-, hmeets⟩
    by_contra hkeeps
    exact full_fails h hkeeps (hmeets (full τ))
  · intro hkeeps
    exact ⟨expect_ret_values h n, fun m => eval_expect h n hkeeps m⟩

theorem values_iff_property : Meets (.mk .setProperty () 0 [.mk .constNumber () 1 []]) 2 :=
  (values_iff (.set (show ExpressionType.group .setProperty = .set false from rfl)) 2).2 (by simp [Keeps, group])

/-- **A variable that is assigned** where two values are wanted, as in `a, b = c = 5`, yields two nulls. -/
theorem variable_not_kept : ¬ ∀ (e : Expression Unit) (n : Nat), WellFormed e → Meets e n := by
  intro h
  have hset : WellFormed (.mk .setLocalVar () 0 [.mk .constNumber () 1 []]) :=
    .set (show ExpressionType.group .setLocalVar = .set true from rfl)
  exact full_fails hset (n := 2) (by simp [Keeps, group]) ((h _ 2 hset).2 (full Unit))

end Values
end Compiler
end ObjectScript
