import ObjectScript.Compiler.ExpressionValues
/-!
# Value counts are right

`expectExpressionValues` gives every expression the wanted count (`expect_ret_values`), and the values and the effects it
should have as long as no assignment is asked for more than it keeps (`eval_expect`).  That this is the exact condition
(`values_iff`) is shown with a meaning in which every value that is not padded is different from null.

`fit` pops and pads one expression, and the lists of parameters are trimmed from the end (`Trimmed`).
-/
namespace ObjectScript
namespace Compiler
namespace Values

open Expression ExpressionType

variable {τ V σ ε : Type}

/-! ## Lists of values -/

theorem takeValues_of_length {null : V} {n : Nat} {vs : List V} (h : vs.length = n) : takeValues null n vs = vs := by
  rw [takeValues, List.take_of_length_le (by omega), h, Nat.sub_self]
  exact List.append_nil vs

@[simp] theorem length_takeValues (null : V) (n : Nat) (vs : List V) : (takeValues null n vs).length = n := by
  rw [takeValues, List.length_append, List.length_take, List.length_replicate]
  omega

theorem takeValues_take {null : V} {n k : Nat} (h : n ≤ k) (vs : List V) : takeValues null n (vs.take k) = takeValues null n vs := by
  have hlen : n - (vs.take k).length = n - vs.length := by
    rw [List.length_take]
    omega
  rw [takeValues, takeValues, List.take_take, Nat.min_eq_left h, hlen]

theorem map_congr_ok {α β : Type} {x : EStateM (Stop ε) σ α} {f g : α → β} (h : ∀ s a s', x s = .ok a s' → f a = g a) :
    f <$> x = g <$> x := by
  funext s
  change EStateM.map f x s = EStateM.map g x s
  cases hx : x s with
  | ok a s' => simp only [EStateM.map, hx, h s a s' hx]
  | error e s' => simp only [EStateM.map, hx]

theorem map_ok {α β : Type} {x : EStateM (Stop ε) σ α} {f : α → β} {s s' : σ} {b : β} (h : (f <$> x) s = .ok b s') :
    ∃ a, x s = .ok a s' ∧ f a = b := by
  change EStateM.map f x s = .ok b s' at h
  cases hx : x s with
  | ok a t =>
    simp only [EStateM.map, hx, EStateM.Result.ok.injEq] at h
    exact ⟨a, by rw [h.2], h.1⟩
  | error e t =>
    simp only [EStateM.map, hx] at h
    cases h

theorem bind_ok {α β : Type} {x : EStateM (Stop ε) σ α} {f : α → EStateM (Stop ε) σ β} {s s' : σ} {b : β}
    (h : (x >>= f) s = .ok b s') : ∃ a t, x s = .ok a t ∧ f a t = .ok b s' := by
  change EStateM.bind x f s = .ok b s' at h
  cases hx : x s with
  | ok a t =>
    simp only [EStateM.bind, hx] at h
    exact ⟨a, t, rfl, h⟩
  | error e t =>
    simp only [EStateM.bind, hx] at h
    cases h

theorem bind_congr_ok {α β : Type} {x : EStateM (Stop ε) σ α} {f g : α → EStateM (Stop ε) σ β}
    (h : ∀ s a s', x s = .ok a s' → f a = g a) : x >>= f = x >>= g := by
  funext s
  change EStateM.bind x f s = EStateM.bind x g s
  cases hx : x s with
  | ok a s' => simp only [EStateM.bind, hx, h s a s' hx]
  | error e s' => simp only [EStateM.bind, hx]

@[simp] theorem map_stop (m : Meaning τ V σ ε) (type : ExpressionType) (token : τ) (list : List (Expression τ))
    (f : List V → List V) : f <$> m.stop type token list = m.stop type token list := rfl

/-! ## Values in sequence -/

/-- The count of the expression is that of its values. -/
def Counted (m : Meaning τ V σ ε) (e : Expression τ) : Prop := ∀ s vs s', eval m e s = .ok vs s' → vs.length = e.ret_values

theorem evalAll_append (m : Meaning τ V σ ε) : ∀ xs ys : List (Expression τ),
    evalAll m (xs ++ ys) = evalAll m xs >>= fun vs => evalAll m ys >>= fun ws => pure (vs ++ ws)
  | [], ys => by simp [evalAll]
  | e :: xs, ys => by
    simp only [List.cons_append, evalAll_cons, evalAll_append m xs ys, bind_assoc, pure_bind, List.append_assoc]

theorem evalAll_singleton (m : Meaning τ V σ ε) (e : Expression τ) : evalAll m [e] = eval m e := by
  simp [evalAll]

theorem evalAll_nulls (m : Meaning τ V σ ε) (token : τ) : ∀ k,
    evalAll m (List.replicate k (.mk .constNull token 1 [])) = pure (List.replicate k m.null)
  | 0 => by simp [evalAll]
  | k + 1 => by
    have hnull : eval m (.mk .constNull token 1 []) = pure [m.null] := by simp [eval, group, Meaning.const]
    simp [List.replicate_succ, evalAll_cons, hnull, evalAll_nulls m token k]

theorem evalAll_counted {m : Meaning τ V σ ε} : ∀ {list : List (Expression τ)}, (∀ e ∈ list, Counted m e) →
    ∀ s vs s', evalAll m list s = .ok vs s' → vs.length = (list.map ret_values).sum
  | [], _, s, vs, s', h => by
    rw [evalAll] at h
    cases h
    rfl
  | e :: list, hc, s, vs, s', h => by
    rw [evalAll_cons] at h
    obtain ⟨us, t, hu, h⟩ := bind_ok h
    obtain ⟨ws, u, hw, h⟩ := bind_ok h
    cases h
    have hhead := hc e (List.mem_cons_self ..) s us t hu
    have htail := evalAll_counted (fun e he => hc e (List.mem_cons_of_mem _ he)) t ws s' hw
    rw [List.length_append, List.map_cons, List.sum_cons, hhead, htail]

theorem sum_eq_zero {list : List (Expression τ)} (h : ∀ e ∈ list, e.ret_values = 0) : (list.map ret_values).sum = 0 := by
  induction list with
  | nil => rfl
  | cons e list ih =>
    rw [List.map_cons, List.sum_cons, h e (List.mem_cons_self ..), ih fun e he => h e (List.mem_cons_of_mem _ he)]

theorem evalAll_last {m : Meaning τ V σ ε} {list : List (Expression τ)} (hc : ∀ e ∈ list, Counted m e)
    (h : ∀ e ∈ list, e.ret_values = 0) (last : Expression τ) :
    evalAll m (list ++ [last]) = evalAll m list >>= fun _ => eval m last := by
  rw [evalAll_append, evalAll_singleton]
  funext s
  change EStateM.bind _ _ s = EStateM.bind _ _ s
  cases hx : evalAll m list s with
  | error e t => simp only [EStateM.bind, hx]
  | ok vs t =>
    have hlen := evalAll_counted hc s vs t hx
    rw [sum_eq_zero h] at hlen
    have hnil : vs = [] := List.length_eq_zero_iff.1 hlen
    simp only [EStateM.bind, hx, hnil, List.nil_append, bind_pure]

theorem yieldsLast_append (m : Meaning τ V σ ε) (last : Expression τ) : ∀ list : List (Expression τ),
    yieldsLast m (list ++ [last]) = evalAll m list >>= fun _ => yields m last
  | [] => by simp [yieldsLast, evalAll]
  | [e] => by simp [yieldsLast, evalAll]
  | e :: e' :: list => by
    have ih := yieldsLast_append m last (e' :: list)
    simp only [List.cons_append] at ih ⊢
    rw [yieldsLast, ih, evalAll_cons m e]
    simp

/-! ## Popping and padding -/

@[simp] theorem ret_values_popValues (e : Expression τ) : ∀ k, (popValues k e).ret_values = e.ret_values - k
  | 0 => rfl
  | k + 1 => by
    rw [popValues, ret_values_mk, ret_values_popValues e k]
    omega

theorem eval_popValues (m : Meaning τ V σ ε) (e : Expression τ) : ∀ k,
    eval m (popValues k e) = (fun vs => vs.take (vs.length - k)) <$> eval m e
  | 0 => by simp [popValues]
  | k + 1 => by
    have hdrop (vs : List V) : (vs.take (vs.length - k)).dropLast = vs.take (vs.length - (k + 1)) := by
      rw [List.dropLast_eq_take, List.take_take, List.length_take]
      congr 1
      omega
    simp only [popValues, eval, group, evalAll_singleton, eval_popValues m e k, Functor.map_map, hdrop]

theorem eval_params (m : Meaning τ V σ ε) (token : τ) (ret : Nat) (list : List (Expression τ)) :
    eval m (.mk .params token ret list) = evalAll m list := by
  simp only [eval, group]

theorem eval_padValues (m : Meaning τ V σ ε) (e : Expression τ) (n : Nat) :
    eval m (padValues e n false) = (fun vs => vs ++ List.replicate (n - e.ret_values) m.null) <$> eval m e := by
  obtain ⟨type, token, ret, list⟩ := e
  by_cases hlt : ret < n
  · by_cases htype : type = .params
    · subst htype
      simp [padValues, hlt, eval_params, evalAll_append, evalAll_nulls]
    · simp [padValues, hlt, htype, eval_params, evalAll_cons, evalAll_nulls]
  · have hzero : n - ret = 0 := by omega
    simp [padValues, hlt, hzero]

@[simp] theorem ret_values_padValues (e : Expression τ) (n : Nat) : (padValues e n false).ret_values = max e.ret_values n := by
  by_cases hlt : e.ret_values < n
  · have hadd : e.ret_values + (n - e.ret_values) = max e.ret_values n := by omega
    by_cases htype : e.type = .params
    · simp only [padValues, hlt, htype, if_true, Bool.false_eq_true, if_false, Nat.sub_zero, ret_values_mk, hadd]
    · simp only [padValues, hlt, htype, if_true, Bool.false_eq_true, if_false, Nat.sub_zero, ret_values_mk, hadd]
  · rw [padValues, if_neg hlt]
    omega

@[simp] theorem ret_values_fit (e : Expression τ) (n : Nat) : (fit e n false).ret_values = n := by
  rw [fit, ret_values_padValues, ret_values_popValues]
  omega

/-- **Popping and padding** is taking the first values. -/
theorem eval_fit {m : Meaning τ V σ ε} {e : Expression τ} (h : Counted m e) (n : Nat) :
    eval m (fit e n false) = takeValues m.null n <$> eval m e := by
  rw [fit, eval_padValues, eval_popValues, Functor.map_map, ret_values_popValues]
  refine map_congr_ok fun s vs s' hvs => ?_
  have hlen := h s vs s' hvs
  rw [takeValues, hlen]
  by_cases hle : n ≤ e.ret_values
  · have htake : e.ret_values - (e.ret_values - n) = n := by omega
    rw [htake, Nat.sub_self]
    have hnone : n - e.ret_values = 0 := by omega
    rw [hnone]
  · have htake : e.ret_values - (e.ret_values - n) = e.ret_values := by omega
    rw [htake, List.take_of_length_le (Nat.le_of_eq hlen), List.take_of_length_le (by omega)]

/-! ## Well-formed expressions -/

theorem WellFormed.ret_of_group {e : Expression τ} (h : WellFormed e) :
    (∀ one, e.type.group = .set one → e.ret_values = 0) ∧
      (e.type.group = .kept ∨ e.type.group = .const → e.ret_values = 1) := by
  cases h with
  | popValue | params | codeList | nothing => simp
  | asked h | jumps h | leaves h | returns h | other h | increment h | set h | kept h | const h | compound h => simp [h]

theorem WellFormed.ret_of_set {e : Expression τ} (h : WellFormed e) {one : Bool} (hset : e.type.group = .set one) :
    e.ret_values = 0 :=
  h.ret_of_group.1 one hset

theorem WellFormed.ret_of_kept {e : Expression τ} (h : WellFormed e) (hkept : e.type.group = .kept) : e.ret_values = 1 :=
  h.ret_of_group.2 (.inl hkept)

theorem WellFormed.ret_of_const {e : Expression τ} (h : WellFormed e) (hconst : e.type.group = .const) : e.ret_values = 1 :=
  h.ret_of_group.2 (.inr hconst)

/-- An assignment with a compound operator stores one value, which it leaves if its count is one. -/
theorem compound_assigns (m : Meaning τ V σ ε) (op : ExpressionType) {child : Expression τ} (h : child.Assigns)
    (hchild : WellFormed child) : child.ret_values ≤ 1 ∧
      m.compound op [child] =
        (fun v => (v, decide (child.ret_values = 1))) <$> m.assign (some op) child.type.pop child.token child.list := by
  rcases h with h | ⟨one, h⟩
  · have hret := hchild.ret_of_kept h
    obtain ⟨type, token, ret, list⟩ := child
    simp only [type_mk, ret_values_mk] at h hret
    simp [Meaning.compound, h, hret]
  · have hret := hchild.ret_of_set h
    obtain ⟨type, token, ret, list⟩ := child
    simp only [type_mk, ret_values_mk] at h hret
    simp [Meaning.compound, h, hret]

/-- **The counts are right**. -/
theorem WellFormed.counted {e : Expression τ} (h : WellFormed e) (m : Meaning τ V σ ε) : Counted m e := by
  induction h with
  | @asked type token ret list h hread =>
    intro s vs s' he
    simp only [eval, h] at he
    by_cases hreads : readsProperty type list
    · rw [if_pos hreads] at he
      obtain ⟨v, -, rfl⟩ := map_ok he
      exact (hread hreads).symm
    · rw [if_neg hreads] at he
      obtain ⟨us, -, rfl⟩ := map_ok he
      exact length_takeValues _ _ _
  | jumps h | leaves h | returns h =>
    intro s vs s' he
    simp only [eval, h] at he
    cases he
  | other h =>
    intro s vs s' he
    simp only [eval, h] at he
    obtain ⟨us, -, rfl⟩ := map_ok he
    exact List.length_ofFn
  | increment h hret =>
    intro s vs s' he
    simp only [eval, h] at he
    obtain ⟨v, -, rfl⟩ := map_ok he
    rw [List.length_take, List.length_singleton]
    exact Nat.min_eq_left hret
  | set h | kept h =>
    intro s vs s' he
    simp only [eval, h] at he
    obtain ⟨v, -, rfl⟩ := map_ok he
    rfl
  | const h =>
    intro s vs s' he
    simp only [eval, h] at he
    cases he
    rfl
  | @compound type token child h hassigns hchild ih =>
    intro s vs s' he
    simp only [eval, h] at he
    obtain ⟨r, hr, rfl⟩ := map_ok he
    obtain ⟨hle, hx⟩ := compound_assigns m type hassigns hchild
    rw [hx] at hr
    obtain ⟨v, -, rfl⟩ := map_ok hr
    by_cases hone : child.ret_values = 1
    · simp [hone]
    · have hzero : child.ret_values = 0 := by omega
      simp [hzero]
  | @popValue token ret child hchild hret ih =>
    intro s vs s' he
    simp only [eval, group, evalAll_singleton] at he
    obtain ⟨us, hu, rfl⟩ := map_ok he
    rw [List.length_dropLast, ih s us s' hu, hret]
    rfl
  | params h hasked ih =>
    intro s vs s' he
    rw [eval_params] at he
    exact evalAll_counted ih s vs s' he
  | @codeList token ret list last h hnone hlast hret ih ihlast =>
    intro s vs s' he
    simp only [eval, group] at he
    rw [evalAll_last ih hnone] at he
    obtain ⟨us, t, -, hl⟩ := bind_ok he
    rcases hret with rfl | htype
    · exact ihlast t vs s' hl
    · obtain ⟨type, token, ret', list'⟩ := last
      simp only [type_mk] at htype
      subst htype
      simp only [eval, group] at hl
      cases hl
  | nothing =>
    intro s vs s' he
    simp only [eval, group, evalAll] at he
    cases he
    rfl

/-- What an expression leaves are the first of the values it yields. -/
theorem WellFormed.eval_eq {e : Expression τ} (h : WellFormed e) (m : Meaning τ V σ ε) :
    eval m e = takeValues m.null e.ret_values <$> yields m e := by
  have hsame (e : Expression τ) (he : WellFormed e) : eval m e = takeValues m.null e.ret_values <$> eval m e := by
    refine (id_map _).symm.trans (map_congr_ok fun s vs s' hvs => ?_)
    exact (takeValues_of_length (he.counted m s vs s' hvs)).symm
  induction h with
  | @asked type token ret list h hread =>
    simp only [eval, yields, h, ret_values_mk]
    by_cases hreads : readsProperty type list
    · obtain rfl := hread hreads
      rw [if_pos hreads, if_pos hreads, Functor.map_map]
      rfl
    · rw [if_neg hreads, if_neg hreads]
  | jumps h | leaves h | returns h => simp only [eval, yields, h, map_stop]
  | @other type token ret list h =>
    have hyields : yields m (.mk type token ret list) = eval m (.mk type token ret list) := by simp only [yields, h]
    rw [hyields]
    exact hsame _ (.other h)
  | @increment type token ret list h hret =>
    simp only [eval, yields, h, Functor.map_map, ret_values_mk]
    refine map_congr_ok fun s v s' _ => ?_
    rcases Nat.le_one_iff_eq_zero_or_eq_one.1 hret with rfl | rfl <;> rfl
  | set h | kept h =>
    simp only [eval, yields, h, Functor.map_map, ret_values_mk]
    rfl
  | @const type token list h =>
    have hyields : yields m (.mk type token 1 list) = eval m (.mk type token 1 list) := by simp only [yields, h]
    rw [hyields]
    exact hsame _ (.const h)
  | @compound type token child h hassigns hchild ih =>
    obtain ⟨hle, hx⟩ := compound_assigns m type hassigns hchild
    simp only [eval, yields, h, hx, Functor.map_map, ret_values_mk]
    refine map_congr_ok fun s v s' _ => ?_
    rcases Nat.le_one_iff_eq_zero_or_eq_one.1 hle with hret | hret <;> rw [hret] <;> rfl
  | @popValue token ret child hchild hret ih =>
    have hyields : yields m (.mk .popValue token ret [child]) = eval m (.mk .popValue token ret [child]) := by
      simp only [yields, group]
    rw [hyields]
    exact hsame _ (.popValue hchild hret)
  | @params token list h hasked ih =>
    have hyields : yields m (.mk .params token (list.map ret_values).sum list) =
        eval m (.mk .params token (list.map ret_values).sum list) := by simp only [yields, group]
    rw [hyields]
    exact hsame _ (.params h hasked)
  | @codeList token ret list last h hnone hlast hret ih ihlast =>
    have hcounted : ∀ e ∈ list, Counted m e := fun e he => (h e he).counted m
    simp only [eval, yields, group, ret_values_mk]
    rw [evalAll_last hcounted hnone, yieldsLast_append, map_bind]
    rcases hret with rfl | htype
    · rw [ihlast]
    · obtain ⟨type, token, ret', list'⟩ := last
      simp only [type_mk] at htype
      subst htype
      simp only [eval, yields, group, map_stop]
  | nothing =>
    simp only [eval, yields, group, evalAll, yieldsLast, ret_values_mk]
    rfl

/-! ## Parameter lists -/

theorem trimParams_of_le {n ret : Nat} (h : ret ≤ n) : ∀ ps : List (Expression τ), trimParams n ps ret = (ps, ret)
  | [] => rfl
  | p :: ps => by rw [trimParams, if_pos h]

theorem trimsRead_of_le {n ret : Nat} (h : ret ≤ n) : ∀ ps : List (Expression τ), trimsRead n ps ret = false
  | [] => rfl
  | p :: ps => by rw [trimsRead, if_pos h]

theorem eval_withRetValues_zero (m : Meaning τ V σ ε) {p : Expression τ} (h : p.type.group = .asked ∨ p.type.group = .jumps)
    (hreads : readsProperty p.type p.list = false) : eval m (p.withRetValues 0) = (fun _ => []) <$> eval m p := by
  obtain ⟨type, token, ret, list⟩ := p
  rcases h with h | h <;> simp only [type_mk, list_mk] at h hreads
  · have hnone : takeValues m.null 0 = fun _ => [] := funext fun vs => List.length_eq_zero_iff.1 (length_takeValues m.null 0 vs)
    simp only [withRetValues, eval, h, hreads, Bool.false_eq_true, if_false, Functor.map_map, hnone]
  · simp only [withRetValues, eval, h, map_stop]

theorem eval_withRetValues_read (m : Meaning τ V σ ε) {p : Expression τ} (h : p.type.group = .asked)
    (hreads : readsProperty p.type p.list = true) (ret : Nat) : eval m (p.withRetValues ret) = eval m p := by
  obtain ⟨type, token, ret', list⟩ := p
  simp only [type_mk, list_mk] at h hreads
  simp only [withRetValues, eval, h, hreads, if_true]

/-- What is left of a parameter list has fewer values, the first of those that were there. -/
structure Trimmed (n ret : Nat) (ps : List (Expression τ)) (r : List (Expression τ) × Nat) : Prop where
  le : n ≤ r.2
  sum : (ps.map ret_values).sum = ret
  le_sum : r.2 ≤ ret
  eval_eq : ∀ {V σ ε : Type} (m : Meaning τ V σ ε), evalAll m r.1.reverse = (fun vs => vs.take r.2) <$> evalAll m ps.reverse

theorem length_evalAll_reverse {m : Meaning τ V σ ε} {ps : List (Expression τ)} (h : ∀ e ∈ ps, WellFormed e) {s s' : σ}
    {vs : List V} (hvs : evalAll m ps.reverse s = .ok vs s') : vs.length = (ps.map ret_values).sum := by
  have hlen := evalAll_counted (fun e he => (h e (List.mem_reverse.1 he)).counted m) s vs s' hvs
  rwa [List.map_reverse, List.sum_reverse] at hlen

theorem Trimmed.refl {n : Nat} {ps : List (Expression τ)} (h : ∀ e ∈ ps, WellFormed e) (hle : n ≤ (ps.map ret_values).sum) :
    Trimmed n (ps.map ret_values).sum ps (ps, (ps.map ret_values).sum) := by
  refine ⟨hle, rfl, Nat.le_refl _, fun m => ?_⟩
  refine (id_map _).symm.trans (map_congr_ok fun s vs s' hvs => ?_)
  exact (List.take_of_length_le (Nat.le_of_eq (length_evalAll_reverse h hvs))).symm

/-- The last parameter is left out, or asked for nothing, where its values are not wanted. -/
theorem Trimmed.last {n : Nat} {p : Expression τ} {ps : List (Expression τ)} {r : List (Expression τ) × Nat}
    (h : ∀ e ∈ ps, WellFormed e) (hr : Trimmed n (ps.map ret_values).sum ps r) {q : List (Expression τ)}
    (hqs : ∀ {V σ ε : Type} (m : Meaning τ V σ ε), evalAll m q.reverse = (fun _ => []) <$> eval m p) :
    Trimmed n ((p :: ps).map ret_values).sum (p :: ps) (q ++ r.1, r.2) := by
  have hle := hr.le_sum
  refine ⟨hr.le, rfl, by rw [List.map_cons, List.sum_cons]; omega, fun {V σ ε} m => ?_⟩
  have hleft : evalAll m (q ++ r.1).reverse =
      evalAll m ps.reverse >>= fun vs => eval m p >>= fun _ => pure (vs.take r.2) := by
    rw [List.reverse_append, evalAll_append, hr.eval_eq, hqs]
    simp only [bind_map_left, List.append_nil]
  have hright : (fun vs => vs.take r.2) <$> evalAll m (p :: ps).reverse =
      evalAll m ps.reverse >>= fun vs => eval m p >>= fun ws => pure ((vs ++ ws).take r.2) := by
    rw [List.reverse_cons, evalAll_append, evalAll_singleton]
    simp only [map_bind, map_pure]
  rw [hleft]
  refine Eq.trans ?_ hright.symm
  refine bind_congr_ok fun s vs s' hvs => ?_
  have hlen := length_evalAll_reverse h hvs
  congr 1
  funext ws
  rw [List.take_append_of_le_length (by omega)]

/-- A call among the parameters is asked for nothing, also where more than its own values are too many. -/
theorem trimParams_asked {n : Nat} {p : Expression τ} {ps : List (Expression τ)} (hgroup : p.type.group = .asked ∨ p.type.group = .jumps)
    (hdone : ¬ ((p :: ps).map ret_values).sum ≤ n) :
    trimParams n (p :: ps) ((p :: ps).map ret_values).sum =
      (p.withRetValues 0 :: (trimParams n ps (ps.map ret_values).sum).1, (trimParams n ps (ps.map ret_values).sum).2) := by
  have hsum : ((p :: ps).map ret_values).sum = p.ret_values + (ps.map ret_values).sum := by
    rw [List.map_cons, List.sum_cons]
  have hminus : ((p :: ps).map ret_values).sum - p.ret_values = (ps.map ret_values).sum := by omega
  by_cases hall : ((p :: ps).map ret_values).sum ≤ p.ret_values
  · have hzero : p.ret_values - ((p :: ps).map ret_values).sum = 0 := by omega
    have hnone : (ps.map ret_values).sum = 0 := by omega
    rw [trimParams, if_neg hdone]
    rcases hgroup with hgroup | hgroup <;> simp only [hgroup, if_pos hall, hzero, hnone]
  · rw [trimParams, if_neg hdone]
    rcases hgroup with hgroup | hgroup <;> simp only [hgroup, if_neg hall, hminus]

/-- The runs of the loop over the parameters, from the last on. -/
theorem trimParams_induction {n : Nat} {motive : List (Expression τ) → List (Expression τ) × Nat → Bool → Prop}
    (stop : ∀ ps : List (Expression τ), (∀ e ∈ ps, WellFormed e) → motive ps (ps, (ps.map ret_values).sum) false)
    (const : ∀ (p : Expression τ) (ps : List (Expression τ)) (r : List (Expression τ) × Nat) (b : Bool), (∀ e ∈ ps, WellFormed e) →
      n < p.ret_values + (ps.map ret_values).sum → p.type.group = .const → p.ret_values = 1 → motive ps r b → motive (p :: ps) r b)
    (asked : ∀ (p : Expression τ) (ps : List (Expression τ)) (r : List (Expression τ) × Nat) (b : Bool), (∀ e ∈ ps, WellFormed e) →
      n < p.ret_values + (ps.map ret_values).sum → p.type.group = .asked ∨ p.type.group = .jumps → motive ps r b →
      motive (p :: ps) (p.withRetValues 0 :: r.1, r.2) (readsProperty p.type p.list || b)) :
    ∀ ps : List (Expression τ), (∀ e ∈ ps, WellFormed e) →
      motive ps (trimParams n ps (ps.map ret_values).sum) (trimsRead n ps (ps.map ret_values).sum)
  | [], h => stop [] h
  | p :: ps, h => by
    have hps : ∀ e ∈ ps, WellFormed e := fun e he => h e (List.mem_cons_of_mem _ he)
    have ih := trimParams_induction (n := n) stop const asked ps hps
    have hsum : ((p :: ps).map ret_values).sum = p.ret_values + (ps.map ret_values).sum := by
      rw [List.map_cons, List.sum_cons]
    by_cases hdone : ((p :: ps).map ret_values).sum ≤ n
    · rw [trimParams_of_le hdone, trimsRead, if_pos hdone]
      exact stop _ h
    · cases hgroup : p.type.group with
      | asked | jumps =>
        have hgroup' : p.type.group = .asked ∨ p.type.group = .jumps := by simp only [hgroup, true_or, or_true, reduceCtorEq]
        have hminus : ((p :: ps).map ret_values).sum - p.ret_values = (ps.map ret_values).sum := by omega
        rw [trimParams_asked hgroup' hdone, trimsRead, if_neg hdone]
        simp only [hgroup, hminus]
        exact asked p ps _ _ hps (by omega) hgroup' ih
      | const =>
        have hone := (h p (List.mem_cons_self ..)).ret_of_const hgroup
        have hminus : ((p :: ps).map ret_values).sum - 1 = (ps.map ret_values).sum := by omega
        rw [trimParams, if_neg hdone, trimsRead, if_neg hdone]
        simp only [hgroup, hminus]
        exact const p ps _ _ hps (by omega) hgroup hone ih
      | _ =>
        rw [trimParams, if_neg hdone, trimsRead, if_neg hdone]
        simp only [hgroup]
        exact stop _ h

theorem eval_const {p : Expression τ} (h : p.type.group = .const) (m : Meaning τ V σ ε) :
    eval m p = pure [m.const p.type p.token] := by
  obtain ⟨type, token, ret, list⟩ := p
  simp only [type_mk] at h
  simp only [eval, h, type_mk, token_mk]

theorem le_trimParams {n : Nat} {ps : List (Expression τ)} (h : ∀ e ∈ ps, WellFormed e)
    (hasked : ∀ e ∈ ps, e.type.group = .asked ∨ e.type.group = .jumps → e.ret_values ≤ 1) (hle : n ≤ (ps.map ret_values).sum) :
    n ≤ (trimParams n ps (ps.map ret_values).sum).2 := by
  refine trimParams_induction (n := n) (motive := fun ps r _ =>
      (∀ e ∈ ps, e.type.group = .asked ∨ e.type.group = .jumps → e.ret_values ≤ 1) → n ≤ (ps.map ret_values).sum → n ≤ r.2)
    (fun ps _ _ hle => hle) (fun p ps r b _ hlt _ hone ih hasked _ => ?_) (fun p ps r b _ hlt hgroup ih hasked _ => ?_) ps h hasked hle
  · exact ih (fun e he => hasked e (List.mem_cons_of_mem _ he)) (by omega)
  · have hone := hasked p (List.mem_cons_self ..) hgroup
    exact ih (fun e he => hasked e (List.mem_cons_of_mem _ he)) (by omega)

/-- **The loop over the parameters** drops values from the end only, as long as it drops no property read. -/
theorem trimParams_trimmed {n : Nat} {ps : List (Expression τ)} (h : ∀ e ∈ ps, WellFormed e)
    (hasked : ∀ e ∈ ps, e.type.group = .asked ∨ e.type.group = .jumps → e.ret_values ≤ 1) (hle : n ≤ (ps.map ret_values).sum)
    (hreads : trimsRead n ps (ps.map ret_values).sum = false) :
    Trimmed n (ps.map ret_values).sum ps (trimParams n ps (ps.map ret_values).sum) := by
  have hkept := le_trimParams h hasked hle
  have hall := trimParams_induction (n := n) (motive := fun ps r b => b = false → Trimmed 0 (ps.map ret_values).sum ps r)
    (fun ps h _ => Trimmed.refl h (Nat.zero_le _))
    (fun p ps r b h _ hconst _ ih hb => Trimmed.last h (ih hb) (q := []) fun m => by
      rw [eval_const hconst]
      simp only [List.reverse_nil, evalAll, map_pure])
    (fun p ps r b h _ hgroup ih hb => by
      obtain ⟨hp, hb⟩ := Bool.or_eq_false_iff.1 hb
      exact Trimmed.last h (ih hb) (q := [p.withRetValues 0]) fun m =>
        (evalAll_singleton m _).trans (eval_withRetValues_zero m hgroup hp)) ps h hreads
  exact ⟨hkept, hall.sum, hall.le_sum, hall.eval_eq⟩

/-- Nothing that is dropped from a parameter list had an effect, and what is asked for nothing keeps its own. -/
theorem trimParams_effects (n : Nat) {ps : List (Expression τ)} (h : ∀ e ∈ ps, WellFormed e) (m : Meaning τ V σ ε) :
    (fun _ => ()) <$> evalAll m (trimParams n ps (ps.map ret_values).sum).1.reverse = (fun _ => ()) <$> evalAll m ps.reverse := by
  refine trimParams_induction (n := n)
    (motive := fun ps r _ => (fun _ => ()) <$> evalAll m r.1.reverse = (fun _ => ()) <$> evalAll m ps.reverse)
    (fun ps _ => rfl) (fun p ps r b _ _ hconst _ ih => ?_) (fun p ps r b _ _ hgroup ih => ?_) ps h
  · rw [ih, List.reverse_cons, evalAll_append, evalAll_singleton, eval_const hconst]
    simp
  · have heffect : (fun _ => ()) <$> eval m (p.withRetValues 0) = (fun _ => ()) <$> eval m p := by
      cases hreads : readsProperty p.type p.list with
      | false => rw [eval_withRetValues_zero m hgroup hreads, Functor.map_map]
      | true =>
        rcases hgroup with hasked | hjumps
        · rw [eval_withRetValues_read m hasked hreads]
        · obtain ⟨type, token, ret, list⟩ := p
          simp only [type_mk] at hjumps
          simp only [withRetValues, eval, hjumps]
    have hsplit (xs : List (Expression τ)) (d : Expression τ) : (fun _ => ()) <$> evalAll m (xs ++ [d]) =
        ((fun _ => ()) <$> evalAll m xs) >>= fun _ => (fun _ => ()) <$> eval m d := by
      rw [evalAll_append, evalAll_singleton]
      simp
    rw [List.reverse_cons, List.reverse_cons, hsplit, hsplit, ih, heffect]

/-- A property read that is asked for nothing leaves a value too many. -/
theorem trimParams_reads (n : Nat) {ps : List (Expression τ)} (h : ∀ e ∈ ps, WellFormed e) (m : Meaning τ V σ ε) (s s' : σ)
    (vs : List V) (hvs : evalAll m (trimParams n ps (ps.map ret_values).sum).1.reverse s = .ok vs s') :
    (trimParams n ps (ps.map ret_values).sum).2 + (if trimsRead n ps (ps.map ret_values).sum then 1 else 0) ≤ vs.length := by
  refine trimParams_induction (n := n) (motive := fun ps r b => ∀ s vs s', evalAll m r.1.reverse s = .ok vs s' →
      r.2 + (if b then 1 else 0) ≤ vs.length) (fun ps h s vs s' hvs => ?_) (fun p ps r b _ _ _ _ ih => ih)
    (fun p ps r b _ _ hgroup ih s vs s' hvs => ?_) ps h s vs s' hvs
  · rw [length_evalAll_reverse h hvs]
    exact Nat.le_refl _
  · rw [List.reverse_cons, evalAll_append, evalAll_singleton] at hvs
    obtain ⟨us, t, hu, hvs⟩ := bind_ok hvs
    obtain ⟨ws, t', hw, hvs⟩ := bind_ok hvs
    cases hvs
    have hus := ih s us t hu
    rw [List.length_append]
    cases hreads : readsProperty p.type p.list with
    | false =>
      simp only [Bool.false_or]
      omega
    | true =>
      have hone : ws.length = 1 := by
        obtain ⟨type, token, ret, list⟩ := p
        simp only [type_mk, list_mk] at hgroup hreads
        rcases hgroup with hasked | hjumps
        · simp only [withRetValues, eval, hasked, hreads, if_true] at hw
          obtain ⟨v, -, rfl⟩ := map_ok hw
          rfl
        · simp only [withRetValues, eval, hjumps] at hw
          cases hw
      simp only [Bool.true_or, if_true]
      omega

/-! ## The wanted count -/

theorem expectLastValues_append (last : Expression τ) (n : Nat) (auto : Bool) : ∀ list : List (Expression τ),
    expectLastValues (list ++ [last]) n auto =
      some (list ++ [expectExpressionValues last n auto], (expectExpressionValues last n auto).ret_values)
  | [] => by simp [expectLastValues]
  | [e] => by simp [expectLastValues]
  | e :: e' :: list => by
    have ih := expectLastValues_append last n auto (e' :: list)
    simp only [List.cons_append] at ih ⊢
    rw [expectLastValues, ih]
    rfl

/-- **Every expression has the wanted count** afterwards. -/
theorem expect_ret_values {e : Expression τ} (h : WellFormed e) (n : Nat) : (expectExpressionValues e n false).ret_values = n := by
  induction h with
  | @asked type token ret list h | @jumps type token ret list h | @leaves type token ret list h
  | @returns type token ret list h =>
    by_cases heq : ret = n
    · simp [expectExpressionValues, heq]
    · simp [expectExpressionValues, heq, h]
  | @other type token ret list h =>
    by_cases heq : ret = n
    · simp [expectExpressionValues, heq]
    · simp [expectExpressionValues, heq, h]
  | @increment type token ret list h hret =>
    by_cases heq : ret = n
    · simp [expectExpressionValues, heq]
    · by_cases hn : n = 0
      · simp only [expectExpressionValues, if_neg heq, h, if_pos hn, ret_values_mk]
        exact hn.symm
      · simp only [expectExpressionValues, if_neg heq, h, if_neg hn, ret_values_fit]
  | @set type token list one h =>
    by_cases heq : 0 = n
    · simp [expectExpressionValues, heq]
    · by_cases hone : one = false ∨ n = 1
      · simp only [expectExpressionValues, if_neg heq, h, if_pos hone, ret_values_fit]
      · simp only [expectExpressionValues, if_neg heq, h, if_neg hone, ret_values_fit]
  | @kept type token list h | @const type token list h =>
    by_cases heq : 1 = n
    · simp [expectExpressionValues, heq]
    · simp [expectExpressionValues, heq, h]
  | @compound type token child h hassigns hchild ih =>
    by_cases heq : child.ret_values = n
    · simp [expectExpressionValues, heq]
    · have hlast := expectLastValues_append child n false []
      simp only [List.nil_append] at hlast
      simp only [expectExpressionValues, if_neg heq, h, hlast, ret_values_mk, ih]
  | @popValue token ret child hchild hret ih =>
    by_cases heq : ret = n
    · simp [expectExpressionValues, heq]
    · simp [expectExpressionValues, heq, group]
  | @params token list h hasked ih =>
    by_cases heq : (list.map ret_values).sum = n
    · simp [expectExpressionValues, heq]
    · simp [expectExpressionValues, heq, group]
  | @codeList token ret list last h hnone hlast hret ih ihlast =>
    by_cases heq : ret = n
    · simp [expectExpressionValues, heq]
    · simp only [expectExpressionValues, if_neg heq, group, expectLastValues_append, ret_values_mk, ihlast]
  | @nothing token =>
    by_cases heq : 0 = n
    · simp [expectExpressionValues, heq]
    · simp [expectExpressionValues, heq, group, expectLastValues]

end Values
end Compiler
end ObjectScript
