import Mathlib.Logic.Relation
import Mathlib.Data.Finset.Card
import Mathlib.Data.Finset.Range
import Mathlib.Tactic.Common
/-!
# Chains

A partial map `f` links an element to the one after it.  A loop that follows the links from an element either meets what it
looks for, or comes to the end of the chain, or goes on for ever: `walk` is that loop with a bound on its steps.  In a
finite set without a cycle every chain ends (`Acyclic.ends`); and relinking one element keeps the links free of cycles
exactly when the element is not on the chain it is linked to (`acyclic_update`).
-/
namespace Chain

variable {α β : Type*}

/-- `b` comes after `a`. -/
def Next (f : α → Option α) (a b : α) : Prop := f a = some b

/-- `b` is on the chain that starts with `a`. -/
def On (f : α → Option α) (a b : α) : Prop := Relation.ReflTransGen (Next f) a b

def Acyclic (f : α → Option α) : Prop := ∀ a, ¬ Relation.TransGen (Next f) a a

/-- The element `k` links after `a`. -/
def after (f : α → Option α) : Nat → α → Option α
  | 0, a => some a
  | k + 1, a => (f a).bind (after f k)

/-- The chain of `a` has an end. -/
def Ends (f : α → Option α) (a : α) : Prop := ∃ k, after f k a = none

/-- The loop over the chain of `a`, at most `fuel` elements: what `visit` finds first. -/
def walk (f : α → Option α) (visit : α → Option β) : Nat → α → Option (Option β)
  | 0, _ => none
  | fuel + 1, a =>
    match visit a with
    | some b => some (some b)
    | none =>
      match f a with
      | none => some none
      | some b => walk f visit fuel b

variable {f : α → Option α}

theorem after_succ (k : Nat) (a : α) : after f (k + 1) a = (after f k a).bind f := by
  induction k generalizing a with
  | zero => simp [after]
  | succ k ih =>
    cases h : f a with
    | none => simp [after, h]
    | some b =>
      have hleft : after f (k + 1 + 1) a = after f (k + 1) b := by simp [after, h]
      have hright : after f (k + 1) a = after f k b := by simp [after, h]
      rw [hleft, hright, ih]

theorem after_none_of_le {j k : Nat} {a : α} (hjk : j ≤ k) (h : after f j a = none) : after f k a = none := by
  induction hjk with
  | refl => exact h
  | step _ ih => rw [after_succ, ih]; rfl

theorem transGen_of_after {i j : Nat} (hij : i < j) {a x y : α} (hi : after f i a = some x) (hj : after f j a = some y) :
    Relation.TransGen (Next f) x y := by
  induction j generalizing y with
  | zero => omega
  | succ j ih =>
    rw [after_succ] at hj
    cases hm : after f j a with
    | none => rw [hm] at hj; cases hj
    | some m =>
      rw [hm] at hj
      have hstep : Next f m y := hj
      rcases Nat.lt_or_ge i j with hlt | hge
      · exact (ih hlt hm).tail hstep
      · obtain rfl : i = j := by omega
        rw [hi] at hm
        cases hm
        exact .single hstep

/-- **Without a cycle in a finite set, every chain in it ends**, within as many links as the set has elements. -/
theorem Acyclic.ends (h : Acyclic f) {S : Finset α} (hS : ∀ a ∈ S, ∀ b, f a = some b → b ∈ S) {a : α} (ha : a ∈ S) :
    after f S.card a = none := by
  by_contra hne
  have hsome : ∀ k ∈ Finset.range (S.card + 1), ∃ b, after f k a = some b := by
    intro k hk
    rw [← Option.ne_none_iff_exists']
    intro hnone
    exact hne (after_none_of_le (by have := Finset.mem_range.1 hk; omega) hnone)
  have hmem : ∀ k b, after f k a = some b → b ∈ S := by
    intro k
    induction k with
    | zero => intro b hb; cases hb; exact ha
    | succ k ih =>
      intro b hb
      rw [after_succ] at hb
      cases hm : after f k a with
      | none => rw [hm] at hb; cases hb
      | some m => rw [hm] at hb; exact hS m (ih m hm) b hb
  have hmaps : ∀ k ∈ Finset.range (S.card + 1), (after f k a).getD a ∈ S := by
    intro k hk
    obtain ⟨b, hb⟩ := hsome k hk
    rw [hb]
    exact hmem k b hb
  obtain ⟨i, hi, j, hj, hne', heq⟩ :=
    Finset.exists_ne_map_eq_of_card_lt_of_maps_to (by rw [Finset.card_range]; omega) hmaps
  obtain ⟨x, hx⟩ := hsome i hi
  obtain ⟨y, hy⟩ := hsome j hj
  rw [hx, hy] at heq
  obtain rfl : x = y := heq
  rcases Nat.lt_or_gt_of_ne hne' with hlt | hgt
  · exact h x (transGen_of_after hlt hx hy)
  · exact h x (transGen_of_after hgt hy hx)

/-- **The loop over a chain that ends comes to a result.** -/
theorem walk_isSome {visit : α → Option β} {k : Nat} {a : α} (h : after f k a = none) : (walk f visit k a).isSome := by
  induction k generalizing a with
  | zero => cases h
  | succ k ih =>
    unfold walk
    cases hv : visit a with
    | some b => rfl
    | none =>
      cases hf : f a with
      | none => rfl
      | some b =>
        refine ih ?_
        simpa [after, hf] using h

/-- A result of the loop is its result with more steps. -/
theorem walk_mono {visit : α → Option β} {n fuel : Nat} {a : α} {found : Option β} (h : walk f visit n a = some found)
    (hle : n ≤ fuel) : walk f visit fuel a = some found := by
  induction n generalizing a fuel with
  | zero => cases h
  | succ n ih =>
    obtain ⟨fuel, rfl⟩ : ∃ m, fuel = m + 1 := ⟨fuel - 1, by omega⟩
    unfold walk at h ⊢
    cases hv : visit a with
    | some b =>
      rw [hv] at h
      exact h
    | none =>
      rw [hv] at h
      cases hf : f a with
      | none =>
        rw [hf] at h
        exact h
      | some b =>
        rw [hf] at h
        exact ih h (Nat.le_of_succ_le_succ hle)

theorem exists_of_walk {visit : α → Option β} {fuel : Nat} {a : α} {b : β} (h : walk f visit fuel a = some (some b)) :
    ∃ c, visit c = some b := by
  induction fuel generalizing a with
  | zero => cases h
  | succ fuel ih =>
    unfold walk at h
    cases hv : visit a with
    | some b' =>
      rw [hv] at h
      cases h
      exact ⟨a, hv⟩
    | none =>
      rw [hv] at h
      cases hf : f a with
      | none =>
        rw [hf] at h
        cases h
      | some a' =>
        rw [hf] at h
        exact ih h

/-- The loop over a chain without an end goes on for ever, when nothing on the chain is what it looks for. -/
theorem walk_eq_none {visit : α → Option β} {a : α} (h : ¬ Ends f a) (hv : ∀ b, On f a b → visit b = none) (fuel : Nat) :
    walk f visit fuel a = none := by
  induction fuel generalizing a with
  | zero => rfl
  | succ fuel ih =>
    unfold walk
    rw [hv a .refl]
    cases hf : f a with
    | none => exact absurd ⟨1, by simp [after, hf]⟩ h
    | some b =>
      refine ih ?_ fun c hc => hv c (.head hf hc)
      rintro ⟨k, hk⟩
      exact h ⟨k + 1, by simpa [after, hf] using hk⟩

theorem not_ends_of_cycle {a : α} (h : Relation.TransGen (Next f) a a) : ¬ Ends f a := by
  rintro ⟨k, hk⟩
  induction k generalizing a with
  | zero => cases hk
  | succ k ih =>
    obtain ⟨b, hab, hba⟩ := Relation.TransGen.head'_iff.1 h
    have hcycle : Relation.TransGen (Next f) b b := Relation.TransGen.tail' hba hab
    refine ih hcycle ?_
    have hlink : f a = some b := hab
    simpa [after, hlink] using hk

/-! ## Relinking -/

section

variable [DecidableEq α]

/-- A way to `a` takes no link of `a`. -/
theorem on_of_agree {g : α → Option α} {a b : α} (hagree : ∀ x ≠ a, g x = f x) (h : On f b a) : On g b a := by
  induction h using Relation.ReflTransGen.head_induction_on with
  | refl => exact .refl
  | head hstep hrest ih =>
    rename_i x y
    by_cases hx : x = a
    · rw [hx]
      exact .refl
    · exact .head ((hagree x hx).trans hstep) ih

/-- Up to `a`, the link of `a` does not matter. -/
theorem on_update (a : α) (c : Option α) (b : α) : On (Function.update f a c) b a ↔ On f b a := by
  constructor
  · exact on_of_agree fun x hx => (Function.update_of_ne hx _ _).symm
  · exact on_of_agree fun x hx => Function.update_of_ne hx _ _

/-- A way over the new links either uses the old ones only, or goes through the new one. -/
theorem transGen_update {a b x y : α} (h : Relation.TransGen (Next (Function.update f a (some b))) x y) :
    Relation.TransGen (Next f) x y ∨
      On (Function.update f a (some b)) x a ∧ On (Function.update f a (some b)) b y := by
  induction h with
  | single hstep =>
    rename_i y
    by_cases hx : x = a
    · subst hx
      have hy : some b = some y := by simpa [Next] using hstep
      cases hy
      exact .inr ⟨.refl, .refl⟩
    · exact .inl (.single (by simpa [Next, Function.update_of_ne hx] using hstep))
  | tail hxy hstep ih =>
    rename_i y z
    rcases ih with hold | ⟨hxa, hby⟩
    · by_cases hy : y = a
      · subst hy
        have hz : some b = some z := by simpa [Next] using hstep
        cases hz
        exact .inr ⟨hxy.to_reflTransGen, .refl⟩
      · exact .inl (hold.tail (by simpa [Next, Function.update_of_ne hy] using hstep))
    · exact .inr ⟨hxa, hby.tail hstep⟩

/-- **Linking `a` to `b` makes a cycle exactly when `a` is on the chain of `b`.** -/
theorem acyclic_update (h : Acyclic f) {a b : α} : Acyclic (Function.update f a (some b)) ↔ ¬ On f b a := by
  have hlink : Next (Function.update f a (some b)) a b := by simp [Next]
  constructor
  · intro hnew hon
    exact hnew a (Relation.TransGen.head' hlink ((on_update a (some b) b).2 hon))
  · intro hon x hx
    rcases transGen_update hx with hold | ⟨hxa, hbx⟩
    · exact h x hold
    · exact hon ((on_update a (some b) b).1 (hbx.trans hxa))

/-- Ending a chain at `a` makes no cycle. -/
theorem acyclic_update_none (h : Acyclic f) (a : α) : Acyclic (Function.update f a none) := by
  intro x hx
  refine h x (Relation.TransGen.mono (fun y z hstep => ?_) x x hx)
  by_cases hy : y = a
  · simp [Next, hy] at hstep
  · simpa [Next, Function.update_of_ne hy] using hstep

end

/-- What is on a chain from inside a set that the links do not leave is in the set. -/
theorem On.mem {S : α → Prop} (hS : ∀ a, S a → ∀ b, f a = some b → S b) {a b : α} (ha : S a) (h : On f a b) : S b := by
  induction h with
  | refl => exact ha
  | tail _ hstep ih => exact hS _ ih _ hstep

end Chain
