import Mathlib.Tactic.Common
/-!
# Flat code

A machine steps through a list of instructions: at a place it goes on to another place, stops with an exception, or has
nothing to do.  Code `is` implements `m` when, wherever it stands among other code, a run from its first instruction does
what `m` does and ends behind its last one, or stops as `m` stops.  Implementations compose as the instructions are written
one behind the other (`Implements.seq`), and jumps over code make branches of them.
-/
namespace FlatCode

variable {ι S τ : Type*}

abbrev Step (ι S τ : Type*) := List ι → Nat → S → Option (Except τ (Nat × S))

/-- A run from a place to the place and the state it gets to, or to the exception it stops with. -/
inductive Runs (step : Step ι S τ) (code : List ι) : Nat × S → Except τ (Nat × S) → Prop where
  | here (c) : Runs step code c (.ok c)
  | stop {c t} (h : step code c.1 c.2 = some (.error t)) : Runs step code c (.error t)
  | next {c d r} (h : step code c.1 c.2 = some (.ok d)) (hr : Runs step code d r) : Runs step code c r

theorem Runs.trans {step : Step ι S τ} {code : List ι} {c d : Nat × S} {x r : Except τ (Nat × S)} (h : Runs step code c x)
    (hx : x = .ok d) (hr : Runs step code d r) : Runs step code c r := by
  induction h with
  | here c =>
    cases hx
    exact hr
  | stop h => cases hx
  | next h _ ih => exact .next h (ih hx)

/-- A run whose one step gives `x`. -/
theorem Runs.single {step : Step ι S τ} {code : List ι} {c : Nat × S} {x : Except τ (Nat × S)}
    (h : step code c.1 c.2 = some x) : Runs step code c x := by
  cases x with
  | error t => exact .stop h
  | ok d => exact .next h (.here d)

def arrive (pc : Nat) (x : Except τ S) : Except τ (Nat × S) := x.map fun σ => (pc, σ)

/-- **The code implements `m`.** -/
def Implements (step : Step ι S τ) (is : List ι) (m : S → Except τ S) : Prop :=
  ∀ pre post σ, Runs step (pre ++ is ++ post) (pre.length, σ) (arrive (pre.length + is.length) (m σ))

namespace Implements

variable {step : Step ι S τ} {is js : List ι} {m k : S → Except τ S}

theorem nil : Implements step [] (fun σ => .ok σ : S → Except τ S) := fun _ _ _ => .here _

/-- **One piece of code behind another.** -/
theorem seq (h : Implements step is m) (hk : Implements step js k) : Implements step (is ++ js) fun σ => m σ >>= k := by
  intro pre post σ
  have hm := h pre (js ++ post) σ
  rw [← List.append_assoc, List.append_assoc pre is js] at hm
  rw [List.length_append, ← Nat.add_assoc]
  show Runs step _ _ (arrive _ (m σ >>= k))
  cases hx : m σ with
  | error t =>
    rw [hx] at hm
    exact hm
  | ok ρ =>
    rw [hx] at hm
    refine hm.trans rfl ?_
    have hj := hk (pre ++ is) post ρ
    rw [List.append_assoc pre is js, List.length_append] at hj
    exact hj

theorem congr (h : Implements step is m) (hm : k = m) : Implements step is k := hm ▸ h

theorem single {i : ι}
    (h : ∀ pre post σ, step (pre ++ i :: post) pre.length σ = some (arrive (pre.length + 1) (m σ))) :
    Implements step [i] m := by
  intro pre post σ
  rw [List.append_assoc]
  exact .single (h pre post σ)

/-- Where a test goes on: at the next place but one, or `skip` places further. -/
def decide (pc skip : Nat) (x : Except τ (Bool × S)) : Except τ (Nat × S) :=
  x.map fun r => (bif r.1 then pc + 2 else pc + 2 + skip, r.2)

def branch (test : S → Except τ (Bool × S)) (m k : S → Except τ S) (σ : S) : Except τ S :=
  test σ >>= fun r => bif r.1 then m r.2 else k r.2

variable {test : S → Except τ (Bool × S)} {t j : ι}

/-- **A test that jumps over code.** -/
theorem skip (ht : ∀ pre post σ, step (pre ++ t :: j :: post) pre.length σ = some (decide pre.length is.length (test σ)))
    (h : Implements step is m) : Implements step (t :: j :: is) (branch test m fun σ => .ok σ) := by
  intro pre post σ
  have hstep : step (pre ++ (t :: j :: is) ++ post) pre.length σ = some (decide pre.length is.length (test σ)) := by
    rw [List.append_assoc]
    exact ht pre (is ++ post) σ
  rw [branch]
  cases hx : test σ with
  | error e =>
    rw [hx] at hstep
    exact .stop hstep
  | ok r =>
    rw [hx] at hstep
    refine .next hstep ?_
    obtain ⟨b, ρ⟩ := r
    cases b with
    | false =>
      show Runs step _ (pre.length + 2 + is.length, ρ) (.ok (pre.length + (is.length + 2), ρ))
      rw [show pre.length + (is.length + 2) = pre.length + 2 + is.length by omega]
      exact .here _
    | true =>
      have hm := h (pre ++ [t, j]) post ρ
      rw [List.append_assoc pre] at hm
      simp only [List.length_append, List.length_cons, List.length_nil] at hm
      show Runs step _ (pre.length + 2, ρ) (arrive (pre.length + (is.length + 2)) (m ρ))
      rw [show pre.length + (is.length + 2) = pre.length + 2 + is.length by omega]
      exact hm

variable {j' : ι}

end Implements

end FlatCode
