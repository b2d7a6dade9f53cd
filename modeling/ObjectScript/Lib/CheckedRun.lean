import Mathlib.Tactic.Common
/-!
# Checked runs

A step function that may fail, taken over a list of operations: the run goes on as long as each operation is allowed in the
state that it finds.  What the allowed steps keep holds after the run.

The check is a decidable proposition of the state and the operation, so that a run on given operations can be computed.
-/
namespace CheckedRun

variable {S A : Type*} (step : S → A → Option S) (Allowed : S → A → Prop) [∀ s a, Decidable (Allowed s a)]

/-- The state after the operations, if every one is allowed and its step is taken. -/
def run : S → List A → Option S
  | s, [] => some s
  | s, a :: as => if Allowed s a then (step s a).bind (run · as) else none

variable {step Allowed}

theorem run_cons {s t : S} {a : A} {as : List A} (h : run step Allowed s (a :: as) = some t) :
    Allowed s a ∧ ∃ u, step s a = some u ∧ run step Allowed u as = some t := by
  unfold run at h
  split at h
  · rename_i ha
    exact ⟨ha, Option.bind_eq_some_iff.1 h⟩
  · cases h

/-- **What every allowed step keeps holds after a run.** -/
theorem run_keeps {P : S → Prop} (hstep : ∀ s a t, P s → Allowed s a → step s a = some t → P t) :
    ∀ (as : List A) {s t : S}, P s → run step Allowed s as = some t → P t
  | [], _, _, hs, h => by
    cases h
    exact hs
  | _ :: as, _, _, hs, h => by
    obtain ⟨ha, u, hu, hrest⟩ := run_cons h
    exact run_keeps hstep as (hstep _ _ u hs ha hu) hrest

end CheckedRun
