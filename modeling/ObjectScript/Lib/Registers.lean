import Mathlib.Tactic.Common
/-!
# Code over a frame and temporaries

A machine has a frame, which computations of the source language work on, and temporaries numbered from zero, which only
the code knows.  Code `m` realises a computation `x` from the height `s` on when it does to the frame what `x` does, stops
where `x` stops, leaves the temporaries below `s` alone, and `P` holds of what `x` gives and of the machine afterwards.
Realisations compose as the computations do (`Realises.bind`), and what holds of the temporaries below `s` goes on to hold
(`Realises.frame`).
-/
namespace Registers

universe u

variable {φ ν τ : Type*} {α β : Type u}

structure State (φ ν : Type*) where
  frame : φ
  temps : Nat → ν

/-- A computation of the source language: it stops, or it gives a value and the frame behind it. -/
abbrev Comp (φ τ α : Type*) := φ → Except τ (α × φ)

abbrev Run (φ ν τ : Type*) := State φ ν → Except τ (State φ ν)

namespace Comp

def pure (a : α) : Comp φ τ α := fun f => .ok (a, f)

def bind (x : Comp φ τ α) (y : α → Comp φ τ β) : Comp φ τ β := fun f =>
  match x f with
  | .error t => .error t
  | .ok (a, g) => y a g

instance : Monad (Comp φ τ) where
  pure := Comp.pure
  bind := Comp.bind

def read (g : φ → α) : Comp φ τ α := fun f => .ok (g f, f)

def modify (g : φ → φ) : Comp φ τ PUnit := fun f => .ok (⟨⟩, g f)

theorem bind_apply (x : Comp φ τ α) (y : α → Comp φ τ β) (f : φ) : (x >>= y) f = Comp.bind x y f := rfl

theorem bind_ok {x : Comp φ τ α} {y : α → Comp φ τ β} {f : φ} {r : β × φ} (h : (x >>= y) f = .ok r) :
    ∃ a g, x f = .ok (a, g) ∧ y a g = .ok r := by
  rw [bind_apply, Comp.bind] at h
  cases hx : x f with
  | error t =>
    rw [hx] at h
    cases h
  | ok p =>
    rw [hx] at h
    exact ⟨p.1, p.2, rfl, h⟩

theorem bind_error {x : Comp φ τ α} {y : α → Comp φ τ β} {f : φ} {t : τ} (h : (x >>= y) f = .error t) :
    x f = .error t ∨ ∃ a g, x f = .ok (a, g) ∧ y a g = .error t := by
  rw [bind_apply, Comp.bind] at h
  cases hx : x f with
  | error t' =>
    rw [hx] at h
    obtain rfl : t' = t := Except.error.inj h
    exact .inl rfl
  | ok p =>
    rw [hx] at h
    exact .inr ⟨p.1, p.2, rfl, h⟩

theorem bind_of_ok {x : Comp φ τ α} {y : α → Comp φ τ β} {f g : φ} {a : α} (h : x f = .ok (a, g)) : (x >>= y) f = y a g := by
  rw [bind_apply, Comp.bind, h]

theorem bind_of_error {x : Comp φ τ α} {y : α → Comp φ τ β} {f : φ} {t : τ} (h : x f = .error t) : (x >>= y) f = .error t := by
  rw [bind_apply, Comp.bind, h]

instance : LawfulMonad (Comp φ τ) := by
  refine LawfulMonad.mk' _ (fun x => ?_) (fun a y => ?_) (fun x y z => ?_)
  · funext f
    show Comp.bind x (fun a => Comp.pure (id a)) f = x f
    unfold Comp.bind
    cases x f <;> rfl
  · rfl
  · funext f
    show Comp.bind (Comp.bind x y) z f = Comp.bind x (fun a => Comp.bind (y a) z) f
    simp only [Comp.bind]
    cases x f <;> rfl

theorem map_of_ok {x : Comp φ τ α} {k : α → β} {f g : φ} {a : α} (h : x f = .ok (a, g)) : (k <$> x) f = .ok (k a, g) := by
  rw [← bind_pure_comp, bind_of_ok h]
  rfl

theorem map_of_error {x : Comp φ τ α} {k : α → β} {f : φ} {t : τ} (h : x f = .error t) : (k <$> x) f = .error t := by
  rw [← bind_pure_comp, bind_of_error h]

end Comp

def Run.seq (m k : Run φ ν τ) : Run φ ν τ := fun σ => m σ >>= k

theorem Run.seq_of_ok {m k : Run φ ν τ} {σ ρ : State φ ν} (h : m σ = .ok ρ) : m.seq k σ = k ρ := by
  rw [Run.seq, h]
  rfl

theorem Run.seq_of_error {m k : Run φ ν τ} {σ : State φ ν} {t : τ} (h : m σ = .error t) : m.seq k σ = .error t := by
  rw [Run.seq, h]
  rfl

def Run.done : Run φ ν τ := fun σ => .ok σ

theorem Run.seq_done (m : Run φ ν τ) : m.seq Run.done = m := by
  funext σ
  cases h : m σ with
  | error t => exact Run.seq_of_error h
  | ok ρ => exact Run.seq_of_ok h

theorem Run.done_seq (m : Run φ ν τ) : Run.done.seq m = m := rfl

theorem Run.seq_assoc (m k l : Run φ ν τ) : (m.seq k).seq l = m.seq (k.seq l) := by
  funext σ
  cases h : m σ with
  | error t => rw [Run.seq_of_error (Run.seq_of_error h), Run.seq_of_error h]
  | ok ρ =>
    rw [Run.seq_of_ok h, Run.seq, Run.seq_of_ok h]
    rfl

/-- The frame does what `x` does, and the temporaries take its value in. -/
def Run.keep (x : Comp φ τ α) (k : α → (Nat → ν) → Nat → ν) : Run φ ν τ := fun σ =>
  match x σ.frame with
  | .error t => .error t
  | .ok (a, f) => .ok ⟨f, k a σ.temps⟩

theorem Run.keep_of_ok {x : Comp φ τ α} {k : α → (Nat → ν) → Nat → ν} {σ : State φ ν} {a : α} {f : φ}
    (h : x σ.frame = .ok (a, f)) : Run.keep x k σ = .ok ⟨f, k a σ.temps⟩ := by
  rw [Run.keep, h]

theorem Run.keep_of_error {x : Comp φ τ α} {k : α → (Nat → ν) → Nat → ν} {σ : State φ ν} {t : τ}
    (h : x σ.frame = .error t) : Run.keep x k σ = .error t := by
  rw [Run.keep, h]

/-- One of two pieces of code, as a test of the state says. -/
def Run.branch (test : State φ ν → Bool) (m k : Run φ ν τ) : Run φ ν τ := fun σ => bif test σ then m σ else k σ

/-- **`m` realises `x`** from states with `P`, above the temporaries below `s`. -/
structure Realises (s : Nat) (P : State φ ν → Prop) (x : Comp φ τ α) (m : Run φ ν τ) (Q : α → State φ ν → Prop) : Prop where
  stops : ∀ σ t, P σ → x σ.frame = .error t → m σ = .error t
  gives : ∀ σ a f, P σ → x σ.frame = .ok (a, f) →
    ∃ T, m σ = .ok ⟨f, T⟩ ∧ (∀ i < s, T i = σ.temps i) ∧ Q a ⟨f, T⟩

namespace Realises

variable {s s' : Nat} {P P' : State φ ν → Prop} {x : Comp φ τ α} {y : α → Comp φ τ β} {m k : Run φ ν τ}
  {Q S : α → State φ ν → Prop} {R : β → State φ ν → Prop}

theorem conseq (h : Realises s P x m Q) (hP : ∀ σ, P' σ → P σ) (hQ : ∀ a σ, Q a σ → S a σ) (hs : s' ≤ s) :
    Realises s' P' x m S := by
  refine ⟨fun σ t hσ hx => h.stops σ t (hP σ hσ) hx, fun σ a f hσ hx => ?_⟩
  obtain ⟨T, hm, hT, hq⟩ := h.gives σ a f (hP σ hσ) hx
  exact ⟨T, hm, fun i hi => hT i (Nat.lt_of_lt_of_le hi hs), hQ a _ hq⟩

theorem post (h : Realises s P x m Q) (hQ : ∀ a σ, Q a σ → S a σ) : Realises s P x m S := h.conseq (fun _ h => h) hQ (Nat.le_refl _)

theorem below (h : Realises s P x m Q) (hs : s' ≤ s) : Realises s' P x m Q := h.conseq (fun _ h => h) (fun _ _ h => h) hs

/-- **One computation after the other.** -/
theorem bind (h : Realises s P x m Q) (hk : ∀ a, Realises s (Q a) (y a) k R) : Realises s P (x >>= y) (m.seq k) R := by
  refine ⟨fun σ t hσ ht => ?_, fun σ b f hσ hb => ?_⟩
  · rcases Comp.bind_error ht with hx | ⟨a, g, hx, hy⟩
    · exact Run.seq_of_error (h.stops σ t hσ hx)
    · obtain ⟨T, hm, -, hq⟩ := h.gives σ a g hσ hx
      rw [Run.seq_of_ok hm]
      exact (hk a).stops ⟨g, T⟩ t hq hy
  · obtain ⟨a, g, hx, hy⟩ := Comp.bind_ok hb
    obtain ⟨T, hm, hT, hq⟩ := h.gives σ a g hσ hx
    obtain ⟨T', hk', hT', hr⟩ := (hk a).gives ⟨g, T⟩ b f hq hy
    rw [Run.seq_of_ok hm]
    exact ⟨T', hk', fun i hi => (hT' i hi).trans (hT i hi), hr⟩

/-- **What holds of the temporaries below `s` goes on to hold.** -/
theorem frame {K : (Nat → ν) → Prop} (h : Realises s P x m Q) (hK : ∀ T T' : Nat → ν, (∀ i < s, T' i = T i) → K T → K T') :
    Realises s (fun σ => P σ ∧ K σ.temps) x m (fun a σ => Q a σ ∧ K σ.temps) := by
  refine ⟨fun σ t hσ hx => h.stops σ t hσ.1 hx, fun σ a f hσ hx => ?_⟩
  obtain ⟨T, hm, hT, hq⟩ := h.gives σ a f hσ.1 hx
  exact ⟨T, hm, hT, hq, hK _ _ hT hσ.2⟩

/-- Code that begins higher up, behind code that left `K`. -/
theorem after {K : (Nat → ν) → Prop} (h : Realises s' (fun _ => True) x m Q) (hs : s ≤ s')
    (hK : ∀ T T' : Nat → ν, (∀ i < s', T' i = T i) → K T → K T') :
    Realises s (fun σ => K σ.temps) x m (fun a σ => Q a σ ∧ K σ.temps) :=
  (h.frame hK).conseq (fun _ hσ => ⟨trivial, hσ⟩) (fun _ _ hq => hq) hs

/-- A value goes to its place when nothing else is to do. -/
theorem pure {a : α} (hQ : ∀ σ, P σ → Q a σ) : Realises s P (Pure.pure a) (fun σ => .ok σ : Run φ ν τ) Q := by
  refine ⟨?_, ?_⟩
  · rintro σ t - ⟨⟩
  · rintro σ b f hσ ⟨⟩
    exact ⟨σ.temps, rfl, fun _ _ => rfl, hQ σ hσ⟩

theorem congr {x' : Comp φ τ α} (h : Realises s P x m Q) (hx : x' = x) : Realises s P x' m Q := hx ▸ h

theorem congr_run (h : Realises s P x m Q) (hm : k = m) : Realises s P x k Q := hm ▸ h

/-- **One instruction**: from the states it starts in it is `x` with its value taken in, above the temporaries below `s`. -/
theorem keep {k : α → (Nat → ν) → Nat → ν} (hm : ∀ σ, P σ → m σ = Run.keep x k σ) (hk : ∀ a T, ∀ i < s, k a T i = T i)
    (hQ : ∀ σ a f, P σ → x σ.frame = .ok (a, f) → Q a ⟨f, k a σ.temps⟩) : Realises s P x m Q := by
  refine ⟨fun σ t hσ hx => ?_, fun σ a f hσ hx => ?_⟩
  · rw [hm σ hσ, Run.keep_of_error hx]
  · rw [hm σ hσ, Run.keep_of_ok hx]
    exact ⟨_, rfl, hk a σ.temps, hQ σ a f hσ hx⟩

theorem branch {test : State φ ν → Bool} {b : Bool} (ht : ∀ σ, P σ → test σ = b) (hm : b = true → Realises s P x m Q)
    (hk : b = false → Realises s P x k Q) : Realises s P x (Run.branch test m k) Q := by
  cases b with
  | true =>
    refine ⟨fun σ t hσ hx => ?_, fun σ a f hσ hx => ?_⟩
    · rw [Run.branch, ht σ hσ]
      exact (hm rfl).stops σ t hσ hx
    · rw [Run.branch, ht σ hσ]
      exact (hm rfl).gives σ a f hσ hx
  | false =>
    refine ⟨fun σ t hσ hx => ?_, fun σ a f hσ hx => ?_⟩
    · rw [Run.branch, ht σ hσ]
      exact (hk rfl).stops σ t hσ hx
    · rw [Run.branch, ht σ hσ]
      exact (hk rfl).gives σ a f hσ hx

/-- What the code realises may be looked at through the frame it ends in. -/
theorem reads (h : Realises s P x m Q) (g : α → φ → β) (hR : ∀ a σ, Q a σ → R (g a σ.frame) σ) :
    Realises s P (x >>= fun a => Comp.read (g a)) m R := by
  refine ⟨fun σ t hσ ht => ?_, fun σ b f hσ hb => ?_⟩
  · rcases Comp.bind_error ht with hx | ⟨a, f', -, hy⟩
    · exact h.stops σ t hσ hx
    · cases hy
  · obtain ⟨a, f', hx, hy⟩ := Comp.bind_ok hb
    obtain ⟨T, hm, hT, hq⟩ := h.gives σ a f' hσ hx
    cases hy
    exact ⟨T, hm, hT, hR a _ hq⟩

theorem map (h : Realises s P x m Q) (g : α → β) (hR : ∀ a σ, Q a σ → R (g a) σ) :
    Realises s P (x >>= fun a => Pure.pure (g a)) m R := h.reads (fun a _ => g a) hR

end Realises

/-- Code that goes on with one of two pieces of code, as `x` says. -/
structure Decides (s : Nat) (x : Comp φ τ Bool) (d : Run φ ν τ → Run φ ν τ → Run φ ν τ) : Prop where
  stops : ∀ σ t m k, x σ.frame = .error t → d m k σ = .error t
  gives : ∀ σ b f, x σ.frame = .ok (b, f) → ∃ T, (∀ i < s, T i = σ.temps i) ∧ ∀ m k, d m k σ = (bif b then m else k) ⟨f, T⟩

theorem Realises.decides {s : Nat} {x : Comp φ τ Bool} {m : Run φ ν τ} {test : State φ ν → Bool}
    (h : Realises s (fun _ => True) x m fun b σ => test σ = b) : Decides s x fun k l => m.seq (Run.branch test k l) := by
  refine ⟨fun σ t k l hx => Run.seq_of_error (h.stops σ t trivial hx), fun σ b f hb => ?_⟩
  obtain ⟨T, hm, hT, ht⟩ := h.gives σ b f trivial hb
  refine ⟨T, hT, fun k l => ?_⟩
  rw [Run.seq_of_ok hm, Run.branch, ht]
  cases b <;> rfl

/-- **A decision, and what follows from each answer.** -/
theorem Decides.bind {s : Nat} {x : Comp φ τ Bool} {d : Run φ ν τ → Run φ ν τ → Run φ ν τ} {β : Type} {y : Bool → Comp φ τ β}
    {m k : Run φ ν τ} {R : β → State φ ν → Prop} (h : Decides s x d) (hm : Realises s (fun _ => True) (y true) m R)
    (hk : Realises s (fun _ => True) (y false) k R) : Realises s (fun _ => True) (x >>= y) (d m k) R := by
  have hbranch : ∀ b, Realises s (fun _ => True) (y b) (bif b then m else k) R := by
    intro b
    cases b with
    | true => exact hm
    | false => exact hk
  refine ⟨fun σ t _ ht => ?_, fun σ a f _ ha => ?_⟩
  · rcases Comp.bind_error ht with hx | ⟨b, g, hx, hy⟩
    · exact h.stops σ t m k hx
    · obtain ⟨T, -, hd⟩ := h.gives σ b g hx
      rw [hd]
      exact (hbranch b).stops ⟨g, T⟩ t trivial hy
  · obtain ⟨b, g, hx, hy⟩ := Comp.bind_ok ha
    obtain ⟨T, hT, hd⟩ := h.gives σ b g hx
    obtain ⟨T', hk', hT', hr⟩ := (hbranch b).gives ⟨g, T⟩ a f trivial hy
    rw [hd]
    exact ⟨T', hk', fun i hi => (hT' i hi).trans (hT i hi), hr⟩

end Registers
