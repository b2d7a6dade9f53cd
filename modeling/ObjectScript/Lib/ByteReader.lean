import Mathlib.Computability.Language
/-!
# Readers of a sequence

A reader takes what it reads off the front of its input, or fails.  `Reads p a w` says that `p` takes exactly `w` from any
input that begins with it, and gives `a`: readers compose as the words do (`Reads.bind`).  `Parses p ok val L` says what `p` reads at
all: the words of `L x` for the `x` that are `ok`, each of them as `val x`.
-/
namespace ByteReader

variable {β ε α γ : Type}

abbrev Reader (β ε α : Type) := StateT (List β) (Except ε) α

def Reads (p : Reader β ε α) (a : α) (w : List β) : Prop := ∀ rest, p.run (w ++ rest) = .ok (a, rest)

def Parses {X : Type} (p : Reader β ε α) (ok : X → Prop) (val : X → α) (L : X → Language β) : Prop :=
  ∀ input a rest, p.run input = .ok (a, rest) ↔ ∃ x, ok x ∧ val x = a ∧ ∃ w ∈ L x, input = w ++ rest

def fail (e : ε) : Reader β ε α := fun _ => .error e

/-- A reader that reads nothing and goes on if `c`. -/
def check (c : Prop) [Decidable c] (e : ε) : Reader β ε Unit := if c then pure () else fail e

/-- The elements that `n` runs of `p` read, from the first on. -/
def many (p : Reader β ε α) : Nat → Reader β ε (List α)
  | 0 => pure []
  | n + 1 => do
    let a ← p
    let as ← many p n
    return a :: as

theorem run_bind_ok {p : Reader β ε α} {f : α → Reader β ε γ} {input rest : List β} {c : γ} :
    (p >>= f).run input = .ok (c, rest) ↔ ∃ a mid, p.run input = .ok (a, mid) ∧ (f a).run mid = .ok (c, rest) := by
  rw [StateT.run_bind]
  cases h : p.run input with
  | error e =>
    constructor
    · intro hb; cases hb
    · rintro ⟨a, mid, ha, -⟩; cases ha
  | ok r =>
    constructor
    · exact fun hb => ⟨r.1, r.2, rfl, hb⟩
    · rintro ⟨a, mid, ha, hb⟩; cases ha; exact hb

theorem run_pure_ok {a c : α} {input rest : List β} :
    (pure a : Reader β ε α).run input = .ok (c, rest) ↔ c = a ∧ rest = input := by
  constructor
  · intro h; cases h; exact ⟨rfl, rfl⟩
  · rintro ⟨rfl, rfl⟩; rfl

theorem run_check_ok {c : Prop} [Decidable c] {e : ε} {input rest : List β} {u : Unit} :
    (check c e : Reader β ε Unit).run input = .ok (u, rest) ↔ c ∧ rest = input := by
  unfold check
  by_cases hc : c
  · rw [if_pos hc, run_pure_ok]
    exact ⟨fun h => ⟨hc, h.2⟩, fun h => ⟨rfl, h.2⟩⟩
  · rw [if_neg hc]
    constructor
    · intro h; cases h
    · exact fun h => absurd h.1 hc

theorem Reads.pure (a : α) : Reads (Pure.pure a : Reader β ε α) a [] := fun _ => rfl

theorem Reads.bind {p : Reader β ε α} {f : α → Reader β ε γ} {a : α} {c : γ} {u v : List β} (hp : Reads p a u)
    (hf : Reads (f a) c v) : Reads (p >>= f) c (u ++ v) := fun rest =>
  run_bind_ok.2 ⟨a, v ++ rest, by rw [List.append_assoc]; exact hp (v ++ rest), hf rest⟩

theorem Reads.check {c : Prop} [Decidable c] (e : ε) (hc : c) : Reads (ByteReader.check c e : Reader β ε Unit) () [] :=
  fun _ => run_check_ok.2 ⟨hc, rfl⟩

theorem Reads.bind_nil {p : Reader β ε α} {f : α → Reader β ε γ} {a : α} {c : γ} {v : List β} (hp : Reads p a [])
    (hf : Reads (f a) c v) : Reads (p >>= f) c v := hp.bind hf

theorem Reads.bind_last {p : Reader β ε α} {f : α → Reader β ε γ} {a : α} {c : γ} {u : List β} (hp : Reads p a u)
    (hf : Reads (f a) c []) : Reads (p >>= f) c u := fun rest => run_bind_ok.2 ⟨a, rest, hp rest, hf rest⟩

theorem Reads.bind_pure {p : Reader β ε α} {a : α} {u : List β} (hp : Reads p a u) (f : α → γ) :
    Reads (p >>= fun x => Pure.pure (f x)) (f a) u := hp.bind_last (Reads.pure (f a))

theorem Reads.many {p : Reader β ε α} {word : γ → List β} {val : γ → α} :
    ∀ {xs : List γ}, (∀ x ∈ xs, Reads p (val x) (word x)) →
      Reads (many p xs.length) (xs.map val) (xs.flatMap word)
  | [], _ => Reads.pure []
  | x :: xs, h => by
    rw [List.flatMap_cons]
    refine (h x List.mem_cons_self).bind ?_
    exact (Reads.many (fun y hy => h y (List.mem_cons_of_mem _ hy))).bind_pure (val x :: ·)

section

variable {X : Type} {p : Reader β ε α} {ok : X → Prop} {val : X → α} {L : X → Language β}

theorem Parses.reads (h : Parses p ok val L) {x : X} (hx : ok x) {w : List β} (hw : w ∈ L x) : Reads p (val x) w :=
  fun rest => (h _ _ rest).2 ⟨x, hx, rfl, w, hw, rfl⟩

/-- What was read first when a reader goes on after `p`. -/
theorem Parses.step (h : Parses p ok val L) {f : α → Reader β ε γ} {input rest : List β} {c : γ}
    (hr : (p >>= f).run input = .ok (c, rest)) :
    ∃ x w mid, ok x ∧ w ∈ L x ∧ input = w ++ mid ∧ (f (val x)).run mid = .ok (c, rest) := by
  obtain ⟨a, mid, ha, hf⟩ := run_bind_ok.1 hr
  obtain ⟨x, hx, rfl, w, hw, rfl⟩ := (h _ _ _).1 ha
  exact ⟨x, w, mid, hx, hw, rfl, hf⟩

theorem check_step {c : Prop} [Decidable c] {e : ε} {f : Unit → Reader β ε γ} {input rest : List β} {d : γ}
    (hr : (check c e >>= f).run input = .ok (d, rest)) : c ∧ (f ()).run input = .ok (d, rest) := by
  obtain ⟨⟨⟩, mid, hcheck, hf⟩ := run_bind_ok.1 hr
  obtain ⟨hc, hmid⟩ := run_check_ok.1 hcheck
  rw [hmid] at hf
  exact ⟨hc, hf⟩

theorem many_step {n : Nat} {input rest : List β} {as : List α} (hr : (many p (n + 1)).run input = .ok (as, rest)) :
    ∃ a as' mid, p.run input = .ok (a, mid) ∧ (many p n).run mid = .ok (as', rest) ∧ as = a :: as' := by
  obtain ⟨a, mid, ha, hr⟩ := run_bind_ok.1 hr
  obtain ⟨as', mid', has, hr⟩ := run_bind_ok.1 hr
  obtain ⟨rfl, rfl⟩ := run_pure_ok.1 hr
  exact ⟨a, as', mid, ha, has, rfl⟩

theorem reads_prod (h : Parses p ok val L) : ∀ {xs : List X} {w : List β}, (∀ x ∈ xs, ok x) → w ∈ (xs.map L).prod →
    Reads (many p xs.length) (xs.map val) w
  | [], w, _, hw => by
    rw [Language.mem_one w |>.1 hw]
    exact Reads.pure []
  | x :: xs, w, hok, hw => by
    obtain ⟨u, hu, v, hv, rfl⟩ := Language.mem_mul.1 hw
    refine (h.reads (hok x List.mem_cons_self) hu).bind ?_
    exact (reads_prod h (fun y hy => hok y (List.mem_cons_of_mem _ hy)) hv).bind_pure (val x :: ·)

theorem Parses.many (h : Parses p ok val L) (n : Nat) :
    Parses (many p n) (fun xs : List X => xs.length = n ∧ ∀ x ∈ xs, ok x) (List.map val) fun xs => (xs.map L).prod := by
  intro input as rest
  constructor
  · induction n generalizing input as with
    | zero =>
      intro hr
      obtain ⟨rfl, rfl⟩ := run_pure_ok.1 hr
      exact ⟨[], ⟨rfl, by rintro x ⟨⟩⟩, rfl, [], Language.nil_mem_one, rfl⟩
    | succ n ih =>
      intro hr
      obtain ⟨a, as', mid, ha, has, rfl⟩ := many_step hr
      obtain ⟨x, hx, rfl, w, hw, rfl⟩ := (h _ _ _).1 ha
      obtain ⟨xs, ⟨hlen, hok⟩, rfl, ws, hws, rfl⟩ := ih _ _ has
      refine ⟨x :: xs, ⟨by rw [List.length_cons, hlen], ?_⟩, rfl, w ++ ws, ?_, (List.append_assoc _ _ _).symm⟩
      · intro y hy
        rcases List.mem_cons.1 hy with rfl | hy
        · exact hx
        · exact hok y hy
      · exact Language.append_mem_mul hw hws
  · rintro ⟨xs, ⟨rfl, hok⟩, rfl, w, hw, rfl⟩
    exact reads_prod h hok hw rest

end

end ByteReader
