import Mathlib.Data.List.Basic
import Mathlib.Data.List.Nodup
import Mathlib.Data.List.Perm.Basic
import Mathlib.Logic.Function.Basic
import Mathlib.Tactic.Common
/-!
# Linked cells

A link field gives every cell the cell it points to, or nothing.  `Trail f p cs q` says that following `f` from `p`
meets exactly the cells `cs` and then stands at `q`; a chain is a trail to `none`.  Writing the field of a cell that is
not on a trail leaves it alone (`trail_update`), so pushing a cell in front of a chain (`trail_push`), appending one
(`trail_snoc`) and taking one out (`chain_remove`) are read off the list of cells.

A doubly linked list is two such chains, one the reverse of the other (`Doubly`).  A row of chains whose cells are
sorted by a slot is a `Buckets`; `walk` searches a chain with a bound on its steps.
-/
namespace Links

variable {ρ : Type*}

abbrev LinkField (ρ : Type*) := ρ → Option ρ

/-- **Following `f` from `p` meets the cells `cs` and then stands at `q`.** -/
def Trail (f : LinkField ρ) : Option ρ → List ρ → Option ρ → Prop
  | p, [], q => p = q
  | p, c :: cs, q => p = some c ∧ Trail f (f c) cs q

abbrev Chain (f : LinkField ρ) (p : Option ρ) (cs : List ρ) : Prop := Trail f p cs none

theorem trail_append (f : LinkField ρ) : ∀ (p : Option ρ) (cs ds : List ρ) (q : Option ρ),
    Trail f p (cs ++ ds) q ↔ ∃ m, Trail f p cs m ∧ Trail f m ds q
  | p, [], ds, q => by simp [Trail]
  | p, c :: cs, ds, q => by simp [Trail, trail_append f (f c) cs ds q, and_assoc]

theorem trail_congr {f g : LinkField ρ} : ∀ {p : Option ρ} {cs : List ρ} {q : Option ρ}, (∀ c ∈ cs, f c = g c) →
    (Trail f p cs q ↔ Trail g p cs q)
  | p, [], q, _ => Iff.rfl
  | p, c :: cs, q, h => by
    rw [Trail, Trail, h c List.mem_cons_self, trail_congr fun d hd => h d (List.mem_cons_of_mem _ hd)]

theorem chain_unique {f : LinkField ρ} : ∀ {p : Option ρ} {cs ds : List ρ}, Chain f p cs → Chain f p ds → cs = ds
  | _, [], [], _, _ => rfl
  | _, [], d :: ds, h, ⟨h', _⟩ => by rw [h] at h'; cases h'
  | _, c :: cs, [], ⟨h', _⟩, h => by rw [h] at h'; cases h'
  | _, c :: cs, d :: ds, ⟨h, hc⟩, ⟨h', hd⟩ => by
    rw [h] at h'
    cases h'
    rw [chain_unique hc hd]

/-- The rest of a chain from one of its cells is shorter than what comes before it, so no cell is met twice. -/
theorem chain_nodup {f : LinkField ρ} : ∀ {p : Option ρ} {cs : List ρ}, Chain f p cs → cs.Nodup
  | _, [], _ => List.nodup_nil
  | p, c :: cs, ⟨hp, hc⟩ => by
    refine List.nodup_cons.2 ⟨fun hmem => ?_, chain_nodup hc⟩
    obtain ⟨xs, ys, rfl⟩ := List.append_of_mem hmem
    obtain ⟨m, -, hm, hys⟩ := (trail_append f _ _ _ _).1 hc
    have := chain_unique hc hys
    have hlen := congrArg List.length this
    simp only [List.length_append, List.length_cons] at hlen
    omega

theorem chain_cons {f : LinkField ρ} {c : ρ} {cs : List ρ} (h : Chain f (some c) cs) :
    ∃ ds, cs = c :: ds ∧ Chain f (f c) ds := by
  cases cs with
  | nil => cases h
  | cons d ds =>
    obtain ⟨hd, h⟩ := h
    cases hd
    exact ⟨ds, rfl, h⟩

theorem chain_head {f : LinkField ρ} : ∀ {p : Option ρ} {cs : List ρ}, Chain f p cs → p = cs.head?
  | _, [], h => h
  | _, _ :: _, h => h.1

theorem chain_get {f : LinkField ρ} {p : Option ρ} {xs ys : List ρ} {c : ρ} (h : Chain f p (xs ++ c :: ys)) :
    f c = ys.head? := by
  obtain ⟨m, -, -, hys⟩ := (trail_append f _ _ _ _).1 h
  exact chain_head hys

/-! ## Writing a field -/

variable [DecidableEq ρ]

theorem trail_update {f : LinkField ρ} {c : ρ} {v p : Option ρ} {cs : List ρ} {q : Option ρ} (hc : c ∉ cs) :
    Trail (Function.update f c v) p cs q ↔ Trail f p cs q := by
  refine trail_congr fun d hd => Function.update_of_ne ?_ _ _
  rintro rfl
  exact hc hd

theorem trail_push {f : LinkField ρ} {c : ρ} {p q : Option ρ} {cs : List ρ} (hc : c ∉ cs) (h : Trail f p cs q) :
    Trail (Function.update f c p) (some c) (c :: cs) q :=
  ⟨rfl, by rw [Function.update_self]; exact (trail_update hc).2 h⟩

/-- A new cell at the end: the last cell, if there is one, is written to point to it. -/
theorem trail_snoc {f : LinkField ρ} {c d : ρ} {p : Option ρ} {cs : List ρ} (hd : d ∉ cs ++ [c])
    (h : Chain f p (cs ++ [c])) (hf : f d = none) : Chain (Function.update f c (some d)) p (cs ++ [c] ++ [d]) := by
  have hnd := chain_nodup h
  obtain ⟨m, hcs, hm, -⟩ := (trail_append f _ _ _ _).1 h
  have hc : c ∉ cs := fun hmem => (List.disjoint_of_nodup_append hnd) hmem List.mem_cons_self
  have hne : d ≠ c := fun h => hd (by simp [h])
  rw [List.append_assoc]
  refine (trail_append _ _ _ _ _).2 ⟨m, (trail_update hc).2 hcs, hm, ?_⟩
  rw [Function.update_self]
  exact ⟨rfl, by rw [Function.update_of_ne hne]; exact hf⟩

/-- The field once `c` is taken out after `b`, if there is a cell before it. -/
def bypass (f : LinkField ρ) (b : Option ρ) (c : ρ) : LinkField ρ :=
  match b with
  | none => f
  | some b => Function.update f b (f c)

def bypassHead (f : LinkField ρ) (p b : Option ρ) (c : ρ) : Option ρ :=
  match b with
  | none => f c
  | some _ => p

theorem bypass_of_not_mem {f : LinkField ρ} {b : Option ρ} {c d : ρ} (h : ∀ e, b = some e → d ≠ e) :
    bypass f b c d = f d := by
  cases b with
  | none => rfl
  | some b => exact Function.update_of_ne (h b rfl) _ _

/-- **Taking a cell out**: what pointed to it, a cell or the head, is written to point to what it points to. -/
theorem chain_remove {f : LinkField ρ} {p : Option ρ} {c : ρ} {xs ys : List ρ} (h : Chain f p (xs ++ c :: ys)) :
    Chain (bypass f xs.getLast? c) (bypassHead f p xs.getLast? c) (xs ++ ys) := by
  have hnd := chain_nodup h
  rcases List.eq_nil_or_concat xs with rfl | ⟨zs, b, rfl⟩
  · exact h.2
  · rw [List.concat_eq_append, List.getLast?_concat]
    obtain ⟨hb, hby⟩ : b ∉ zs ∧ b ∉ ys := by
      simp only [List.concat_eq_append, List.append_assoc, List.cons_append, List.nil_append] at hnd
      obtain ⟨-, hcons, hdis⟩ := List.nodup_append.1 hnd
      refine ⟨fun hmem => hdis b hmem b List.mem_cons_self rfl, fun hmem => ?_⟩
      exact (List.nodup_cons.1 hcons).1 (List.mem_cons_of_mem _ hmem)
    simp only [List.concat_eq_append, List.append_assoc, List.cons_append, List.nil_append] at h ⊢
    obtain ⟨m, hzs, hm, -, hys⟩ := (trail_append f _ _ _ _).1 h
    refine (trail_append _ _ _ _ _).2 ⟨m, (trail_update hb).2 hzs, hm, ?_⟩
    rw [bypass, Function.update_self]
    exact (trail_update hby).2 hys

/-- The field once a new cell is put after the last one, if there is a last one. -/
def attach (f : LinkField ρ) (l : Option ρ) (d : ρ) : LinkField ρ :=
  match l with
  | none => f
  | some l => Function.update f l (some d)

def attachHead (p l : Option ρ) (d : ρ) : Option ρ :=
  match l with
  | none => some d
  | some _ => p

/-! ## Doubly linked lists -/

/-- **Both directions are chains of the same cells.** -/
structure Doubly (next prev : LinkField ρ) (first last : Option ρ) (cs : List ρ) : Prop where
  forward : Chain next first cs
  backward : Chain prev last cs.reverse

namespace Doubly

variable {next prev : LinkField ρ} {first last : Option ρ} {cs : List ρ}

omit [DecidableEq ρ] in
theorem congr {next' prev' : LinkField ρ} (h : Doubly next prev first last cs) (hn : ∀ c ∈ cs, next c = next' c)
    (hp : ∀ c ∈ cs, prev c = prev' c) : Doubly next' prev' first last cs :=
  ⟨(trail_congr hn).1 h.forward, (trail_congr fun c hc => hp c (List.mem_reverse.1 hc)).1 h.backward⟩

omit [DecidableEq ρ] in
theorem nodup (h : Doubly next prev first last cs) : cs.Nodup := chain_nodup h.forward

omit [DecidableEq ρ] in
theorem first_eq (h : Doubly next prev first last cs) : first = cs.head? := chain_head h.forward

omit [DecidableEq ρ] in
theorem last_eq (h : Doubly next prev first last cs) : last = cs.getLast? := by
  rw [chain_head h.backward, List.head?_reverse]

omit [DecidableEq ρ] in
theorem next_eq {xs ys : List ρ} {c : ρ} (h : Doubly next prev first last (xs ++ c :: ys)) : next c = ys.head? :=
  chain_get h.forward

omit [DecidableEq ρ] in
theorem prev_eq {xs ys : List ρ} {c : ρ} (h : Doubly next prev first last (xs ++ c :: ys)) :
    prev c = xs.getLast? := by
  have hb := h.backward
  rw [List.reverse_append, List.reverse_cons, List.append_assoc, List.singleton_append] at hb
  rw [chain_get hb, List.head?_reverse]

theorem remove {xs ys : List ρ} {c : ρ} (h : Doubly next prev first last (xs ++ c :: ys)) :
    Doubly (bypass next xs.getLast? c) (bypass prev ys.head? c) (bypassHead next first xs.getLast? c)
      (bypassHead prev last ys.head? c) (xs ++ ys) := by
  refine ⟨chain_remove h.forward, ?_⟩
  have hb := h.backward
  rw [List.reverse_append, List.reverse_cons, List.append_assoc, List.singleton_append] at hb
  have := chain_remove hb
  rwa [List.getLast?_reverse, ← List.reverse_append] at this

theorem snoc {d : ρ} (h : Doubly next prev first last cs) (hd : d ∉ cs) (hn : next d = none) :
    Doubly (attach next last d) (Function.update prev d last) (attachHead first last d) (some d) (cs ++ [d]) := by
  constructor
  · rw [h.last_eq]
    rcases List.eq_nil_or_concat cs with rfl | ⟨zs, b, rfl⟩
    · exact ⟨rfl, hn⟩
    · have hf := h.forward
      rw [List.concat_eq_append] at hd hf ⊢
      rw [List.getLast?_concat]
      exact trail_snoc hd hf hn
  · rw [List.reverse_append]
    exact trail_push (by simpa using hd) h.backward

end Doubly

/-! ## Buckets -/

/-- **The chains of `heads` sort the cells `cs` by their slot.** -/
structure Buckets (f : LinkField ρ) (slot : ρ → Nat) (heads : List (Option ρ)) (cs : List ρ) : Prop where
  inside : ∀ c ∈ cs, slot c < heads.length
  chains : ∀ i p, heads[i]? = some p → ∃ ds, Chain f p ds ∧ ∀ c, c ∈ ds ↔ c ∈ cs ∧ slot c = i

namespace Buckets

variable {f : LinkField ρ} {slot : ρ → Nat} {heads : List (Option ρ)} {cs : List ρ}

omit [DecidableEq ρ] in
theorem empty (f : LinkField ρ) (slot : ρ → Nat) (n : Nat) : Buckets f slot (List.replicate n none) [] := by
  refine ⟨by simp, fun i p h => ⟨[], ?_, by simp⟩⟩
  rw [List.getElem?_replicate] at h
  split at h
  · exact (Option.some.inj h).symm
  · cases h

omit [DecidableEq ρ] in
theorem congr {g : LinkField ρ} {slot' : ρ → Nat} {cs' : List ρ} (h : Buckets f slot heads cs)
    (hmem : ∀ c, c ∈ cs' ↔ c ∈ cs) (hf : ∀ c ∈ cs, f c = g c) (hs : ∀ c ∈ cs, slot c = slot' c) :
    Buckets g slot' heads cs' := by
  refine ⟨fun c hc => ?_, fun i p hp => ?_⟩
  · rw [← hs c ((hmem c).1 hc)]
    exact h.inside c ((hmem c).1 hc)
  · obtain ⟨ds, hd, hds⟩ := h.chains i p hp
    refine ⟨ds, (trail_congr fun c hc => hf c ((hds c).1 hc).1).1 hd, fun c => ?_⟩
    rw [hds, hmem]
    exact and_congr_right fun hc => by rw [hs c hc]

/-- A new cell is pushed in front of the chain of its slot. -/
theorem push {c : ρ} {p : Option ρ} (h : Buckets f slot heads cs) (hc : c ∉ cs) (hp : heads[slot c]? = some p) :
    Buckets (Function.update f c p) slot (heads.set (slot c) (some c)) (c :: cs) := by
  have hlt := (List.getElem?_eq_some_iff.1 hp).1
  refine ⟨fun d hd => ?_, fun i q hq => ?_⟩
  · rw [List.length_set]
    rcases List.mem_cons.1 hd with rfl | hd
    · exact hlt
    · exact h.inside d hd
  · by_cases hi : slot c = i
    · subst hi
      rw [List.getElem?_set_self hlt] at hq
      cases hq
      obtain ⟨ds, hd, hds⟩ := h.chains _ p hp
      refine ⟨c :: ds, trail_push (fun hmem => hc ((hds c).1 hmem).1) hd, fun d => ?_⟩
      rw [List.mem_cons, List.mem_cons, hds]
      constructor
      · rintro (rfl | ⟨hd, hs⟩)
        · exact ⟨Or.inl rfl, rfl⟩
        · exact ⟨Or.inr hd, hs⟩
      · rintro ⟨rfl | hd, hs⟩
        · exact Or.inl rfl
        · exact Or.inr ⟨hd, hs⟩
    · rw [List.getElem?_set_ne hi] at hq
      obtain ⟨ds, hd, hds⟩ := h.chains i q hq
      refine ⟨ds, (trail_update fun hmem => hi ((hds c).1 hmem).2).2 hd, fun d => ?_⟩
      rw [hds, List.mem_cons]
      constructor
      · rintro ⟨hd, hs⟩
        exact ⟨Or.inr hd, hs⟩
      · rintro ⟨rfl | hd, hs⟩
        · exact absurd hs hi
        · exact ⟨hd, hs⟩

/-- A cell is taken out of the chain of its slot. -/
theorem remove {c : ρ} {p : Option ρ} {xs ys cs' : List ρ} (h : Buckets f slot heads cs)
    (hp : heads[slot c]? = some p) (hchain : Chain f p (xs ++ c :: ys)) (hcs : ∀ d, d ∈ cs' ↔ d ∈ cs ∧ d ≠ c) :
    Buckets (bypass f xs.getLast? c) slot (heads.set (slot c) (bypassHead f p xs.getLast? c)) cs' := by
  have hlt := (List.getElem?_eq_some_iff.1 hp).1
  obtain ⟨es, he, hes⟩ := h.chains _ p hp
  obtain rfl := chain_unique he hchain
  refine ⟨fun d hd => ?_, fun i q hq => ?_⟩
  · rw [List.length_set]
    exact h.inside d ((hcs d).1 hd).1
  · by_cases hi : slot c = i
    · subst hi
      rw [List.getElem?_set_self hlt] at hq
      cases hq
      refine ⟨xs ++ ys, chain_remove hchain, fun d => ?_⟩
      have hnd := chain_nodup hchain
      have hne : d ∈ xs ++ ys ↔ d ∈ xs ++ c :: ys ∧ d ≠ c := by
        rw [List.nodup_middle, List.nodup_cons] at hnd
        simp only [List.mem_append, List.mem_cons]
        constructor
        · intro hd
          refine ⟨by grind, ?_⟩
          rintro rfl
          exact hnd.1 (List.mem_append.2 hd)
        · grind
      rw [hne, hes, hcs]
      grind
    · rw [List.getElem?_set_ne hi] at hq
      obtain ⟨ds, hd, hds⟩ := h.chains i q hq
      refine ⟨ds, (trail_congr fun d hmem => ?_).1 hd, fun d => ?_⟩
      · -- the cell written lies on the chain of `c`
        refine (bypass_of_not_mem fun b hb hdb => ?_).symm
        subst hdb
        have hx : d ∈ xs := List.mem_of_getLast? hb
        exact hi (((hes d).1 (List.mem_append_left _ hx)).2.symm.trans ((hds d).1 hmem).2)
      · rw [hds, hcs]
        constructor
        · rintro ⟨hd, hs⟩
          refine ⟨⟨hd, ?_⟩, hs⟩
          rintro rfl
          exact hi hs
        · exact fun hd => ⟨hd.1.1, hd.2⟩

omit [DecidableEq ρ] in
/-- The front of a chain is dropped: the chain starts where the rest of it starts. -/
theorem drop {i : Nat} {p q : Option ρ} {xs ys cs' : List ρ} (h : Buckets f slot heads cs) (hp : heads[i]? = some p)
    (hchain : Chain f p (xs ++ ys)) (hq : Chain f q ys) (hcs : ∀ d, d ∈ cs' ↔ d ∈ cs ∧ d ∉ xs) :
    Buckets f slot (heads.set i q) cs' := by
  have hlt := (List.getElem?_eq_some_iff.1 hp).1
  obtain ⟨es, he, hes⟩ := h.chains _ p hp
  obtain rfl := chain_unique he hchain
  refine ⟨fun d hd => ?_, fun j q' hq' => ?_⟩
  · rw [List.length_set]
    exact h.inside d ((hcs d).1 hd).1
  · by_cases hj : i = j
    · subst hj
      rw [List.getElem?_set_self hlt] at hq'
      cases hq'
      refine ⟨ys, hq, fun d => ?_⟩
      have hdis := List.disjoint_of_nodup_append (chain_nodup hchain)
      rw [hcs, and_assoc, and_comm (a := d ∉ xs), ← and_assoc, ← hes, List.mem_append]
      constructor
      · exact fun hd => ⟨Or.inr hd, fun hx => hdis hx hd⟩
      · grind
    · rw [List.getElem?_set_ne hj] at hq'
      obtain ⟨ds, hd, hds⟩ := h.chains j q' hq'
      refine ⟨ds, hd, fun d => ?_⟩
      rw [hds, hcs]
      refine ⟨fun ⟨hd, hs⟩ => ⟨⟨hd, fun hx => hj ?_⟩, hs⟩, fun ⟨⟨hd, _⟩, hs⟩ => ⟨hd, hs⟩⟩
      exact ((hes d).1 (List.mem_append_left _ hx)).2.symm.trans hs

end Buckets

/-! ## Walking a chain -/

/-- The walk along `f` that stops at the first cell `stop` accepts: that cell, and the one before it.  Without an
answer, `stop` read a cell that is not there or the steps ran out. -/
def walk (f : LinkField ρ) (stop : ρ → Option Bool) : Nat → Option ρ → Option ρ → Option (Option ρ × Option ρ)
  | 0, _, _ => none
  | _ + 1, b, none => some (b, none)
  | n + 1, b, some c =>
    match stop c with
    | none => none
    | some true => some (b, some c)
    | some false => walk f stop n (some c) (f c)

omit [DecidableEq ρ] in
theorem walk_found {f : LinkField ρ} {stop : ρ → Option Bool} {c : ρ} {ys : List ρ} (hc : stop c = some true) :
    ∀ (xs : List ρ) (n : Nat) (b p : Option ρ), Chain f p (xs ++ c :: ys) → xs.length < n →
    (∀ d ∈ xs, stop d = some false) → walk f stop n b p = some (xs.getLast?.or b, some c)
  | [], n + 1, b, _, ⟨rfl, _⟩, _, _ => by simp [walk, hc]
  | x :: xs, n + 1, b, _, ⟨rfl, h⟩, hn, hxs => by
    have hx := hxs x List.mem_cons_self
    have := walk_found hc xs n (some x) (f x) h (by simpa using hn) fun d hd => hxs d (List.mem_cons_of_mem _ hd)
    simp only [walk, hx, this]
    cases xs with
    | nil => rfl
    | cons y ys => simp [List.getLast?_cons]

omit [DecidableEq ρ] in
theorem walk_missed {f : LinkField ρ} {stop : ρ → Option Bool} : ∀ (cs : List ρ) (n : Nat) (b p : Option ρ),
    Chain f p cs → cs.length < n → (∀ d ∈ cs, stop d = some false) →
    walk f stop n b p = some (cs.getLast?.or b, none)
  | [], n + 1, b, _, rfl, _, _ => rfl
  | c :: cs, n + 1, b, _, ⟨rfl, h⟩, hn, hcs => by
    have hc := hcs c List.mem_cons_self
    have := walk_missed cs n (some c) (f c) h (by simpa using hn) fun d hd => hcs d (List.mem_cons_of_mem _ hd)
    simp only [walk, hc, this]
    cases cs with
    | nil => rfl
    | cons y ys => simp [List.getLast?_cons]

end Links
