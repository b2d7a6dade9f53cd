import Mathlib.Data.List.Chain
import Mathlib.Data.List.Nodup
import Mathlib.Logic.Function.Basic
import Mathlib.Tactic.Common
/-!
# Rings of cells

A circular doubly linked list goes through one cell that is always there.  `LinkRing next prev d cs` says that following
`next` from `d` meets exactly the cells `cs` and comes back to `d`, and that `prev` goes the same way back.  A cell is
taken out by writing its two neighbours (`LinkRing.removeLink_ring`) and put in by writing it and the two cells it comes
between (`LinkRing.insertAfter_ring`, `LinkRing.insertBefore_ring`).
-/
namespace LinkRing

variable {ρ : Type*}

/-- Each cell of the list is linked to the one after it, both ways. -/
def Links (next prev : ρ → ρ) (cs : List ρ) : Prop := cs.IsChain fun x y => next x = y ∧ prev y = x

theorem links_append {next prev : ρ → ρ} {x : ρ} {xs ys : List ρ} :
    Links next prev (xs ++ x :: ys) ↔ Links next prev (xs ++ [x]) ∧ Links next prev (x :: ys) :=
  List.isChain_split

theorem links_congr {next prev next' prev' : ρ → ρ} : ∀ {cs : List ρ}, Links next prev cs →
    (∀ x ∈ cs.dropLast, next' x = next x) → (∀ x ∈ cs.tail, prev' x = prev x) → Links next' prev' cs
  | [], _, _, _ => .nil
  | [_], _, _, _ => .singleton _
  | x :: y :: cs, h, hn, hp => by
    obtain ⟨⟨h1, h2⟩, h⟩ := List.isChain_cons_cons.1 h
    refine List.isChain_cons_cons.2 ⟨⟨?_, ?_⟩, links_congr h (fun z hz => hn z (List.mem_cons_of_mem _ hz))
      fun z hz => hp z (List.mem_cons_of_mem _ hz)⟩
    · rw [hn x List.mem_cons_self, h1]
    · rw [hp y List.mem_cons_self, h2]

end LinkRing

/-- **Following `next` from `d` meets the cells `cs` and comes back, and `prev` goes the same way back.** -/
structure LinkRing {ρ : Type*} (next prev : ρ → ρ) (d : ρ) (cs : List ρ) : Prop where
  links : LinkRing.Links next prev (d :: cs ++ [d])
  nodup : (d :: cs).Nodup

namespace LinkRing

variable {ρ : Type*} {next prev : ρ → ρ} {d : ρ} {cs xs ys : List ρ} {c : ρ}

theorem empty {next prev : ρ → ρ} {d : ρ} (hn : next d = d) (hp : prev d = d) : LinkRing next prev d [] :=
  ⟨List.isChain_pair.2 ⟨hn, hp⟩, List.nodup_singleton d⟩

/-- A ring opened between two neighbours: what comes before, the cells `a` and `b`, and what comes after. -/
theorem links_split (zs ws : List ρ) {a b : ρ} (h : Links next prev (zs ++ a :: b :: ws)) :
    Links next prev (zs ++ [a]) ∧ next a = b ∧ prev b = a ∧ Links next prev (b :: ws) := by
  obtain ⟨h1, h2⟩ := links_append.1 h
  obtain ⟨⟨h3, h4⟩, h5⟩ := List.isChain_cons_cons.1 h2
  exact ⟨h1, h3, h4, h5⟩

theorem links_join {zs ws : List ρ} {a b : ρ} (h1 : Links next prev (zs ++ [a])) (hn : next a = b) (hp : prev b = a)
    (h2 : Links next prev (b :: ws)) : Links next prev (zs ++ a :: b :: ws) :=
  links_append.2 ⟨h1, List.isChain_cons_cons.2 ⟨⟨hn, hp⟩, h2⟩⟩

theorem next_eq (h : LinkRing next prev d (xs ++ c :: ys)) : next c = ys.headD d := by
  have hl := h.links
  cases ys with
  | nil => exact (links_split (d :: xs) [] (by simpa using hl)).2.1
  | cons y ys => exact (links_split (d :: xs) (ys ++ [d]) (by simpa using hl)).2.1

theorem next_sentinel (h : LinkRing next prev d cs) : next d = cs.headD d := by
  have hl := h.links
  cases cs with
  | nil => exact (List.isChain_pair.1 hl).1
  | cons y ys => exact (links_split [] (ys ++ [d]) (by simpa using hl)).2.1

theorem prev_eq (h : LinkRing next prev d (xs ++ c :: ys)) : prev c = xs.getLastD d := by
  have hl := h.links
  rcases List.eq_nil_or_concat xs with rfl | ⟨zs, a, rfl⟩
  · exact (links_split [] (ys ++ [d]) (by simpa using hl)).2.2.1
  · rw [List.concat_eq_append, List.getLastD_concat]
    exact (links_split (d :: zs) (ys ++ [d]) (by simpa using hl)).2.2.1

/-- **A place between two cells**, or beside the sentinel: no cell before it is the one after it, and none after it is the
one before it. -/
theorem open_at (h : (d :: (xs ++ ys)).Nodup) : ∃ zs ws, d :: xs = zs ++ [xs.getLastD d] ∧ ys ++ [d] = ys.headD d :: ws ∧
    xs.getLastD d ∉ zs ∧ ys.headD d ∉ ws ∧ (∀ x ∈ xs, x ≠ ys.headD d) ∧ ∀ x ∈ ys, x ≠ xs.getLastD d := by
  obtain ⟨hd, hxy⟩ := List.nodup_cons.1 h
  obtain ⟨-, hys, hdis⟩ := List.nodup_append.1 hxy
  obtain ⟨zs, hzs⟩ : ∃ zs, d :: xs = zs ++ [xs.getLastD d] := by
    rcases List.eq_nil_or_concat xs with rfl | ⟨zs, a, rfl⟩
    · exact ⟨[], rfl⟩
    · exact ⟨d :: zs, by rw [List.concat_eq_append, List.getLastD_concat]; rfl⟩
  obtain ⟨ws, hws⟩ : ∃ ws, ys ++ [d] = ys.headD d :: ws := by
    cases ys with
    | nil => exact ⟨[], rfl⟩
    | cons y ys => exact ⟨ys ++ [d], rfl⟩
  have hleft : (zs ++ [xs.getLastD d]).Nodup := by
    rw [← hzs]
    exact h.sublist (List.Sublist.cons_cons _ (List.sublist_append_left xs ys))
  have hright : (ys.headD d :: ws).Nodup := by
    rw [← hws]
    refine List.nodup_append.2 ⟨hys, List.nodup_singleton d, ?_⟩
    rintro x hx y hy rfl
    rw [List.mem_singleton.1 hy] at hx
    exact hd (List.mem_append_right _ hx)
  refine ⟨zs, ws, hzs, hws, fun hmem => ?_, (List.nodup_cons.1 hright).1, ?_, ?_⟩
  · exact (List.nodup_append.1 hleft).2.2 _ hmem _ (List.mem_singleton_self _) rfl
  · rintro x hx rfl
    cases ys with
    | nil => exact hd (List.mem_append_left _ hx)
    | cons y ys => exact hdis y hx y List.mem_cons_self rfl
  · rintro x hx rfl
    rcases List.eq_nil_or_concat xs with rfl | ⟨vs, a, rfl⟩
    · exact hd (List.mem_append_right _ hx)
    · rw [List.concat_eq_append, List.getLastD_concat] at hx
      exact hdis a (by simp) a hx rfl

theorem next_seam (h : LinkRing next prev d (xs ++ ys)) : next (xs.getLastD d) = ys.headD d := by
  rcases List.eq_nil_or_concat xs with rfl | ⟨zs, a, rfl⟩
  · exact h.next_sentinel
  · rw [List.concat_eq_append, List.getLastD_concat]
    rw [List.concat_eq_append, List.append_assoc] at h
    exact h.next_eq

theorem prev_seam (h : LinkRing next prev d (xs ++ ys)) : prev (ys.headD d) = xs.getLastD d := by
  obtain ⟨zs, ws, hzs, hws, -⟩ := open_at h.nodup
  have hl := h.links
  rw [← List.cons_append, List.append_assoc, hzs, hws, List.append_assoc] at hl
  exact (links_split _ _ hl).2.2.1

theorem prev_first (h : LinkRing next prev d (c :: cs)) : prev c = d := by
  rw [← List.nil_append (c :: cs)] at h
  exact h.prev_seam

theorem prev_empty (h : LinkRing next prev d []) : prev d = d := by
  rw [← List.nil_append []] at h
  exact h.prev_seam

variable [DecidableEq ρ]

/-- Both neighbours of a place are written to point at each other. -/
theorem bridge (h : LinkRing next prev d (xs ++ c :: ys)) :
    LinkRing (Function.update next (xs.getLastD d) (ys.headD d)) (Function.update prev (ys.headD d) (xs.getLastD d)) d
      (xs ++ ys) := by
  have hnodup : (d :: (xs ++ ys)).Nodup :=
    h.nodup.sublist (List.Sublist.cons_cons _ ((List.Sublist.refl xs).append (List.sublist_cons_self c ys)))
  obtain ⟨zs, ws, hzs, hws, ha, hb, hxs, hys⟩ := open_at hnodup
  have hl : Links next prev ((d :: xs) ++ c :: (ys ++ [d])) := by simpa using h.links
  obtain ⟨h1, h2⟩ := links_append.1 hl
  rw [hzs, List.append_assoc] at h1
  obtain ⟨h1, -⟩ := (links_append (x := xs.getLastD d)).1 h1
  rw [hws] at h2
  obtain ⟨-, -, -, h2⟩ := links_split [] _ h2
  refine ⟨?_, hnodup⟩
  have hgoal : d :: (xs ++ ys) ++ [d] = zs ++ xs.getLastD d :: ys.headD d :: ws := by
    rw [← List.cons_append, List.append_assoc, hzs, hws, List.append_assoc]
    rfl
  rw [hgoal]
  refine links_join (links_congr h1 (fun x hx => ?_) fun x hx => ?_) (Function.update_self ..) (Function.update_self ..)
    (links_congr h2 (fun x hx => ?_) fun x hx => ?_)
  · refine Function.update_of_ne ?_ _ _
    rw [List.dropLast_concat] at hx
    rintro rfl
    exact ha hx
  · rw [← hzs, List.tail_cons] at hx
    exact Function.update_of_ne (hxs x hx) _ _
  · rw [← hws, List.dropLast_concat] at hx
    exact Function.update_of_ne (hys x hx) _ _
  · refine Function.update_of_ne ?_ _ _
    rintro rfl
    exact hb hx

omit [DecidableEq ρ] in
theorem insert (h : LinkRing next prev d (xs ++ ys)) (hc : c ∉ d :: (xs ++ ys)) {next' prev' : ρ → ρ}
    (hn : ∀ x, x ≠ c → x ≠ xs.getLastD d → next' x = next x) (hp : ∀ x, x ≠ c → x ≠ ys.headD d → prev' x = prev x)
    (h1 : next' (xs.getLastD d) = c) (h2 : prev' c = xs.getLastD d) (h3 : next' c = ys.headD d)
    (h4 : prev' (ys.headD d) = c) : LinkRing next' prev' d (xs ++ c :: ys) := by
  obtain ⟨zs, ws, hzs, hws, ha, hb, hxs, hys⟩ := open_at h.nodup
  have hlinks := h.links
  rw [← List.cons_append, List.append_assoc, hzs, hws, List.append_assoc] at hlinks
  obtain ⟨hl1, -, -, hl2⟩ := links_split _ _ hlinks
  have hcx : ∀ x ∈ d :: xs, x ≠ c := by
    rintro x hx rfl
    exact hc (List.mem_append_left ys hx)
  have hcy : ∀ x ∈ ys ++ [d], x ≠ c := by
    rintro x hx rfl
    rcases List.mem_append.1 hx with hx | hx
    · exact hc (List.mem_cons_of_mem _ (List.mem_append_right _ hx))
    · rw [List.mem_singleton.1 hx] at hc
      exact hc List.mem_cons_self
  refine ⟨?_, ?_⟩
  · have hgoal : d :: (xs ++ c :: ys) ++ [d] = zs ++ xs.getLastD d :: c :: ys.headD d :: ws := by
      have hsplit : d :: (xs ++ c :: ys) ++ [d] = (d :: xs) ++ c :: (ys ++ [d]) := by simp
      rw [hsplit, hzs, hws, List.append_assoc]
      rfl
    rw [hgoal]
    refine links_join (links_congr hl1 (fun x hx => ?_) fun x hx => ?_) h1 h2
      (List.isChain_cons_cons.2 ⟨⟨h3, h4⟩, links_congr hl2 (fun x hx => ?_) fun x hx => ?_⟩)
    · rw [List.dropLast_concat] at hx
      refine hn x (hcx x (by rw [hzs]; exact List.mem_append_left _ hx)) ?_
      rintro rfl
      exact ha hx
    · rw [← hzs, List.tail_cons] at hx
      exact hp x (hcx x (List.mem_cons_of_mem _ hx)) (hxs x hx)
    · rw [← hws, List.dropLast_concat] at hx
      exact hn x (hcy x (List.mem_append_left _ hx)) (hys x hx)
    · rw [List.tail_cons] at hx
      refine hp x (hcy x (by rw [hws]; exact List.mem_cons_of_mem _ hx)) ?_
      rintro rfl
      exact hb hx
  · have hperm : (d :: (xs ++ c :: ys)).Perm (c :: d :: (xs ++ ys)) :=
      (List.perm_middle.cons d).trans (List.Perm.swap c d _)
    exact hperm.nodup_iff.2 (List.nodup_cons.2 ⟨hc, h.nodup⟩)

omit [DecidableEq ρ] in
/-- The two sides of a place are not a cell that is not there. -/
theorem sides_ne (hc : c ∉ d :: (xs ++ ys)) : xs.getLastD d ≠ c ∧ ys.headD d ≠ c := by
  refine ⟨?_, ?_⟩
  · rintro rfl
    rcases List.eq_nil_or_concat xs with rfl | ⟨zs, a, rfl⟩
    · exact hc List.mem_cons_self
    · rw [List.concat_eq_append, List.getLastD_concat] at hc
      exact hc (by simp)
  · rintro rfl
    cases ys with
    | nil => exact hc List.mem_cons_self
    | cons y ys => exact hc (List.mem_cons_of_mem _ (List.mem_append_right _ List.mem_cons_self))

/-- `next = block->next; next->prev = this; block->next = this; prev = block` -/
def insertAfter (next prev : ρ → ρ) (c b : ρ) : (ρ → ρ) × (ρ → ρ) :=
  (Function.update (Function.update next c (next b)) b c, Function.update (Function.update prev (next b) c) c b)

/-- `prev = block->prev; prev->next = this; block->prev = this; next = block` -/
def insertBefore (next prev : ρ → ρ) (c b : ρ) : (ρ → ρ) × (ρ → ρ) :=
  (Function.update (Function.update next (prev b) c) c b, Function.update (Function.update prev c (prev b)) b c)

/-- `prev->next = next; next->prev = prev` -/
def removeLink (next prev : ρ → ρ) (c : ρ) : (ρ → ρ) × (ρ → ρ) :=
  (Function.update next (prev c) (next c), Function.update prev (next c) (prev c))

theorem insertAfter_ring (h : LinkRing next prev d (xs ++ ys)) (hc : c ∉ d :: (xs ++ ys)) :
    LinkRing (insertAfter next prev c (xs.getLastD d)).1 (insertAfter next prev c (xs.getLastD d)).2 d (xs ++ c :: ys) := by
  obtain ⟨hlast, hhead⟩ := sides_ne hc
  have hseam := h.next_seam
  refine h.insert hc (fun x h1 h2 => ?_) (fun x h1 h2 => ?_) (Function.update_self ..) (Function.update_self ..) ?_ ?_
  · exact (Function.update_of_ne h2 _ _).trans (Function.update_of_ne h1 _ _)
  · refine (Function.update_of_ne h1 _ _).trans (Function.update_of_ne ?_ _ _)
    rwa [hseam]
  · exact ((Function.update_of_ne hlast.symm _ _).trans (Function.update_self ..)).trans hseam
  · refine (Function.update_of_ne hhead _ _).trans ?_
    rw [hseam]
    exact Function.update_self ..

theorem insertBefore_ring (h : LinkRing next prev d (xs ++ ys)) (hc : c ∉ d :: (xs ++ ys)) :
    LinkRing (insertBefore next prev c (ys.headD d)).1 (insertBefore next prev c (ys.headD d)).2 d (xs ++ c :: ys) := by
  obtain ⟨hlast, hhead⟩ := sides_ne hc
  have hseam := h.prev_seam
  refine h.insert hc (fun x h1 h2 => ?_) (fun x h1 h2 => ?_) ?_ ?_ (Function.update_self ..) (Function.update_self ..)
  · refine (Function.update_of_ne h1 _ _).trans (Function.update_of_ne ?_ _ _)
    rwa [hseam]
  · exact (Function.update_of_ne h2 _ _).trans (Function.update_of_ne h1 _ _)
  · refine (Function.update_of_ne hlast _ _).trans ?_
    rw [hseam]
    exact Function.update_self ..
  · exact ((Function.update_of_ne hhead.symm _ _).trans (Function.update_self ..)).trans hseam

theorem insertFirst_ring (h : LinkRing next prev d cs) (hc : c ∉ d :: cs) :
    LinkRing (insertBefore next prev c (cs.headD d)).1 (insertBefore next prev c (cs.headD d)).2 d (c :: cs) := by
  rw [← List.nil_append cs] at h
  exact h.insertBefore_ring hc

/-- **Taking a cell out.** -/
theorem removeLink_ring (h : LinkRing next prev d (xs ++ c :: ys)) :
    LinkRing (removeLink next prev c).1 (removeLink next prev c).2 d (xs ++ ys) := by
  unfold removeLink
  rw [h.next_eq, h.prev_eq]
  exact h.bridge

end LinkRing
