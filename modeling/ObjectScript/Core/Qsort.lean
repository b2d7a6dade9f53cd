import Mathlib.Data.List.Perm.Basic
import Mathlib.Tactic.Common
/-!
# Sorting

`OS::qsort` sorts in place: short ranges by repeated selection of the greatest element, longer ones by a partition
around the middle element, with the ranges still to sort on a stack.  The comparator is code of its own and may keep a
state; nothing is asked of it.  Whatever it answers, the sort ends and what it leaves is a rearrangement
(`qsort_perm`).  Reading outside the elements, and running out of steps, would be no result.
-/
namespace ObjectScript
namespace Core

variable {α σ : Type}

abbrev Comparator (σ α : Type) := σ → α → α → Int × σ

section Model

variable (comp : Comparator σ α)

def compareAt (s : σ) (a : List α) (i j : Nat) : Option (Int × σ) := do
  let x ← a[i]?
  let y ← a[j]?
  return comp s x y

/-- The greatest element from `lo` up, looking at `n` more elements from `p` on. -/
def shortsortMax (a : List α) : Nat → σ → Nat → Nat → Option (Nat × σ)
  | 0, s, max, _ => some (max, s)
  | n + 1, s, max, p => do
    let (c, s) ← compareAt comp s a p max
    shortsortMax a n s (if c > 0 then p else max) (p + 1)

/-- `qsortShortsort` of the `n + 1` elements from `lo` on. -/
def qsortShortsort (lo : Nat) : Nat → σ → List α → Option (List α × σ)
  | 0, s, a => some (a, s)
  | n + 1, s, a => do
    let (max, s) ← shortsortMax comp a (n + 1) s lo (lo + 1)
    qsortShortsort lo n s (a.swap max (lo + n + 1))

/-- `do { l += width; } while (l <= hi && comp(l, lo) <= 0)` -/
def scanUp (a : List α) (lo hi : Nat) : Nat → σ → Nat → Option (Nat × σ)
  | 0, _, _ => none
  | n + 1, s, l =>
    if l + 1 ≤ hi then do
      let (c, s) ← compareAt comp s a (l + 1) lo
      if c ≤ 0 then scanUp a lo hi n s (l + 1) else return (l + 1, s)
    else some (l + 1, s)

/-- `do { h -= width; } while (h > lo && comp(h, lo) >= 0)` -/
def scanDown (a : List α) (lo : Nat) : Nat → σ → Nat → Option (Nat × σ)
  | 0, _, _ => none
  | n + 1, s, h =>
    if h - 1 > lo then do
      let (c, s) ← compareAt comp s a (h - 1) lo
      if c ≥ 0 then scanDown a lo n s (h - 1) else return (h - 1, s)
    else some (h - 1, s)

/-- The loop that exchanges elements on the wrong sides, until the two scans have crossed. -/
def partitionLoop (lo hi : Nat) : Nat → σ → List α → Nat → Nat → Option (List α × Nat × Nat × σ)
  | 0, _, _, _, _ => none
  | n + 1, s, a, l, h => do
    let (l, s) ← scanUp comp a lo hi (hi + 2) s l
    let (h, s) ← scanDown comp a lo (hi + 2) s h
    if h < l then return (a, l, h, s) else partitionLoop lo hi n s (a.swap l h) l h

def qsortCutoff : Nat := 8

/-- The ranges still to sort: `lo`, `hi` and the saved ones. -/
def qsortLoop : Nat → σ → List α → Nat × Nat → List (Nat × Nat) → Option (List α × σ)
  | 0, _, _, _, _ => none
  | n + 1, s, a, (lo, hi), saved =>
    if hi - lo + 1 ≤ qsortCutoff then do
      let (a, s) ← qsortShortsort comp lo (hi - lo) s a
      match saved with
      | [] => return (a, s)
      | range :: saved => qsortLoop n s a range saved
    else do
      let mid := lo + (hi - lo + 1) / 2
      let (a, l, h, s) ← partitionLoop comp lo hi (hi + 2) s (a.swap mid lo) lo (hi + 1)
      let a := a.swap lo h
      -- the larger side is saved; a side of one element is sorted
      let saved' := if h + l > hi + lo then (if lo + 1 < h then (lo, h - 1) :: saved else saved)
        else (if l < hi then (l, hi) :: saved else saved)
      let next := if h + l > hi + lo then (if l < hi then some (l, hi) else none)
        else (if lo + 1 < h then some (lo, h - 1) else none)
      match next, saved' with
      | some range, saved => qsortLoop n s a range saved
      | none, range :: saved => qsortLoop n s a range saved
      | none, [] => return (a, s)

def qsort (s : σ) (a : List α) : Option (List α × σ) :=
  if a.length < 2 then some (a, s) else qsortLoop comp a.length s a (0, a.length - 1) []

end Model

/-! ## Every sort ends and rearranges -/

section

variable (comp : Comparator σ α)

theorem compareAt_some (s : σ) {a : List α} {i j : Nat} (hi : i < a.length) (hj : j < a.length) :
    ∃ c s', compareAt comp s a i j = some (c, s') :=
  ⟨(comp s a[i] a[j]).1, (comp s a[i] a[j]).2, by simp [compareAt, hi, hj]⟩

theorem shortsortMax_some (a : List α) : ∀ (n : Nat) (s : σ) (max p : Nat), max < a.length → p + n ≤ a.length →
    ∃ m s', shortsortMax comp a n s max p = some (m, s')
  | 0, s, max, _, _, _ => ⟨max, s, rfl⟩
  | n + 1, s, max, p, hm, hp => by
    obtain ⟨c, s1, hc⟩ := compareAt_some comp s (a := a) (i := p) (by omega) hm
    simp only [shortsortMax, hc, Option.bind_eq_bind, Option.bind_some]
    refine shortsortMax_some a n s1 _ (p + 1) ?_ (by omega)
    split <;> omega

theorem qsortShortsort_perm (lo : Nat) : ∀ (n : Nat) (s : σ) (a : List α), lo + n < a.length →
    ∃ b s', qsortShortsort comp lo n s a = some (b, s') ∧ b.Perm a
  | 0, s, a, _ => ⟨a, s, rfl, List.Perm.refl a⟩
  | n + 1, s, a, h => by
    obtain ⟨m, s1, hm⟩ := shortsortMax_some comp a (n + 1) s lo (lo + 1) (by omega) (by omega)
    have hswap : (a.swap m (lo + n + 1)).Perm a := List.swap_perm a m _
    obtain ⟨b, s2, hb, hperm⟩ := qsortShortsort_perm lo n s1 (a.swap m (lo + n + 1)) (by rw [hswap.length_eq]; omega)
    refine ⟨b, s2, ?_, hperm.trans hswap⟩
    simp only [qsortShortsort, hm, Option.bind_eq_bind, Option.bind_some, hb]

theorem scanUp_some {a : List α} (lo : Nat) {hi : Nat} (hlo : lo < a.length) (hhi : hi < a.length) : ∀ (n : Nat) (s : σ)
    (l : Nat), hi < l + n → l ≤ hi → ∃ l' s', scanUp comp a lo hi n s l = some (l', s') ∧ l < l' ∧ l' ≤ hi + 1
  | 0, s, l, hn, hl => by omega
  | n + 1, s, l, hn, hl => by
    rw [scanUp]
    split
    · rename_i hle
      obtain ⟨c, s1, hc⟩ := compareAt_some comp s (a := a) (i := l + 1) (by omega) hlo
      simp only [hc, Option.bind_eq_bind, Option.bind_some]
      split
      · obtain ⟨l', s2, h, h1, h2⟩ := scanUp_some lo hlo hhi n s1 (l + 1) (by omega) hle
        exact ⟨l', s2, h, by omega, h2⟩
      · exact ⟨l + 1, s1, rfl, by omega, by omega⟩
    · exact ⟨l + 1, s, rfl, by omega, by omega⟩

theorem scanDown_some {a : List α} (lo : Nat) (hlo : lo < a.length) : ∀ (n : Nat) (s : σ) (h : Nat), h ≤ n → lo < h →
    h ≤ a.length → ∃ h' s', scanDown comp a lo n s h = some (h', s') ∧ h' < h ∧ lo ≤ h'
  | 0, s, h, hn, hl, _ => by omega
  | n + 1, s, h, hn, hl, hlen => by
    rw [scanDown]
    split
    · rename_i hlt
      obtain ⟨c, s1, hc⟩ := compareAt_some comp s (a := a) (i := h - 1) (by omega) hlo
      simp only [hc, Option.bind_eq_bind, Option.bind_some]
      split
      · obtain ⟨h', s2, he, h1, h2⟩ := scanDown_some lo hlo n s1 (h - 1) (by omega) hlt (by omega)
        exact ⟨h', s2, he, by omega, h2⟩
      · exact ⟨h - 1, s1, rfl, by omega, by omega⟩
    · exact ⟨h - 1, s, rfl, by omega, by omega⟩

theorem partitionLoop_perm (lo hi : Nat) : ∀ (n : Nat) (s : σ) (a : List α) (l h : Nat), hi < a.length → lo ≤ l →
    l ≤ hi → l ≤ h → lo < h → h ≤ hi + 1 → h < l + n →
    ∃ b l' h' s', partitionLoop comp lo hi n s a l h = some (b, l', h', s') ∧ b.Perm a ∧
      h' < l' ∧ lo ≤ h' ∧ h' ≤ hi ∧ lo < l' ∧ l' ≤ hi + 1
  | 0, s, a, l, h, _, _, _, _, _, _, hn => by omega
  | n + 1, s, a, l, h, hhi, hlo, hl, hlh, hh, hh', hn => by
    obtain ⟨l1, s1, hl1, hl2, hl3⟩ := scanUp_some comp (a := a) lo (by omega) hhi (hi + 2) s l (by omega) hl
    obtain ⟨h1, s2, hd, hd1, hd2⟩ := scanDown_some comp (a := a) lo (by omega) (hi + 2) s1 h (by omega) hh
      (by omega)
    simp only [partitionLoop, hl1, hd, Option.bind_eq_bind, Option.bind_some]
    split
    · rename_i hlt
      exact ⟨a, l1, h1, s2, rfl, List.Perm.refl a, hlt, hd2, by omega, by omega, hl3⟩
    · rename_i hge
      have hswap : (a.swap l1 h1).Perm a := List.swap_perm a l1 h1
      obtain ⟨b, l', h', s', he, hperm, hrest⟩ := partitionLoop_perm lo hi n s2 (a.swap l1 h1) l1 h1
        (by rw [hswap.length_eq]; exact hhi) (by omega) (by omega) (by omega) (by omega) (by omega) (by omega)
      exact ⟨b, l', h', s', he, hperm.trans hswap, hrest⟩

def pendingSize : List (Nat × Nat) → Nat
  | [] => 0
  | (lo, hi) :: saved => (hi + 1 - lo) + pendingSize saved

/-- The ranges still to sort lie inside `n` elements. -/
def RangesIn (n : Nat) (ranges : List (Nat × Nat)) : Prop := ∀ q ∈ ranges, q.1 ≤ q.2 ∧ q.2 < n

theorem qsortLoop_perm : ∀ (n : Nat) (s : σ) (a : List α) (range : Nat × Nat) (saved : List (Nat × Nat)),
    RangesIn a.length (range :: saved) → pendingSize (range :: saved) ≤ n →
    ∃ b s', qsortLoop comp n s a range saved = some (b, s') ∧ b.Perm a
  | 0, s, a, (lo, hi), saved, hin, hn => by
    have := (hin _ List.mem_cons_self).1
    simp only [pendingSize] at hn this
    omega
  | n + 1, s, a, (lo, hi), saved, hin, hn => by
    obtain ⟨hle, hlt⟩ := hin _ List.mem_cons_self
    have hsaved : RangesIn a.length saved := fun q hq => hin q (List.mem_cons_of_mem _ hq)
    simp only [pendingSize] at hn hle hlt
    rw [qsortLoop]
    split
    · obtain ⟨b, s1, hb, hperm⟩ := qsortShortsort_perm comp lo (hi - lo) s a (by omega)
      simp only [hb, Option.bind_eq_bind, Option.bind_some]
      cases saved with
      | nil => exact ⟨b, s1, rfl, hperm⟩
      | cons range saved =>
        obtain ⟨c, s2, hc, hperm'⟩ := qsortLoop_perm n s1 b range saved (by rw [hperm.length_eq]; exact hsaved) (by omega)
        exact ⟨c, s2, hc, hperm'.trans hperm⟩
    · have hswap : (a.swap (lo + (hi - lo + 1) / 2) lo).Perm a := List.swap_perm a _ _
      obtain ⟨b, l, h, s1, hb, hperm, h1, h2, h3, h4, h5⟩ := partitionLoop_perm comp lo hi (hi + 2) s
        (a.swap (lo + (hi - lo + 1) / 2) lo) lo (hi + 1) (by rw [hswap.length_eq]; exact hlt) (Nat.le_refl _) hle (by omega)
        (by omega) (Nat.le_refl _) (by omega)
      simp only [hb, Option.bind_eq_bind, Option.bind_some]
      have hb' : (b.swap lo h).Perm a := (List.swap_perm b lo h).trans (hperm.trans hswap)
      have more (range : Nat × Nat) (saved : List (Nat × Nat)) (hin : RangesIn a.length (range :: saved))
          (hn : pendingSize (range :: saved) ≤ n) :
          ∃ c s2, qsortLoop comp n s1 (b.swap lo h) range saved = some (c, s2) ∧ c.Perm a := by
        obtain ⟨c, s2, hc, hperm'⟩ := qsortLoop_perm n s1 (b.swap lo h) range saved (by rw [hb'.length_eq]; exact hin) hn
        exact ⟨c, s2, hc, hperm'.trans hb'⟩
      have done : ∃ c s2, some (b.swap lo h, s1) = some (c, s2) ∧ c.Perm a := ⟨_, _, rfl, hb'⟩
      have cons {lo hi : Nat} {saved : List (Nat × Nat)} (h1 : lo ≤ hi) (h2 : hi < a.length)
          (h : RangesIn a.length saved) : RangesIn a.length ((lo, hi) :: saved) := by
        rintro q hq
        rcases List.mem_cons.1 hq with rfl | hq
        · exact ⟨h1, h2⟩
        · exact h q hq
      by_cases hbig : h + l > hi + lo <;> by_cases hright : l < hi <;> by_cases hleft : lo + 1 < h <;>
        simp only [hbig, hright, hleft, if_true, if_false]
      · exact more _ _ (cons (by omega) hlt (cons (by omega) (by omega) hsaved)) (by simp only [pendingSize]; omega)
      · exact more _ _ (cons (by omega) hlt hsaved) (by simp only [pendingSize]; omega)
      · exact more _ _ (cons (by omega) (by omega) hsaved) (by simp only [pendingSize]; omega)
      · cases saved with
        | nil => exact done
        | cons range saved => exact more _ _ hsaved (by simp only [pendingSize] at hn ⊢; omega)
      · exact more _ _ (cons (by omega) (by omega) (cons (by omega) hlt hsaved)) (by simp only [pendingSize]; omega)
      · exact more _ _ (cons (by omega) hlt hsaved) (by simp only [pendingSize]; omega)
      · exact more _ _ (cons (by omega) (by omega) hsaved) (by simp only [pendingSize]; omega)
      · cases saved with
        | nil => exact done
        | cons range saved => exact more _ _ hsaved (by simp only [pendingSize] at hn ⊢; omega)

/-- **Sorting rearranges**, whatever the comparator answers. -/
theorem qsort_perm (s : σ) (a : List α) : ∃ b s', qsort comp s a = some (b, s') ∧ b.Perm a := by
  rw [qsort]
  split
  · exact ⟨a, s, rfl, List.Perm.refl a⟩
  · refine qsortLoop_perm comp a.length s a (0, a.length - 1) [] ?_ (by simp only [pendingSize]; omega)
    rintro q hq
    obtain rfl := List.mem_singleton.1 hq
    exact ⟨by simp, by dsimp only; omega⟩

end

/-! ## Only the answers count -/

section

variable {β : Type} (f : α → β) (comp : Comparator σ β)

/-- Elements are compared by what `f` makes of them. -/
def comparing : Comparator σ α := fun s x y => comp s (f x) (f y)

theorem compareAt_map (s : σ) (a : List α) (i j : Nat) :
    compareAt comp s (a.map f) i j = compareAt (comparing f comp) s a i j := by
  simp only [compareAt, List.getElem?_map]
  cases a[i]? <;> cases a[j]? <;> rfl

theorem map_swap (a : List α) (i j : Nat) : (a.map f).swap i j = (a.swap i j).map f := by
  rw [List.swap_eq, List.swap_eq]
  by_cases h : i < a.length ∧ j < a.length
  · simp [h, List.map_set]
  · simp [h]

theorem shortsortMax_map (a : List α) : ∀ (n : Nat) (s : σ) (max p : Nat),
    shortsortMax comp (a.map f) n s max p = shortsortMax (comparing f comp) a n s max p
  | 0, _, _, _ => rfl
  | n + 1, s, max, p => by simp only [shortsortMax, compareAt_map, shortsortMax_map a n]

theorem qsortShortsort_map (lo : Nat) : ∀ (n : Nat) (s : σ) (a : List α),
    qsortShortsort comp lo n s (a.map f) =
      (qsortShortsort (comparing f comp) lo n s a).map fun r => (r.1.map f, r.2)
  | 0, _, _ => rfl
  | n + 1, s, a => by
    simp only [qsortShortsort, shortsortMax_map, map_swap, Option.bind_eq_bind, Option.map_bind]
    exact Option.bind_congr fun r _ => qsortShortsort_map lo n r.2 _

theorem scanUp_map (a : List α) (lo hi : Nat) : ∀ (n : Nat) (s : σ) (l : Nat),
    scanUp comp (a.map f) lo hi n s l = scanUp (comparing f comp) a lo hi n s l
  | 0, _, _ => rfl
  | n + 1, s, l => by simp only [scanUp, compareAt_map, scanUp_map a lo hi n]

theorem scanDown_map (a : List α) (lo : Nat) : ∀ (n : Nat) (s : σ) (h : Nat),
    scanDown comp (a.map f) lo n s h = scanDown (comparing f comp) a lo n s h
  | 0, _, _ => rfl
  | n + 1, s, h => by simp only [scanDown, compareAt_map, scanDown_map a lo n]

theorem partitionLoop_map (lo hi : Nat) : ∀ (n : Nat) (s : σ) (a : List α) (l h : Nat),
    partitionLoop comp lo hi n s (a.map f) l h =
      (partitionLoop (comparing f comp) lo hi n s a l h).map fun r => (r.1.map f, r.2)
  | 0, _, _, _, _ => rfl
  | n + 1, s, a, l, h => by
    simp only [partitionLoop, scanUp_map, scanDown_map, map_swap, Option.bind_eq_bind, Option.map_bind]
    refine Option.bind_congr fun q _ => ?_
    simp only [Function.comp, Option.map_bind]
    refine Option.bind_congr fun r _ => ?_
    show (if r.1 < q.1 then _ else _) = Option.map _ (if r.1 < q.1 then _ else _)
    by_cases hlt : r.1 < q.1
    · rw [if_pos hlt, if_pos hlt]
      rfl
    · rw [if_neg hlt, if_neg hlt]
      exact partitionLoop_map lo hi n r.2 _ q.1 r.1

theorem qsortLoop_map : ∀ (n : Nat) (s : σ) (a : List α) (range : Nat × Nat) (saved : List (Nat × Nat)),
    qsortLoop comp n s (a.map f) range saved =
      (qsortLoop (comparing f comp) n s a range saved).map fun r => (r.1.map f, r.2)
  | 0, _, _, _, _ => rfl
  | n + 1, s, a, (lo, hi), saved => by
    simp only [qsortLoop]
    split
    · simp only [qsortShortsort_map, Option.bind_eq_bind, Option.map_bind, Option.bind_map]
      refine Option.bind_congr fun r _ => ?_
      cases saved with
      | nil => rfl
      | cons range saved => exact qsortLoop_map n r.2 r.1 range saved
    · simp only [map_swap, partitionLoop_map, Option.bind_eq_bind, Option.map_bind, Option.bind_map]
      refine Option.bind_congr fun r _ => ?_
      obtain ⟨b, l, h, s'⟩ := r
      dsimp only [Function.comp]
      generalize (if h + l > hi + lo then if lo + 1 < h then (lo, h - 1) :: saved else saved
        else if l < hi then (l, hi) :: saved else saved) = saved'
      generalize (if h + l > hi + lo then if l < hi then some (l, hi) else none
        else if lo + 1 < h then some (lo, h - 1) else none) = next
      rw [map_swap]
      cases next with
      | some range => exact qsortLoop_map n _ _ _ _
      | none =>
        cases saved' with
        | nil => rfl
        | cons range saved' => exact qsortLoop_map n _ _ _ _

/-- **Sorting commutes with a map** when the comparator sees the images only. -/
theorem qsort_map (s : σ) (a : List α) :
    qsort comp s (a.map f) = (qsort (comparing f comp) s a).map fun r => (r.1.map f, r.2) := by
  simp only [qsort, List.length_map]
  split
  · rfl
  · exact qsortLoop_map f comp _ s a _ _

end

end Core
end ObjectScript
