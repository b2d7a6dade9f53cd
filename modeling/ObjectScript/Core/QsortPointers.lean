import Mathlib.Tactic.Ring
import ObjectScript.Core.QsortSorted
/-!
# Sorting by pointers

`OS::qsort` as it moves its pointers: an array of `num` elements of `width` bytes, both `unsigned`, places as distances from
its base in bytes, and `lostk`, `histk` with 30 places.  There is no result where a place is read or exchanged that is no
element of the array, or a range is saved with 30 saved already.

The place of the last element is `base + width * (num - 1)` with the product in 32 bits.  As long as that is no overflow the
pointers do what `qsort` does with indices (`qsort_eq`); beyond, the array is not sorted.
-/
namespace ObjectScript
namespace Core
namespace Pointers

variable {α σ : Type}

section Model

variable (comp : Comparator σ α) (width : Nat)

def elementAt (p : Nat) : Option Nat := if p % width = 0 then some (p / width) else none

/-- `comp(os, p, q, user_params)` -/
def compareAt (s : σ) (a : List α) (p q : Nat) : Option (Int × σ) := do
  let i ← elementAt width p
  let j ← elementAt width q
  Core.compareAt comp s a i j

def qsortSwap (a : List α) (p q : Nat) : Option (List α) :=
  if p = q then some a
  else do
    let i ← elementAt width p
    let j ← elementAt width q
    if i < a.length ∧ j < a.length then some (a.swap i j) else none

/-- `for (p = lo + width; p <= hi; p += width) if (comp(p, max) > 0) max = p` -/
def shortsortMax (a : List α) (hi : Nat) : Nat → σ → Nat → Nat → Option (Nat × σ)
  | 0, _, _, _ => none
  | n + 1, s, max, p =>
    if p ≤ hi then do
      let (c, s) ← compareAt comp width s a p max
      shortsortMax a hi n s (if c > 0 then p else max) (p + width)
    else some (max, s)

def qsortShortsort (lo : Nat) : Nat → σ → List α → Nat → Option (List α × σ)
  | 0, _, _, _ => none
  | n + 1, s, a, hi =>
    if hi > lo then do
      let (max, s) ← shortsortMax comp width a hi (hi / width + 2) s lo (lo + width)
      let a ← qsortSwap width a max hi
      qsortShortsort lo n s a (hi - width)
    else some (a, s)

/-- `do { l += width; } while (l <= hi && comp(l, lo) <= 0)` -/
def scanUp (a : List α) (lo hi : Nat) : Nat → σ → Nat → Option (Nat × σ)
  | 0, _, _ => none
  | n + 1, s, l =>
    if l + width ≤ hi then do
      let (c, s) ← compareAt comp width s a (l + width) lo
      if c ≤ 0 then scanUp a lo hi n s (l + width) else return (l + width, s)
    else some (l + width, s)

/-- `do { h -= width; } while (h > lo && comp(h, lo) >= 0)` -/
def scanDown (a : List α) (lo : Nat) : Nat → σ → Nat → Option (Nat × σ)
  | 0, _, _ => none
  | n + 1, s, h =>
    if h - width > lo then do
      let (c, s) ← compareAt comp width s a (h - width) lo
      if c ≥ 0 then scanDown a lo n s (h - width) else return (h - width, s)
    else some (h - width, s)

def partitionLoop (lo hi : Nat) : Nat → σ → List α → Nat → Nat → Option (List α × Nat × Nat × σ)
  | 0, _, _, _, _ => none
  | n + 1, s, a, l, h => do
    let (l, s) ← scanUp comp width a lo hi (hi / width + 2) s l
    let (h, s) ← scanDown comp width a lo (hi / width + 2) s h
    if h < l then return (a, l, h, s)
    else do
      let a ← qsortSwap width a l h
      partitionLoop lo hi n s a l h

/-- `lostk[stkptr] = lo; histk[stkptr] = hi; ++stkptr` -/
def save (saved : List (Nat × Nat)) (lo hi : Nat) : Option (List (Nat × Nat)) :=
  if saved.length < 30 then some ((lo, hi) :: saved) else none

/-- `(unsigned)((hi - lo) / width + 1)` -/
def size (lo hi : Nat) : Nat := ((hi - lo) / width + 1) % 2 ^ 32

/-- From the label `recurse` on. -/
def qsortLoop : Nat → σ → List α → Nat × Nat → List (Nat × Nat) → Option (List α × σ)
  | 0, _, _, _, _ => none
  | n + 1, s, a, (lo, hi), saved =>
    if size width lo hi ≤ qsortCutoff then do
      let (a, s) ← qsortShortsort comp width lo (hi / width + 1) s a hi
      match saved with
      | [] => return (a, s)
      | range :: saved => qsortLoop n s a range saved
    else do
      let mid := lo + size width lo hi / 2 * width % 2 ^ 32
      let a ← qsortSwap width a mid lo
      let (a, l, h, s) ← partitionLoop comp width lo hi (hi / width + 2) s a lo (hi + width)
      let a ← qsortSwap width a lo h
      if (h : Int) - 1 - lo ≥ hi - l then do
        let saved ← if lo + width < h then save saved lo (h - width) else some saved
        if l < hi then qsortLoop n s a (l, hi) saved
        else
          match saved with
          | [] => return (a, s)
          | range :: saved => qsortLoop n s a range saved
      else do
        let saved ← if l < hi then save saved l hi else some saved
        if lo + width < h then qsortLoop n s a (lo, h - width) saved
        else
          match saved with
          | [] => return (a, s)
          | range :: saved => qsortLoop n s a range saved

def qsort (num : Nat) (s : σ) (a : List α) : Option (List α × σ) :=
  if num < 2 ∨ width = 0 then some (a, s)
  else qsortLoop comp width num s a (0, width * (num - 1) % 2 ^ 32) []

end Model

/-! ## Pointers and indices -/

section

variable {comp : Comparator σ α} {width : Nat}

def scale (width : Nat) (range : Nat × Nat) : Nat × Nat := (width * range.1, width * range.2)

theorem elementAt_mul (hw : 0 < width) (i : Nat) : elementAt width (width * i) = some i := by
  unfold elementAt
  rw [if_pos (Nat.mul_mod_right _ _), Nat.mul_div_cancel_left _ hw]

theorem compareAt_eq (hw : 0 < width) (s : σ) (a : List α) (i j : Nat) :
    compareAt comp width s a (width * i) (width * j) = Core.compareAt comp s a i j := by
  unfold compareAt
  rw [elementAt_mul hw, elementAt_mul hw]
  rfl

theorem qsortSwap_eq (hw : 0 < width) {a : List α} {i j : Nat} (hi : i < a.length) (hj : j < a.length) :
    qsortSwap width a (width * i) (width * j) = some (a.swap i j) := by
  unfold qsortSwap
  split
  · rename_i h
    rw [Nat.eq_of_mul_eq_mul_left hw h, List.swap_self]
  · rw [elementAt_mul hw, elementAt_mul hw]
    exact if_pos ⟨hi, hj⟩

theorem shortsortMax_eq (hw : 0 < width) (a : List α) (hi : Nat) : ∀ (k n : Nat) (s : σ) (max p : Nat), p + k = hi + 1 → k < n →
    shortsortMax comp width a (width * hi) n s (width * max) (width * p) =
      (Core.shortsortMax comp a k s max p).map fun r => (width * r.1, r.2)
  | 0, n + 1, s, max, p, hp, _ => by
    rw [shortsortMax, if_neg (by rw [Nat.mul_le_mul_left_iff hw]; omega)]
    rfl
  | k + 1, n + 1, s, max, p, hp, hn => by
    rw [shortsortMax, if_pos (Nat.mul_le_mul_left _ (by omega)), compareAt_eq hw, Core.shortsortMax]
    simp only [Option.bind_eq_bind, Option.map_bind]
    refine Option.bind_congr fun r _ => ?_
    have hmax : (if r.1 > 0 then width * p else width * max) = width * (if r.1 > 0 then p else max) := by
      split <;> rfl
    rw [hmax, ← Nat.mul_succ]
    exact shortsortMax_eq hw a hi k n r.2 _ (p + 1) (by omega) (by omega)

theorem shortsortMax_lt (a : List α) : ∀ (n : Nat) (s s' : σ) (max p m : Nat), max < a.length → p + n ≤ a.length →
    Core.shortsortMax comp a n s max p = some (m, s') → m < a.length
  | 0, s, s', max, p, m, hmax, _, h => by
    cases h
    exact hmax
  | n + 1, s, s', max, p, m, hmax, hp, h => by
    unfold Core.shortsortMax at h
    simp only [Option.bind_eq_bind, Option.bind_eq_some_iff] at h
    obtain ⟨⟨r, s1⟩, -, h⟩ := h
    refine shortsortMax_lt a n s1 s' _ (p + 1) m ?_ (by omega) h
    split <;> omega

theorem qsortShortsort_eq (hw : 0 < width) (lo : Nat) : ∀ (n f : Nat) (s : σ) (a : List α), n < f → lo + n < a.length →
    qsortShortsort comp width (width * lo) f s a (width * (lo + n)) = Core.qsortShortsort comp lo n s a
  | 0, f + 1, s, a, _, _ => by
    rw [qsortShortsort, Nat.add_zero, if_neg (Nat.lt_irrefl _)]
    rfl
  | n + 1, f + 1, s, a, hf, hlen => by
    have hfuel : width * (lo + (n + 1)) / width = lo + (n + 1) := Nat.mul_div_cancel_left _ hw
    rw [qsortShortsort, if_pos (by rw [gt_iff_lt, Nat.mul_lt_mul_left hw]; omega), Core.qsortShortsort, hfuel, ← Nat.mul_succ,
      shortsortMax_eq hw a (lo + (n + 1)) (n + 1) _ s lo (lo + 1) (by omega) (by omega)]
    simp only [Option.bind_eq_bind, Option.bind_map]
    refine Option.bind_congr fun r hr => ?_
    have hlt := shortsortMax_lt a (n + 1) s r.2 lo (lo + 1) r.1 (by omega) (by omega) hr
    have hsub : width * (lo + (n + 1)) - width = width * (lo + n) := by
      rw [← Nat.add_assoc, Nat.mul_succ, Nat.add_sub_cancel]
    dsimp only [Function.comp]
    rw [qsortSwap_eq hw hlt hlen, Option.bind_some, hsub]
    exact qsortShortsort_eq hw lo n f r.2 _ (by omega) (by rw [List.length_swap]; omega)

theorem scanUp_eq (hw : 0 < width) (a : List α) (lo hi : Nat) : ∀ (n : Nat) (s : σ) (l : Nat),
    scanUp comp width a (width * lo) (width * hi) n s (width * l) =
      (Core.scanUp comp a lo hi n s l).map fun r => (width * r.1, r.2)
  | 0, _, _ => rfl
  | n + 1, s, l => by
    rw [scanUp, Core.scanUp, ← Nat.mul_succ]
    by_cases hle : l + 1 ≤ hi
    · rw [if_pos (Nat.mul_le_mul_left _ hle), if_pos hle, compareAt_eq hw]
      simp only [Option.bind_eq_bind, Option.map_bind]
      refine Option.bind_congr fun r _ => ?_
      dsimp only [Function.comp]
      split
      · exact scanUp_eq hw a lo hi n r.2 (l + 1)
      · rfl
    · rw [if_neg (by rw [Nat.mul_le_mul_left_iff hw]; exact hle), if_neg hle]
      rfl

theorem scanDown_eq (hw : 0 < width) (a : List α) (lo : Nat) : ∀ (n : Nat) (s : σ) (h : Nat),
    scanDown comp width a (width * lo) n s (width * h) =
      (Core.scanDown comp a lo n s h).map fun r => (width * r.1, r.2)
  | 0, _, _ => rfl
  | n + 1, s, h => by
    rw [scanDown, Core.scanDown, ← Nat.mul_sub_one]
    by_cases hlt : h - 1 > lo
    · rw [if_pos ((Nat.mul_lt_mul_left hw).2 hlt), if_pos hlt, compareAt_eq hw]
      simp only [Option.bind_eq_bind, Option.map_bind]
      refine Option.bind_congr fun r _ => ?_
      dsimp only [Function.comp]
      split
      · exact scanDown_eq hw a lo n r.2 (h - 1)
      · rfl
    · rw [if_neg (by rw [gt_iff_lt, Nat.mul_lt_mul_left hw]; exact hlt), if_neg hlt]
      rfl

theorem partitionLoop_eq (hw : 0 < width) (lo hi : Nat) : ∀ (n : Nat) (s : σ) (a : List α) (l h : Nat), hi < a.length → lo ≤ l →
    l ≤ hi → lo < h → h ≤ hi + 1 →
    partitionLoop comp width (width * lo) (width * hi) n s a (width * l) (width * h) =
      (Core.partitionLoop comp lo hi n s a l h).map fun r => (r.1, width * r.2.1, width * r.2.2.1, r.2.2.2)
  | 0, _, _, _, _, _, _, _, _, _ => rfl
  | n + 1, s, a, l, h, hhi, hlo, hl, hh, hh' => by
    have hfuel : width * hi / width = hi := Nat.mul_div_cancel_left _ hw
    obtain ⟨l1, s1, hl1, hl2, hl3⟩ := scanUp_some comp (a := a) lo (by omega) hhi (hi + 2) s l (by omega) hl
    obtain ⟨h1, s2, hd, hd1, hd2⟩ := scanDown_some comp (a := a) lo (by omega) (hi + 2) s1 h (by omega) hh (by omega)
    rw [partitionLoop, Core.partitionLoop, hfuel, scanUp_eq hw, hl1]
    simp only [Option.map_some, Option.bind_eq_bind, Option.bind_some]
    rw [scanDown_eq hw, hd]
    simp only [Option.map_some, Option.bind_some]
    by_cases hlt : h1 < l1
    · rw [if_pos ((Nat.mul_lt_mul_left hw).2 hlt), if_pos hlt]
      rfl
    · rw [if_neg (by rw [Nat.mul_lt_mul_left hw]; exact hlt), if_neg hlt, qsortSwap_eq hw (by omega) (by omega), Option.bind_some]
      exact partitionLoop_eq hw lo hi n s2 _ l1 h1 (by rw [List.length_swap]; exact hhi) (by omega) (by omega) (by omega) (by omega)

/-! ## The saved ranges -/

/-- **Each range saved is half as long as the one before it**, in `n` elements. -/
def Halved (n : Nat) : List (Nat × Nat) → Prop
  | [] => True
  | r :: saved => (r.2 + 1 - r.1) * 2 ^ saved.length ≤ n ∧ Halved n saved

theorem save_some {n lo hi : Nat} {saved : List (Nat × Nat)} {r : Nat × Nat} (hn : n < 2 ^ 32) (h : Halved n (r :: saved))
    (hlong : 8 < r.2 + 1 - r.1) : save (saved.map (scale width)) lo hi = some ((lo, hi) :: saved.map (scale width)) := by
  refine if_pos ?_
  rw [List.length_map]
  refine Nat.lt_of_not_le fun hle => ?_
  have h1 : 2 ^ 30 ≤ 2 ^ saved.length := Nat.pow_le_pow_right (by omega) hle
  have h2 : 9 * 2 ^ 30 ≤ (r.2 + 1 - r.1) * 2 ^ saved.length := Nat.mul_le_mul hlong h1
  have := h.1
  omega

theorem Halved.push {n : Nat} {r q t : Nat × Nat} {saved : List (Nat × Nat)} (h : Halved n (r :: saved))
    (hq : q.2 + 1 - q.1 ≤ r.2 + 1 - r.1) (ht : 2 * (t.2 + 1 - t.1) ≤ r.2 + 1 - r.1) : Halved n (t :: q :: saved) := by
  refine ⟨?_, Nat.le_trans (Nat.mul_le_mul_right _ hq) h.1, h.2⟩
  calc (t.2 + 1 - t.1) * 2 ^ (q :: saved).length = 2 * (t.2 + 1 - t.1) * 2 ^ saved.length := by
        rw [List.length_cons, Nat.pow_succ]
        ring
    _ ≤ (r.2 + 1 - r.1) * 2 ^ saved.length := Nat.mul_le_mul_right _ ht
    _ ≤ n := h.1

theorem Halved.shrink {n : Nat} {r q : Nat × Nat} {saved : List (Nat × Nat)} (h : Halved n (r :: saved))
    (hq : q.2 + 1 - q.1 ≤ r.2 + 1 - r.1) : Halved n (q :: saved) :=
  ⟨Nat.le_trans (Nat.mul_le_mul_right _ hq) h.1, h.2⟩

/-- The ranges lie inside `n` elements, with places of 32 bits. -/
def Addressed (width n : Nat) (ranges : List (Nat × Nat)) : Prop :=
  ∀ q ∈ ranges, q.1 ≤ q.2 ∧ q.2 < n ∧ width * q.2 < 2 ^ 32

theorem Addressed.cons {n : Nat} {r q : Nat × Nat} {saved : List (Nat × Nat)} (h : Addressed width n (r :: saved))
    (h1 : q.1 ≤ q.2) (h2 : q.2 ≤ r.2) : Addressed width n (q :: saved) := fun t ht => by
  rcases List.mem_cons.1 ht with rfl | ht
  · obtain ⟨-, hlt, hbytes⟩ := h r List.mem_cons_self
    exact ⟨h1, Nat.lt_of_le_of_lt h2 hlt, Nat.lt_of_le_of_lt (Nat.mul_le_mul_left _ h2) hbytes⟩
  · exact h t (List.mem_cons_of_mem _ ht)

theorem Addressed.both {n : Nat} {q t : Nat × Nat} {saved : List (Nat × Nat)} (hq : Addressed width n (q :: saved))
    (ht : Addressed width n (t :: saved)) : Addressed width n (t :: q :: saved) := fun r hr => by
  rcases List.mem_cons.1 hr with rfl | hr
  · exact ht _ List.mem_cons_self
  · exact hq r hr

theorem larger_iff (hw : 0 < width) (lo hi l h : Nat) :
    ((width * h : Nat) : Int) - 1 - (width * lo : Nat) ≥ (width * hi : Nat) - (width * l : Nat) ↔ h + l > hi + lo := by
  have hmul : width * h + width * l > width * hi + width * lo ↔ h + l > hi + lo := by
    rw [← Nat.mul_add, ← Nat.mul_add, gt_iff_lt, Nat.mul_lt_mul_left hw]
  rw [← hmul]
  omega

/-- **The pointers do what the indices do**, and never save more than 30 ranges. -/
theorem qsortLoop_eq (hw : 0 < width) {num : Nat} (hnum : num < 2 ^ 32) : ∀ (n : Nat) (s : σ) (a : List α) (range : Nat × Nat)
    (saved : List (Nat × Nat)), Addressed width a.length (range :: saved) → Halved num (range :: saved) →
    qsortLoop comp width n s a (scale width range) (saved.map (scale width)) = Core.qsortLoop comp n s a range saved
  | 0, _, _, _, _, _, _ => rfl
  | n + 1, s, a, (lo, hi), saved, hin, hhalf => by
    obtain ⟨hle, hlt, hbytes⟩ := hin _ List.mem_cons_self
    have hsaved : Addressed width a.length saved := fun q hq => hin q (List.mem_cons_of_mem _ hq)
    dsimp only at hle hlt hbytes
    have hfuel : width * hi / width = hi := Nat.mul_div_cancel_left _ hw
    have hpow : 1 ≤ 2 ^ saved.length := Nat.one_le_two_pow
    have hsize_le : hi + 1 - lo ≤ num := Nat.le_trans (Nat.le_mul_of_pos_right _ hpow) hhalf.1
    have hsize : size width (width * lo) (width * hi) = hi - lo + 1 := by
      unfold size
      rw [← Nat.mul_sub, Nat.mul_div_cancel_left _ hw, Nat.mod_eq_of_lt (by omega)]
    have hnext : ∀ (s : σ) (b : List α) (r : Nat × Nat) (rest : List (Nat × Nat)), b.length = a.length →
        Addressed width a.length (r :: rest) → Halved num (r :: rest) →
        qsortLoop comp width n s b (scale width r) (rest.map (scale width)) = Core.qsortLoop comp n s b r rest :=
      fun s b r rest hlen hr hhalf => qsortLoop_eq hw hnum n s b r rest (by rw [hlen]; exact hr) hhalf
    rw [scale, qsortLoop, Core.qsortLoop, hsize, hfuel]
    by_cases hshort : hi - lo + 1 ≤ qsortCutoff
    · have hsort : qsortShortsort comp width (width * lo) (hi + 1) s a (width * (lo + (hi - lo))) =
          Core.qsortShortsort comp lo (hi - lo) s a :=
        qsortShortsort_eq hw lo (hi - lo) (hi + 1) s a (by omega) (by omega)
      rw [Nat.add_sub_cancel' hle] at hsort
      rw [if_pos hshort, if_pos hshort, hsort]
      refine Option.bind_congr fun r hr => ?_
      obtain ⟨b, s1, hb, hperm⟩ := qsortShortsort_perm comp lo (hi - lo) s a (by omega)
      have heq : r = (b, s1) := Option.some.inj (hr.symm.trans hb)
      rw [heq]
      dsimp only
      cases saved with
      | nil => rfl
      | cons q rest => exact hnext s1 b q rest hperm.length_eq hsaved hhalf.2
    · have hlong : 8 < hi + 1 - lo := by
        unfold qsortCutoff at hshort
        omega
      have hmid : width * lo + (hi - lo + 1) / 2 * width % 2 ^ 32 = width * (lo + (hi - lo + 1) / 2) := by
        have hbound : (hi - lo + 1) / 2 * width ≤ width * hi := by
          rw [Nat.mul_comm]
          exact Nat.mul_le_mul_left _ (by omega)
        rw [Nat.mod_eq_of_lt (by omega), Nat.mul_add, Nat.mul_comm width ((hi - lo + 1) / 2)]
      have hswap : (a.swap (lo + (hi - lo + 1) / 2) lo).length = a.length := List.length_swap
      obtain ⟨b, l, h, s1, hb, hperm, h1, h2, h3, h4, h5⟩ := partitionLoop_perm comp lo hi (hi + 2) s
        (a.swap (lo + (hi - lo + 1) / 2) lo) lo (hi + 1) (by rw [hswap]; exact hlt) (Nat.le_refl _) hle (by omega) (by omega)
        (Nat.le_refl _) (by omega)
      have hblen : b.length = a.length := hperm.length_eq.trans hswap
      have hclen : (b.swap lo h).length = a.length := List.length_swap.trans hblen
      rw [if_neg hshort, if_neg hshort, hmid]
      dsimp only
      rw [qsortSwap_eq hw (by omega) (by omega)]
      simp only [Option.bind_eq_bind, Option.bind_some]
      rw [← Nat.mul_succ, partitionLoop_eq hw lo hi (hi + 2) s _ lo (hi + 1) (by rw [hswap]; exact hlt) (Nat.le_refl _) hle
        (by omega) (Nat.le_refl _), hb]
      simp only [Option.map_some, Option.bind_some]
      rw [qsortSwap_eq hw (by omega) (by omega)]
      simp only [Option.bind_some, larger_iff hw, Nat.mul_lt_mul_left hw, ← Nat.mul_succ, ← Nat.mul_sub_one]
      have hleftIn : lo + 1 < h → Addressed width a.length ((lo, h - 1) :: saved) := fun hleft =>
        hin.cons (by dsimp only; omega) (by dsimp only; omega)
      have hrightIn : l < hi → Addressed width a.length ((l, hi) :: saved) := fun hright =>
        hin.cons (by dsimp only; omega) (Nat.le_refl _)
      by_cases hbig : h + l > hi + lo
      · simp only [if_pos hbig]
        by_cases hleft : lo + 1 < h
        · rw [if_pos hleft, save_some hnum hhalf hlong]
          simp only [if_pos hleft, Option.bind_some]
          by_cases hright : l < hi
          · simp only [if_pos hright]
            exact hnext s1 _ (l, hi) ((lo, h - 1) :: saved) hclen ((hleftIn hleft).both (hrightIn hright))
              (hhalf.push (by dsimp only; omega) (by dsimp only; omega))
          · simp only [if_neg hright]
            exact hnext s1 _ (lo, h - 1) saved hclen (hleftIn hleft) (hhalf.shrink (by dsimp only; omega))
        · rw [if_neg hleft]
          simp only [if_neg hleft]
          by_cases hright : l < hi
          · simp only [if_pos hright]
            exact hnext s1 _ (l, hi) saved hclen (hrightIn hright) (hhalf.shrink (by dsimp only; omega))
          · simp only [if_neg hright]
            cases saved with
            | nil => rfl
            | cons q rest => exact hnext s1 _ q rest hclen hsaved hhalf.2
      · simp only [if_neg hbig]
        by_cases hright : l < hi
        · rw [if_pos hright, save_some hnum hhalf hlong]
          simp only [if_pos hright, Option.bind_some]
          by_cases hleft : lo + 1 < h
          · simp only [if_pos hleft]
            exact hnext s1 _ (lo, h - 1) ((l, hi) :: saved) hclen ((hrightIn hright).both (hleftIn hleft))
              (hhalf.push (by dsimp only; omega) (by dsimp only; omega))
          · simp only [if_neg hleft]
            exact hnext s1 _ (l, hi) saved hclen (hrightIn hright) (hhalf.shrink (by dsimp only; omega))
        · rw [if_neg hright]
          simp only [if_neg hright]
          by_cases hleft : lo + 1 < h
          · simp only [if_pos hleft]
            exact hnext s1 _ (lo, h - 1) saved hclen (hleftIn hleft) (hhalf.shrink (by dsimp only; omega))
          · simp only [if_neg hleft]
            cases saved with
            | nil => rfl
            | cons q rest => exact hnext s1 _ q rest hclen hsaved hhalf.2

/-- **Without overflow the pointers do what the indices do.** -/
theorem qsort_eq {num : Nat} (hnum : num < 2 ^ 32) (hbytes : width * (num - 1) < 2 ^ 32) (hw : 0 < width) (s : σ) {a : List α}
    (ha : a.length = num) : qsort comp width num s a = Core.qsort comp s a := by
  unfold qsort Core.qsort
  by_cases hshort : num < 2
  · rw [if_pos (.inl hshort), if_pos (by omega)]
  · rw [if_neg (by omega), if_neg (by omega), Nat.mod_eq_of_lt hbytes, ha]
    have hin : Addressed width a.length [(0, num - 1)] := fun q hq => by
      obtain rfl := List.mem_singleton.1 hq
      exact ⟨Nat.zero_le _, by dsimp only; omega, hbytes⟩
    have hhalf : Halved num [(0, num - 1)] := ⟨by dsimp only [List.length_nil]; omega, trivial⟩
    exact qsortLoop_eq hw hnum num s a (0, num - 1) [] hin hhalf

/-! ## Overflow -/

theorem shortsortMax_aligned (a : List α) (hi : Nat) : ∀ (n : Nat) (s s' : σ) (max p m : Nat), max % width = 0 → p % width = 0 →
    shortsortMax comp width a hi n s max p = some (m, s') → m % width = 0
  | 0, _, _, _, _, _, _, _, h => by cases h
  | n + 1, s, s', max, p, m, hmax, hp, h => by
    unfold shortsortMax at h
    split at h
    · simp only [Option.bind_eq_bind, Option.bind_eq_some_iff] at h
      obtain ⟨⟨r, s1⟩, -, h⟩ := h
      refine shortsortMax_aligned a hi n s1 s' _ (p + width) m ?_ (by rw [Nat.add_mod_right]; exact hp) h
      split
      · exact hp
      · exact hmax
    · cases h
      exact hmax

theorem elementAt_none {p : Nat} (hp : p % width ≠ 0) : elementAt width p = none := if_neg hp

/-- **A last place that is no element is read.** -/
theorem qsortLoop_none {hi : Nat} (hhi : hi % width ≠ 0) (n : Nat) (s : σ) (a : List α) :
    qsortLoop comp width n s a (0, hi) [] = none := by
  have hpos : hi > 0 := Nat.pos_of_ne_zero fun h => hhi (by rw [h, Nat.zero_mod])
  have hlast := elementAt_none hhi
  cases n with
  | zero => rfl
  | succ n =>
    rw [qsortLoop]
    split
    · refine Option.bind_eq_none_iff.2 fun r hr => ?_
      rw [qsortShortsort, if_pos hpos] at hr
      simp only [Option.bind_eq_bind, Option.bind_eq_some_iff] at hr
      obtain ⟨⟨m, s1⟩, hm, b, hb, -⟩ := hr
      have haligned := shortsortMax_aligned a hi _ s s1 0 (0 + width) m (Nat.zero_mod _) (by simp) hm
      have hne : m ≠ hi := fun h => hhi (h ▸ haligned)
      unfold qsortSwap at hb
      rw [if_neg hne, hlast] at hb
      simp at hb
    · refine Option.bind_eq_none_iff.2 fun b _ => Option.bind_eq_none_iff.2 fun r hr => ?_
      rw [partitionLoop] at hr
      simp only [Option.bind_eq_bind, Option.bind_eq_some_iff] at hr
      obtain ⟨⟨l, s1⟩, -, ⟨h, s2⟩, hdown, -⟩ := hr
      rw [scanDown, Nat.add_sub_cancel, if_pos hpos] at hdown
      unfold compareAt at hdown
      rw [hlast] at hdown
      simp at hdown

end

/-! ## Every array -/

/-- **`OS::qsort` sorts `num` elements of `width` bytes**: it ends, reads and exchanges elements of the array only, saves 30
ranges at most and leaves a rearrangement, in ascending order when the comparator answers by a total preorder. -/
def Sorts (num width : Nat) : Prop :=
  ∀ {σ : Type} (comp : Comparator σ (Vector UInt8 width)) (s : σ) (a : List (Vector UInt8 width)), a.length = num →
    ∃ b s', qsort comp width num s a = some (b, s') ∧ b.Perm a ∧ ∀ le, Orders comp le → b.Pairwise le

theorem sorts_of_fits {num width : Nat} (hnum : num < 2 ^ 32) (hbytes : width * (num - 1) < 2 ^ 32) : Sorts num width := by
  intro σ comp s a ha
  rcases Nat.eq_zero_or_pos width with rfl | hw
  · -- elements of no bytes are all the same
    refine ⟨a, s, if_pos (.inr rfl), List.Perm.refl a, fun le ho => List.pairwise_of_forall fun x y => ?_⟩
    have hsame : x = y := Vector.ext fun i hi => absurd hi (Nat.not_lt_zero i)
    rw [hsame]
    exact ho.refl y
  · obtain ⟨b, s', hb, hperm⟩ := qsort_perm comp s a
    exact ⟨b, s', (qsort_eq hnum hbytes hw s ha).trans hb, hperm, fun le ho => qsort_sorted ho hb⟩

def firstByte {width : Nat} (x : Vector UInt8 width) : Nat := (x.toList.headD 0).toNat

def byFirst (width : Nat) : Comparator Unit (Vector UInt8 width) := fun s x y => ((firstByte x : Int) - firstByte y, s)

theorem byFirst_orders (width : Nat) : Orders (byFirst width) fun x y => firstByte x ≤ firstByte y where
  total x y := Nat.le_total _ _
  trans h h' := Nat.le_trans h h'
  nonpos_iff _ x y := by
    show (firstByte x : Int) - firstByte y ≤ 0 ↔ _
    omega
  nonneg_iff _ x y := by
    show 0 ≤ (firstByte x : Int) - firstByte y ↔ _
    omega

theorem firstByte_replicate {width : Nat} (hw : 0 < width) (c : UInt8) : firstByte (Vector.replicate width c) = c.toNat := by
  obtain ⟨w, rfl⟩ := Nat.exists_eq_add_of_lt hw
  unfold firstByte
  rw [Vector.toList_replicate, Nat.zero_add, List.replicate_succ]
  rfl

theorem not_sorts_of_overflow {num width : Nat} (hnum : num < 2 ^ 32) (hbytes : 2 ^ 32 ≤ width * (num - 1)) : ¬ Sorts num width := by
  have hw : 0 < width := Nat.pos_of_ne_zero fun h => by
    rw [h, Nat.zero_mul] at hbytes
    omega
  have hnum2 : 2 ≤ num := Nat.le_of_not_lt fun h => by
    rw [show num - 1 = 0 by omega, Nat.mul_zero] at hbytes
    omega
  intro h
  let high : Vector UInt8 width := Vector.replicate width 1
  let low : Vector UInt8 width := Vector.replicate width 0
  have ha : (List.replicate (num - 1) high ++ [low]).length = num := by
    rw [List.length_append, List.length_replicate, List.length_singleton]
    omega
  obtain ⟨b, s', hb, hperm, hsorted⟩ := h (byFirst width) () (List.replicate (num - 1) high ++ [low]) ha
  unfold qsort at hb
  rw [if_neg (by omega)] at hb
  by_cases haligned : width * (num - 1) % 2 ^ 32 % width = 0
  · obtain ⟨k, hk⟩ := Nat.dvd_of_mod_eq_zero haligned
    have hlt : width * k < width * (num - 1) := by
      rw [← hk]
      exact Nat.lt_of_lt_of_le (Nat.mod_lt _ (by omega)) hbytes
    have hklt : k < num - 1 := (Nat.mul_lt_mul_left hw).1 hlt
    have hin : Addressed width (List.replicate (num - 1) high ++ [low]).length [(0, k)] := fun q hq => by
      obtain rfl := List.mem_singleton.1 hq
      rw [ha]
      exact ⟨Nat.zero_le _, by dsimp only; omega, hk ▸ Nat.mod_lt _ (by omega)⟩
    have hhalf : Halved num [(0, k)] := ⟨by dsimp only [List.length_nil]; omega, trivial⟩
    have heq : qsortLoop (byFirst width) width num () _ (scale width (0, k)) [] = Core.qsortLoop (byFirst width) num () _ (0, k) [] :=
      qsortLoop_eq hw hnum num () _ (0, k) [] hin hhalf
    rw [hk] at hb
    have hb' : Core.qsortLoop (byFirst width) num () (List.replicate (num - 1) high ++ [low]) (0, k) [] = some (b, s') :=
      heq.symm.trans hb
    have hout := (qsortLoop_sorted (byFirst_orders width) num () _ (0, k) [] b s' (fun q hq => ⟨(hin q hq).1, (hin q hq).2.1⟩)
      (List.pairwise_singleton _ _) hb').2 (num - 1) fun q hq => by
        obtain rfl := List.mem_singleton.1 hq
        exact .inr hklt
    have hlast : b[num - 1]? = some low := by
      rw [hout, List.getElem?_append_right (by rw [List.length_replicate]), List.length_replicate, Nat.sub_self]
      rfl
    obtain ⟨i, hi, hhigh⟩ := List.getElem_of_mem (hperm.mem_iff.2
      (List.mem_append_left _ (List.mem_replicate.2 ⟨by omega, rfl⟩)) : high ∈ b)
    obtain ⟨hl, hlow⟩ := List.getElem?_eq_some_iff.1 hlast
    have hne : i ≠ num - 1 := fun hi' => by
      subst hi'
      have hsame := congrArg firstByte (hhigh.symm.trans hlow)
      rw [firstByte_replicate hw, firstByte_replicate hw] at hsame
      exact absurd hsame (by decide)
    have hlen : b.length = num := hperm.length_eq.trans ha
    have hle := List.pairwise_iff_getElem.1 (hsorted _ (byFirst_orders width)) i (num - 1) hi hl (by omega)
    rw [hhigh, hlow, firstByte_replicate hw, firstByte_replicate hw] at hle
    exact absurd hle (by decide)
  · rw [qsortLoop_none haligned] at hb
    cases hb

/-- **`OS::qsort` sorts exactly when the distance to the last element is an `unsigned`.** -/
theorem sorts_iff (num width : UInt32) : Sorts num.toNat width.toNat ↔ width.toNat * (num.toNat - 1) < 2 ^ 32 :=
  ⟨fun h => Nat.lt_of_not_le fun hle => not_sorts_of_overflow num.toNat_lt hle h, fun h => sorts_of_fits num.toNat_lt h⟩

/-- The place of the last of 65537 elements of 65536 bytes overflows to that of the first one. -/
theorem large_unsorted : ¬ Sorts (65537 : UInt32).toNat (65536 : UInt32).toNat :=
  not_sorts_of_overflow (by decide) (by decide)

end Pointers
end Core
end ObjectScript
