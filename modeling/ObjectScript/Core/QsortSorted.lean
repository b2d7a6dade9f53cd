import ObjectScript.Core.Qsort
/-!
# Sorting sorts

With a comparator that answers by a total preorder, `qsort` leaves the elements in ascending order.  Each range of the sort
is rearranged in itself (`Within`); a partition puts it on two sides of its pivot, so that two elements that are in no
common range are in order already (`Divided`), until no range is left.

A short range is sorted by itself, and the stack of ranges only decides in which order they are taken.  The order of the
comparator need not be strict: elements that are equal may end in any order.
-/
namespace ObjectScript
namespace Core

variable {α σ : Type} {comp : Comparator σ α} {le : α → α → Prop} {a b c : List α} {lo hi : Nat}

/-- **The comparator answers by `le`**, a total preorder. -/
structure Orders (comp : Comparator σ α) (le : α → α → Prop) : Prop where
  total : ∀ x y, le x y ∨ le y x
  trans : ∀ {x y z}, le x y → le y z → le x z
  nonpos_iff : ∀ s x y, (comp s x y).1 ≤ 0 ↔ le x y
  nonneg_iff : ∀ s x y, 0 ≤ (comp s x y).1 ↔ le y x

theorem Orders.refl (ho : Orders comp le) (x : α) : le x x := (ho.total x x).elim id id

theorem Orders.of_not (ho : Orders comp le) {x y : α} (h : ¬ le x y) : le y x := (ho.total x y).resolve_left h

/-- The elements from `i` on, in front of `j`. -/
def Between (P : α → Prop) (a : List α) (i j : Nat) : Prop := ∀ k x, i ≤ k → k < j → a[k]? = some x → P x

/-- **Only the elements from `lo` to `hi` are rearranged.** -/
structure Within (lo hi : Nat) (a b : List α) : Prop where
  length_eq : b.length = a.length
  outside : ∀ i, i < lo ∨ hi < i → b[i]? = a[i]?
  inside : ∀ i, lo ≤ i → i ≤ hi → ∃ j, lo ≤ j ∧ j ≤ hi ∧ b[i]? = a[j]?

theorem Within.refl (lo hi : Nat) (a : List α) : Within lo hi a a :=
  ⟨rfl, fun _ _ => rfl, fun i h1 h2 => ⟨i, h1, h2, rfl⟩⟩

theorem Within.trans (h : Within lo hi a b) (h' : Within lo hi b c) : Within lo hi a c := by
  refine ⟨h'.length_eq.trans h.length_eq, fun i hi => (h'.outside i hi).trans (h.outside i hi), fun i h1 h2 => ?_⟩
  obtain ⟨j, hj1, hj2, hj⟩ := h'.inside i h1 h2
  obtain ⟨k, hk1, hk2, hk⟩ := h.inside j hj1 hj2
  exact ⟨k, hk1, hk2, hj.trans hk⟩

theorem Within.mono {lo' hi' : Nat} (h : Within lo hi a b) (hlo : lo' ≤ lo) (hhi : hi ≤ hi') : Within lo' hi' a b := by
  refine ⟨h.length_eq, fun i hi => h.outside i (by omega), fun i h1 h2 => ?_⟩
  by_cases hin : lo ≤ i ∧ i ≤ hi
  · obtain ⟨j, hj1, hj2, hj⟩ := h.inside i hin.1 hin.2
    exact ⟨j, by omega, by omega, hj⟩
  · exact ⟨i, h1, h2, h.outside i (by omega)⟩

theorem Within.between {P : α → Prop} (h : Within lo hi a b) (hp : Between P a lo (hi + 1)) : Between P b lo (hi + 1) := by
  intro k x h1 h2 hx
  obtain ⟨j, hj1, hj2, hj⟩ := h.inside k h1 (by omega)
  exact hp j x hj1 (by omega) (hj.symm.trans hx)

theorem getElem?_swap {i j : Nat} (hi : i < a.length) (hj : j < a.length) (k : Nat) :
    (a.swap i j)[k]? = if k = j then a[i]? else if k = i then a[j]? else a[k]? := by
  rw [List.swap_eq_of_lt hi hj, List.getElem?_set, List.getElem?_set, List.length_set]
  by_cases hkj : k = j
  · rw [if_pos hkj.symm, if_pos hkj, if_pos (hkj ▸ hj), List.getElem?_eq_getElem hi]
  · rw [if_neg (Ne.symm hkj), if_neg hkj]
    by_cases hki : k = i
    · rw [if_pos hki.symm, if_pos hki, if_pos (hki ▸ hi), List.getElem?_eq_getElem hj]
    · rw [if_neg (Ne.symm hki), if_neg hki]

theorem swap_within {i j : Nat} (hi1 : lo ≤ i) (hi2 : i ≤ hi) (hj1 : lo ≤ j) (hj2 : j ≤ hi) (hlen : hi < a.length) :
    Within lo hi a (a.swap i j) := by
  refine ⟨List.length_swap, fun k hk => ?_, fun k h1 h2 => ?_⟩
  · rw [getElem?_swap (by omega) (by omega), if_neg (by omega), if_neg (by omega)]
  · rw [getElem?_swap (by omega) (by omega)]
    split
    · exact ⟨i, hi1, hi2, rfl⟩
    · split
      · exact ⟨j, hj1, hj2, rfl⟩
      · exact ⟨k, h1, h2, rfl⟩

theorem compareAt_eq {s s' : σ} {i j : Nat} {r : Int} (h : compareAt comp s a i j = some (r, s')) :
    ∃ x y, a[i]? = some x ∧ a[j]? = some y ∧ comp s x y = (r, s') := by
  unfold compareAt at h
  simp only [Option.bind_eq_bind, Option.bind_eq_some_iff, Option.pure_def, Option.some.injEq] at h
  obtain ⟨x, hx, y, hy, h⟩ := h
  exact ⟨x, y, hx, hy, h⟩

/-! ## Short ranges -/

theorem shortsortMax_greatest (ho : Orders comp le) : ∀ (n : Nat) (s : σ) (max p m : Nat) (s' : σ) (top : α), max < p →
    a[max]? = some top → shortsortMax comp a n s max p = some (m, s') →
    ∃ x, a[m]? = some x ∧ le top x ∧ Between (le · x) a p (p + n) ∧ (m = max ∨ p ≤ m ∧ m < p + n)
  | 0, s, max, p, m, s', top, _, htop, h => by
    cases h
    exact ⟨top, htop, ho.refl top, fun k x h1 h2 => absurd h2 (by omega), .inl rfl⟩
  | n + 1, s, max, p, m, s', top, hmax, htop, h => by
    unfold shortsortMax at h
    simp only [Option.bind_eq_bind, Option.bind_eq_some_iff] at h
    obtain ⟨⟨r, s1⟩, hr, h⟩ := h
    obtain ⟨x, y, hx, hy, hcomp⟩ := compareAt_eq hr
    obtain rfl : top = y := Option.some.inj (htop.symm.trans hy)
    have hans := ho.nonpos_iff s x top
    rw [hcomp] at hans
    dsimp only at h hans
    by_cases hpos : r > 0
    · rw [if_pos hpos] at h
      have hle : le top x := ho.of_not fun hle => by
        have := hans.2 hle
        omega
      obtain ⟨z, hz, hxz, hall, hm⟩ := shortsortMax_greatest ho n s1 p (p + 1) m s' x (Nat.lt_succ_self p) hx h
      refine ⟨z, hz, ho.trans hle hxz, fun k w h1 h2 hw => ?_, by omega⟩
      by_cases hk : k = p
      · rw [hk, hx] at hw
        cases hw
        exact hxz
      · exact hall k w (by omega) (by omega) hw
    · rw [if_neg hpos] at h
      have hle : le x top := hans.1 (by omega)
      obtain ⟨z, hz, htz, hall, hm⟩ := shortsortMax_greatest ho n s1 max (p + 1) m s' top (by omega) htop h
      refine ⟨z, hz, htz, fun k w h1 h2 hw => ?_, by omega⟩
      by_cases hk : k = p
      · rw [hk, hx] at hw
        cases hw
        exact ho.trans hle htz
      · exact hall k w (by omega) (by omega) hw

/-- From `lo` to `hi` the elements are in ascending order. -/
def SortedFrom (le : α → α → Prop) (a : List α) (lo hi : Nat) : Prop :=
  ∀ i j x y, lo ≤ i → i < j → j ≤ hi → a[i]? = some x → a[j]? = some y → le x y

theorem qsortShortsort_sorted (ho : Orders comp le) (lo : Nat) : ∀ (n : Nat) (s : σ) (a b : List α) (s' : σ),
    lo + n < a.length → qsortShortsort comp lo n s a = some (b, s') →
    Within lo (lo + n) a b ∧ SortedFrom le b lo (lo + n)
  | 0, s, a, b, s', _, h => by
    cases h
    exact ⟨Within.refl _ _ _, fun i j x y h1 h2 h3 => absurd h3 (by omega)⟩
  | n + 1, s, a, b, s', hlen, h => by
    unfold qsortShortsort at h
    simp only [Option.bind_eq_bind, Option.bind_eq_some_iff] at h
    obtain ⟨⟨m, s1⟩, hm, h⟩ := h
    have hlo := List.getElem?_eq_getElem (show lo < a.length by omega)
    obtain ⟨x, hx, hlox, hall, hmem⟩ := shortsortMax_greatest ho (n + 1) s lo (lo + 1) m s1 _ (Nat.lt_succ_self lo) hlo hm
    have hswap : Within lo (lo + (n + 1)) a (a.swap m (lo + n + 1)) :=
      swap_within (by omega) (by omega) (by omega) (by omega) hlen
    obtain ⟨hwithin, hsorted⟩ := qsortShortsort_sorted ho lo n s1 (a.swap m (lo + n + 1)) b s'
      (by rw [List.length_swap]; omega) h
    have hwhole : Between (le · x) a lo (lo + (n + 1) + 1) := fun k y h1 h2 hy => by
      by_cases hk : k = lo
      · rw [hk, hlo] at hy
        cases hy
        exact hlox
      · exact hall k y (by omega) (by omega) hy
    have hbelow := (hswap.trans (hwithin.mono (Nat.le_refl _) (by omega))).between hwhole
    have htop : b[lo + n + 1]? = some x := by
      rw [hwithin.outside _ (by omega), getElem?_swap (by omega) (by omega), if_pos rfl, hx]
    refine ⟨hswap.trans (hwithin.mono (Nat.le_refl _) (by omega)), fun i j y z h1 h2 h3 hy hz => ?_⟩
    by_cases hj : j = lo + n + 1
    · rw [hj, htop] at hz
      cases hz
      exact hbelow i y h1 (by omega) hy
    · exact hsorted i j y z h1 h2 (by omega) hy hz

/-! ## Partitions -/

theorem scanUp_below (ho : Orders comp le) {p : α} (hp : a[lo]? = some p) : ∀ (n : Nat) (s : σ) (l l' : Nat) (s' : σ),
    scanUp comp a lo hi n s l = some (l', s') →
    Between (le · p) a (l + 1) l' ∧ (l' ≤ hi → ∀ x, a[l']? = some x → le p x)
  | 0, s, l, l', s', h => by cases h
  | n + 1, s, l, l', s', h => by
    have hstop : ∀ m, Between (le · p) a (m + 1) (m + 1) := fun m k x h1 h2 => absurd h2 (by omega)
    unfold scanUp at h
    split at h
    · simp only [Option.bind_eq_bind, Option.bind_eq_some_iff] at h
      obtain ⟨⟨r, s1⟩, hr, h⟩ := h
      obtain ⟨x, y, hx, hy, hcomp⟩ := compareAt_eq hr
      obtain rfl : p = y := Option.some.inj (hp.symm.trans hy)
      have hans := ho.nonpos_iff s x p
      rw [hcomp] at hans
      dsimp only at h hans
      split at h
      · rename_i hle
        obtain ⟨hall, hend⟩ := scanUp_below ho hp n s1 (l + 1) l' s' h
        refine ⟨fun k y h1 h2 hy' => ?_, hend⟩
        by_cases hk : k = l + 1
        · rw [hk, hx] at hy'
          cases hy'
          exact hans.1 hle
        · exact hall k y (by omega) h2 hy'
      · rename_i hgt
        cases h
        refine ⟨hstop l, fun _ y hy' => ?_⟩
        rw [hx] at hy'
        cases hy'
        exact ho.of_not fun hle => hgt (hans.2 hle)
    · cases h
      exact ⟨hstop l, fun hle => absurd hle (by omega)⟩

theorem scanDown_above (ho : Orders comp le) {p : α} (hp : a[lo]? = some p) : ∀ (n : Nat) (s : σ) (h h' : Nat) (s' : σ),
    lo < h → scanDown comp a lo n s h = some (h', s') →
    Between (le p ·) a (h' + 1) h ∧ (∀ x, a[h']? = some x → le x p)
  | 0, s, h, h', s', _, he => by cases he
  | n + 1, s, h, h', s', hlo, he => by
    unfold scanDown at he
    split at he
    · rename_i hgt
      simp only [Option.bind_eq_bind, Option.bind_eq_some_iff] at he
      obtain ⟨⟨r, s1⟩, hr, he⟩ := he
      obtain ⟨x, y, hx, hy, hcomp⟩ := compareAt_eq hr
      obtain rfl : p = y := Option.some.inj (hp.symm.trans hy)
      have hans := ho.nonneg_iff s x p
      rw [hcomp] at hans
      dsimp only at he hans
      split at he
      · rename_i hge
        obtain ⟨hall, hend⟩ := scanDown_above ho hp n s1 (h - 1) h' s' hgt he
        refine ⟨fun k y h1 h2 hy' => ?_, hend⟩
        by_cases hk : k = h - 1
        · rw [hk, hx] at hy'
          cases hy'
          exact hans.1 hge
        · exact hall k y h1 (by omega) hy'
      · rename_i hlt
        cases he
        refine ⟨fun k y h1 h2 => absurd h2 (by omega), fun y hy' => ?_⟩
        rw [hx] at hy'
        cases hy'
        exact ho.of_not fun hle => hlt (hans.2 hle)
    · cases he
      refine ⟨fun k y h1 h2 => absurd h2 (by omega), fun y hy' => ?_⟩
      have hend : h - 1 = lo := by omega
      rw [hend, hp] at hy'
      cases hy'
      exact ho.refl p

/-- The two sides of a partition: up to `l` nothing is above the pivot, from behind `h` on nothing below it. -/
theorem partitionLoop_sides (ho : Orders comp le) {p : α} : ∀ (n : Nat) (s : σ) (a b : List α) (l h l' h' : Nat) (s' : σ),
    hi < a.length → lo ≤ l → l ≤ hi → lo < h → h ≤ hi + 1 → a[lo]? = some p → Between (le · p) a lo (l + 1) →
    Between (le p ·) a h (hi + 1) → partitionLoop comp lo hi n s a l h = some (b, l', h', s') →
    Within lo hi a b ∧ b[lo]? = some p ∧ Between (le · p) b lo l' ∧ Between (le p ·) b (h' + 1) (hi + 1)
  | 0, s, a, b, l, h, l', h', s', _, _, _, _, _, _, _, _, he => by cases he
  | n + 1, s, a, b, l, h, l', h', s', hhi, hlo, hl, hh, hh', hp, hbelow, habove, he => by
    obtain ⟨l1, s1, hl1, hl2, hl3⟩ := scanUp_some comp (a := a) lo (by omega) hhi (hi + 2) s l (by omega) hl
    obtain ⟨h1, s2, hd, hd1, hd2⟩ := scanDown_some comp (a := a) lo (by omega) (hi + 2) s1 h (by omega) hh (by omega)
    obtain ⟨hup, hupEnd⟩ := scanUp_below ho hp _ _ _ _ _ hl1
    obtain ⟨hdown, hdownEnd⟩ := scanDown_above ho hp _ _ _ _ _ hh hd
    have hbelow1 : Between (le · p) a lo l1 := fun k x h1 h2 hx => by
      by_cases hk : k < l + 1
      · exact hbelow k x h1 hk hx
      · exact hup k x (by omega) h2 hx
    have habove1 : Between (le p ·) a (h1 + 1) (hi + 1) := fun k x hk1 hk2 hx => by
      by_cases hk : k < h
      · exact hdown k x hk1 hk hx
      · exact habove k x (by omega) hk2 hx
    simp only [partitionLoop, hl1, hd, Option.bind_eq_bind, Option.bind_some] at he
    split at he
    · cases he
      exact ⟨Within.refl _ _ _, hp, hbelow1, habove1⟩
    · rename_i hge
      have hget := getElem?_swap (a := a) (show l1 < a.length by omega) (show h1 < a.length by omega)
      have hp1 : (a.swap l1 h1)[lo]? = some p := by
        rw [hget, if_neg (by omega), if_neg (by omega)]
        exact hp
      have hbelow2 : Between (le · p) (a.swap l1 h1) lo (l1 + 1) := fun k x hk1 hk2 hx => by
        rw [hget] at hx
        by_cases hk : k < l1
        · rw [if_neg (by omega), if_neg (by omega)] at hx
          exact hbelow1 k x hk1 hk hx
        · obtain rfl : k = l1 := by omega
          by_cases hsame : k = h1
          · rw [if_pos hsame, hsame] at hx
            exact hdownEnd x hx
          · rw [if_neg hsame, if_pos rfl] at hx
            exact hdownEnd x hx
      have habove2 : Between (le p ·) (a.swap l1 h1) h1 (hi + 1) := fun k x hk1 hk2 hx => by
        rw [hget] at hx
        by_cases hk : k = h1
        · rw [if_pos hk] at hx
          exact hupEnd (by omega) x hx
        · rw [if_neg hk, if_neg (by omega)] at hx
          exact habove1 k x (by omega) hk2 hx
      obtain ⟨hwithin, hrest⟩ := partitionLoop_sides ho n s2 (a.swap l1 h1) b l1 h1 l' h' s' (by rw [List.length_swap]; exact hhi)
        (by omega) (by omega) (by omega) (by omega) hp1 hbelow2 habove2 he
      exact ⟨(swap_within (by omega) (by omega) (by omega) (by omega) hhi).trans hwithin, hrest⟩

/-! ## Ranges -/

/-- **Two elements are in order, or in a common range** that is still to sort. -/
def Divided (le : α → α → Prop) (a : List α) (ranges : List (Nat × Nat)) : Prop :=
  ∀ i j x y, i < j → a[i]? = some x → a[j]? = some y → (∃ r ∈ ranges, r.1 ≤ i ∧ j ≤ r.2) ∨ le x y

def RangesApart (ranges : List (Nat × Nat)) : Prop := ranges.Pairwise fun r q => r.2 < q.1 ∨ q.2 < r.1

theorem Divided.refine {r : Nat × Nat} {parts saved : List (Nat × Nat)} (h : Divided le a (r :: saved))
    (hdisj : RangesApart (r :: saved)) (hwithin : Within r.1 r.2 a b)
    (hparts : ∀ i j x y, r.1 ≤ i → i < j → j ≤ r.2 → b[i]? = some x → b[j]? = some y →
      (∃ q ∈ parts, q.1 ≤ i ∧ j ≤ q.2) ∨ le x y) : Divided le b (parts ++ saved) := by
  have hapart := (List.pairwise_cons.1 hdisj).1
  -- a pair with a range of its own had it before
  have hother : ∀ {i j i' j' : Nat} {x y : α}, i' < j' → a[i']? = some x → a[j']? = some y → ¬ (r.1 ≤ i' ∧ j' ≤ r.2) →
      (∀ q ∈ saved, q.1 ≤ i' → j' ≤ q.2 → q.1 ≤ i ∧ j ≤ q.2) → (∃ q ∈ parts ++ saved, q.1 ≤ i ∧ j ≤ q.2) ∨ le x y :=
    fun {i j i' j' x y} hlt hx hy hr hsaved => by
      rcases h i' j' x y hlt hx hy with ⟨q, hq, h1, h2⟩ | hle
      · rcases List.mem_cons.1 hq with rfl | hq
        · exact absurd ⟨h1, h2⟩ hr
        · exact .inl ⟨q, List.mem_append_right _ hq, hsaved q hq h1 h2⟩
      · exact .inr hle
  intro i j x y hij hx hy
  by_cases hi : r.1 ≤ i ∧ i ≤ r.2
  · by_cases hj : j ≤ r.2
    · rcases hparts i j x y hi.1 hij hj hx hy with ⟨q, hq, hrest⟩ | hle
      · exact .inl ⟨q, List.mem_append_left _ hq, hrest⟩
      · exact .inr hle
    · obtain ⟨i', hi1, hi2, hi'⟩ := hwithin.inside i hi.1 hi.2
      rw [hwithin.outside j (by omega)] at hy
      refine hother (show i' < j by omega) (hi'.symm.trans hx) hy (by omega) fun q hq h1 h2 => ?_
      have := hapart q hq
      omega
  · rw [hwithin.outside i (by omega)] at hx
    by_cases hj : r.1 ≤ j ∧ j ≤ r.2
    · obtain ⟨j', hj1, hj2, hj'⟩ := hwithin.inside j hj.1 hj.2
      refine hother (show i < j' by omega) hx (hj'.symm.trans hy) (by omega) fun q hq h1 h2 => ?_
      have := hapart q hq
      omega
    · rw [hwithin.outside j (by omega)] at hy
      exact hother hij hx hy (by omega) fun q hq h1 h2 => ⟨h1, h2⟩

theorem RangesApart.append {r : Nat × Nat} {parts saved : List (Nat × Nat)} (h : RangesApart (r :: saved))
    (hparts : RangesApart parts) (hin : ∀ q ∈ parts, r.1 ≤ q.1 ∧ q.2 ≤ r.2) : RangesApart (parts ++ saved) := by
  obtain ⟨hapart, hsaved⟩ := List.pairwise_cons.1 h
  refine List.pairwise_append.2 ⟨hparts, hsaved, fun q hq t ht => ?_⟩
  have h1 := hin q hq
  have h2 := hapart t ht
  omega

theorem partition_parts (ho : Orders comp le) {l h : Nat} {p : α} {parts : List (Nat × Nat)} (hhi : hi < b.length)
    (h1 : h < l) (h2 : lo ≤ h) (h3 : h ≤ hi) (hp : b[lo]? = some p) (hbelow : Between (le · p) b lo l)
    (habove : Between (le p ·) b (h + 1) (hi + 1)) (hleft : lo + 1 < h → (lo, h - 1) ∈ parts) (hright : l < hi → (l, hi) ∈ parts) :
    ∀ i j x y, lo ≤ i → i < j → j ≤ hi → (b.swap lo h)[i]? = some x → (b.swap lo h)[j]? = some y →
      (∃ q ∈ parts, q.1 ≤ i ∧ j ≤ q.2) ∨ le x y := by
  have hget := getElem?_swap (a := b) (show lo < b.length by omega) (show h < b.length by omega)
  have hlow : ∀ k x, lo ≤ k → k < l → (b.swap lo h)[k]? = some x → le x p := fun k x hk1 hk2 hx => by
    rw [hget] at hx
    split at hx
    · rw [hp] at hx
      cases hx
      exact ho.refl p
    · split at hx
      · exact hbelow h x h2 h1 hx
      · exact hbelow k x hk1 hk2 hx
  have hhigh : ∀ k x, h ≤ k → k ≤ hi → (b.swap lo h)[k]? = some x → le p x := fun k x hk1 hk2 hx => by
    rw [hget] at hx
    split at hx
    · rw [hp] at hx
      cases hx
      exact ho.refl p
    · rw [if_neg (by omega)] at hx
      exact habove k x (by omega) (by omega) hx
  intro i j x y hi1 hij hj hx hy
  by_cases hmid : i < l ∧ h ≤ j
  · exact .inr (ho.trans (hlow i x hi1 hmid.1 hx) (hhigh j y hmid.2 hj hy))
  · by_cases hjh : j < h
    · exact .inl ⟨_, hleft (by omega), hi1, by dsimp only; omega⟩
    · exact .inl ⟨_, hright (by omega), by dsimp only; omega, hj⟩

/-- In the end no range is left, and what was in none stays where it was. -/
theorem qsortLoop_sorted (ho : Orders comp le) : ∀ (n : Nat) (s : σ) (a : List α) (range : Nat × Nat)
    (saved : List (Nat × Nat)) (b : List α) (s' : σ), RangesIn a.length (range :: saved) → RangesApart (range :: saved) →
    qsortLoop comp n s a range saved = some (b, s') → (Divided le a (range :: saved) → Divided le b []) ∧
    ∀ i, (∀ q ∈ range :: saved, i < q.1 ∨ q.2 < i) → b[i]? = a[i]?
  | 0, s, a, (lo, hi), saved, b, s', _, _, he => by cases he
  | n + 1, s, a, (lo, hi), saved, b, s', hin, hapart, he => by
    obtain ⟨hle, hlt⟩ := hin _ List.mem_cons_self
    have hsaved : RangesIn a.length saved := fun q hq => hin q (List.mem_cons_of_mem _ hq)
    dsimp only at hle hlt
    rw [qsortLoop] at he
    split at he
    · obtain ⟨c, s1, hc, hperm⟩ := qsortShortsort_perm comp lo (hi - lo) s a (by omega)
      obtain ⟨hwithin, hsorted⟩ := qsortShortsort_sorted ho lo (hi - lo) s a c s1 (by omega) hc
      rw [Nat.add_sub_cancel' hle] at hwithin hsorted
      have hdiv' : Divided le a ((lo, hi) :: saved) → Divided le c ([] ++ saved) := fun hdiv =>
        hdiv.refine hapart hwithin fun i j x y h1 h2 h3 hx hy => .inr (hsorted i j x y h1 h2 h3 hx hy)
      simp only [hc, Option.bind_eq_bind, Option.bind_some] at he
      cases saved with
      | nil =>
        cases he
        exact ⟨hdiv', fun i hi => hwithin.outside i (hi _ List.mem_cons_self)⟩
      | cons range saved =>
        obtain ⟨hdone, hout⟩ := qsortLoop_sorted ho n s1 c range saved b s' (by rw [hperm.length_eq]; exact hsaved)
          (List.pairwise_cons.1 hapart).2 he
        exact ⟨fun hdiv => hdone (hdiv' hdiv), fun i hi => (hout i fun q hq => hi q (List.mem_cons_of_mem _ hq)).trans
          (hwithin.outside i (hi _ List.mem_cons_self))⟩
    · have hmid : Within lo hi a (a.swap (lo + (hi - lo + 1) / 2) lo) :=
        swap_within (by omega) (by omega) (Nat.le_refl lo) hle hlt
      have hlen : hi < (a.swap (lo + (hi - lo + 1) / 2) lo).length := by rw [List.length_swap]; exact hlt
      obtain ⟨c, l, h, s1, hc, -, h1, h2, h3, h4, h5⟩ := partitionLoop_perm comp lo hi (hi + 2) s
        (a.swap (lo + (hi - lo + 1) / 2) lo) lo (hi + 1) hlen (Nat.le_refl _) hle (by omega) (by omega) (Nat.le_refl _) (by omega)
      have hpivot := List.getElem?_eq_getElem (show lo < (a.swap (lo + (hi - lo + 1) / 2) lo).length by omega)
      obtain ⟨hwithin, hp, hbelow, habove⟩ := partitionLoop_sides ho (hi + 2) s (a.swap (lo + (hi - lo + 1) / 2) lo) c lo (hi + 1)
        l h s1 hlen (Nat.le_refl _) hle (by omega) (Nat.le_refl _) hpivot
        (fun k x hk1 hk2 hx => by
          obtain rfl : k = lo := by omega
          rw [hpivot] at hx
          cases hx
          exact ho.refl _)
        (fun k x hk1 hk2 => absurd hk2 (by omega)) hc
      have hclen : hi < c.length := by rw [hwithin.length_eq]; exact hlen
      have hwhole : Within lo hi a (c.swap lo h) :=
        (hmid.trans hwithin).trans (swap_within (Nat.le_refl lo) hle h2 h3 hclen)
      have hranges : ∀ parts : List (Nat × Nat), (lo + 1 < h → (lo, h - 1) ∈ parts) → (l < hi → (l, hi) ∈ parts) →
          (∀ q ∈ parts, lo ≤ q.1 ∧ q.1 ≤ q.2 ∧ q.2 ≤ hi) → RangesApart parts →
          (RangesIn (c.swap lo h).length (parts ++ saved) ∧ RangesApart (parts ++ saved) ∧
            (Divided le a ((lo, hi) :: saved) → Divided le (c.swap lo h) (parts ++ saved))) ∧
          ∀ i, (∀ q ∈ (lo, hi) :: saved, i < q.1 ∨ q.2 < i) → ∀ q ∈ parts ++ saved, i < q.1 ∨ q.2 < i :=
        fun parts hleft hright hsub hparts => by
        refine ⟨⟨fun q hq => ?_, hapart.append hparts fun q hq => ⟨(hsub q hq).1, (hsub q hq).2.2⟩,
          fun hdiv => hdiv.refine hapart hwhole (partition_parts ho hclen h1 h2 h3 hp hbelow habove hleft hright)⟩,
          fun i hi q hq => ?_⟩
        · rw [hwhole.length_eq]
          rcases List.mem_append.1 hq with hq | hq
          · have := hsub q hq
            omega
          · exact hsaved q hq
        · rcases List.mem_append.1 hq with hq | hq
          · have := hsub q hq
            have := hi _ List.mem_cons_self
            omega
          · exact hi q (List.mem_cons_of_mem _ hq)
      have more (range : Nat × Nat) (rest : List (Nat × Nat)) (hr : (RangesIn (c.swap lo h).length (range :: rest) ∧
          RangesApart (range :: rest) ∧
            (Divided le a ((lo, hi) :: saved) → Divided le (c.swap lo h) (range :: rest))) ∧
          ∀ i, (∀ q ∈ (lo, hi) :: saved, i < q.1 ∨ q.2 < i) → ∀ q ∈ range :: rest, i < q.1 ∨ q.2 < i)
          (he : qsortLoop comp n s1 (c.swap lo h) range rest = some (b, s')) :
          (Divided le a ((lo, hi) :: saved) → Divided le b []) ∧
            ∀ i, (∀ q ∈ (lo, hi) :: saved, i < q.1 ∨ q.2 < i) → b[i]? = a[i]? := by
        obtain ⟨hdone, hout⟩ := qsortLoop_sorted ho n s1 (c.swap lo h) range rest b s' hr.1.1 hr.1.2.1 he
        exact ⟨fun hdiv => hdone (hr.1.2.2 hdiv), fun i hi => (hout i (hr.2 i hi)).trans (hwhole.outside i (hi _ List.mem_cons_self))⟩
      simp only [hc, Option.bind_eq_bind, Option.bind_some] at he
      by_cases hright : l < hi
      · by_cases hleft : lo + 1 < h
        · by_cases hbig : h + l > hi + lo
          · simp only [hbig, hright, hleft, if_true] at he
            exact more _ _ (hranges [(l, hi), (lo, h - 1)] (by simp) (by simp) (by simp; omega) (by simp [RangesApart]; omega)) he
          · simp only [hbig, hright, hleft, if_true, if_false] at he
            exact more _ _ (hranges [(lo, h - 1), (l, hi)] (by simp) (by simp) (by simp; omega) (by simp [RangesApart]; omega)) he
        · have hr := hranges [(l, hi)] (fun h => absurd h hleft) (by simp) (by simp; omega) (by simp [RangesApart])
          by_cases hbig : h + l > hi + lo
          · simp only [hbig, hright, hleft, if_true, if_false] at he
            exact more _ _ hr he
          · simp only [hbig, hright, hleft, if_true, if_false] at he
            exact more _ _ hr he
      · by_cases hleft : lo + 1 < h
        · have hr := hranges [(lo, h - 1)] (by simp) (fun h => absurd h hright) (by simp; omega) (by simp [RangesApart])
          by_cases hbig : h + l > hi + lo
          · simp only [hbig, hright, hleft, if_true, if_false] at he
            exact more _ _ hr he
          · simp only [hbig, hright, hleft, if_true, if_false] at he
            exact more _ _ hr he
        · have hr := hranges [] (fun h => absurd h hleft) (fun h => absurd h hright) (by simp) List.Pairwise.nil
          simp only [hright, hleft, if_false, ite_self] at he
          cases saved with
          | nil =>
            cases he
            exact ⟨hr.1.2.2, fun i hi => hwhole.outside i (hi _ List.mem_cons_self)⟩
          | cons range saved => exact more _ _ hr he

/-- **Sorting sorts**, when the comparator answers by a total preorder. -/
theorem qsort_sorted (ho : Orders comp le) {s s' : σ} (h : qsort comp s a = some (b, s')) : b.Pairwise le := by
  have hsorted : Divided le b [] → b.Pairwise le := fun hdiv => List.pairwise_iff_getElem.2 fun i j hi hj hij => by
    rcases hdiv i j b[i] b[j] hij (List.getElem?_eq_getElem hi) (List.getElem?_eq_getElem hj) with ⟨q, hq, -⟩ | hle
    · cases hq
    · exact hle
  unfold qsort at h
  split at h
  · rename_i hshort
    cases h
    exact hsorted fun i j x y hij hx hy => absurd (List.getElem?_eq_some_iff.1 hy).1 (by omega)
  · refine hsorted ((qsortLoop_sorted ho a.length s a (0, a.length - 1) [] b s' ?_ (List.pairwise_singleton _ _) h).1 ?_)
    · rintro q hq
      obtain rfl := List.mem_singleton.1 hq
      exact ⟨Nat.zero_le _, by dsimp only; omega⟩
    · intro i j x y _ _ hy
      have := (List.getElem?_eq_some_iff.1 hy).1
      exact .inl ⟨_, List.mem_cons_self, Nat.zero_le i, by dsimp only; omega⟩

end Core
end ObjectScript
