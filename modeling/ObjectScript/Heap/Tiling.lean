import ObjectScript.Heap.Medium
/-!
# Pages tiled by blocks

The ring of all blocks is the pages one after the other, each cut into blocks without a gap (`Blocks`); the ring of free
blocks is sorted by falling size (`Listed`).  Splitting a block, joining two, taking a page and giving one back each change
one page and leave the rest alone.

`Tiles` says of one page that each block starts where the one before ends.  From it come the bounds of the blocks, that
two of them are apart, and that a block is found again when a page is cut in another way (`replace`).
-/
namespace ObjectScript
namespace Heap

theorem mem_middle {α : Type*} {xs ys : List α} {a x : α} : a ∈ xs ++ x :: ys ↔ a = x ∨ a ∈ xs ++ ys :=
  List.perm_middle.mem_iff.trans List.mem_cons

theorem mem_without {α : Type*} {xs ys : List α} {a x : α} (hx : x ∉ xs ++ ys) :
    a ∈ xs ++ ys ↔ a ∈ xs ++ x :: ys ∧ a ≠ x := by
  rw [mem_middle]
  constructor
  · intro ha
    refine ⟨.inr ha, ?_⟩
    rintro rfl
    exact hx ha
  · rintro ⟨h1 | h1, h2⟩
    · exact absurd h1 h2
    · exact h1

/-- The blocks lie one behind the other from `start` to `stop`. -/
def Tiles (size : Ref → Nat) : Nat → Nat → List Nat → Prop
  | start, stop, [] => start = stop
  | start, stop, b :: bs => b = start ∧ Tiles size (start + size (.at b)) stop bs

theorem tiles_append (size : Ref → Nat) : ∀ {start stop : Nat} {xs ys : List Nat},
    Tiles size start stop (xs ++ ys) ↔ ∃ mid, Tiles size start mid xs ∧ Tiles size mid stop ys
  | start, stop, [], ys => by simp [Tiles]
  | start, stop, x :: xs, ys => by simp [Tiles, tiles_append size, and_assoc]

theorem tiles_congr {size size' : Ref → Nat} : ∀ {start stop : Nat} {bs : List Nat},
    (∀ b ∈ bs, size' (.at b) = size (.at b)) → Tiles size start stop bs → Tiles size' start stop bs
  | _, _, [], _, h => h
  | start, stop, b :: bs, hsame, ⟨hb, h⟩ => by
    refine ⟨hb, ?_⟩
    rw [hsame b List.mem_cons_self]
    exact tiles_congr (fun d hd => hsame d (List.mem_cons_of_mem _ hd)) h

theorem tiles_le {size : Ref → Nat} : ∀ {start stop : Nat} {bs : List Nat}, Tiles size start stop bs → start ≤ stop
  | _, _, [], h => Nat.le_of_eq h
  | _, _, _ :: _, ⟨_, h⟩ => Nat.le_trans (Nat.le_add_right _ _) (tiles_le h)

theorem tiles_bounds {size : Ref → Nat} {start stop : Nat} {bs : List Nat} {b : Nat} (h : Tiles size start stop bs)
    (hb : b ∈ bs) : start ≤ b ∧ b + size (.at b) ≤ stop := by
  obtain ⟨xs, ys, rfl⟩ := List.append_of_mem hb
  obtain ⟨mid, h1, rfl, h2⟩ := (tiles_append size).1 h
  exact ⟨tiles_le h1, tiles_le h2⟩

theorem tiles_apart {size : Ref → Nat} : ∀ {start stop : Nat} {bs : List Nat}, Tiles size start stop bs →
    bs.Pairwise fun a b => SmallRun.Apart a (size (.at a)) b (size (.at b))
  | _, _, [], _ => .nil
  | start, stop, b :: bs, ⟨hb, h⟩ => by
    refine List.pairwise_cons.2 ⟨fun d hd => Or.inl ?_, tiles_apart h⟩
    rw [hb]
    rw [hb] at h
    exact (tiles_bounds h hd).1

theorem tiles_length {size : Ref → Nat} : ∀ {start stop : Nat} {bs : List Nat}, Tiles size start stop bs →
    (∀ b ∈ bs, 0 < size (.at b)) → start + bs.length ≤ stop
  | _, _, [], h, _ => Nat.le_of_eq h
  | start, stop, b :: bs, ⟨_, h⟩, hpos => by
    have hrest := tiles_length h fun d hd => hpos d (List.mem_cons_of_mem _ hd)
    have hb := hpos b List.mem_cons_self
    rw [List.length_cons]
    omega

open MediumHeap

/-- **The ring of blocks is the pages one after the other, each cut into blocks of one number without a gap.** -/
structure Blocks (c : Sizes) (h : MediumHeap) (parts : List (List Nat)) : Prop where
  ring : LinkRing h.next h.prev .dummyBlock (parts.flatten.map .at)
  pages : h.pages = parts.map (·.headD 0)
  tiles : ∀ part ∈ parts, part ≠ [] ∧ Tiles h.size (part.headD 0) (part.headD 0 + c.pageSize) part
  number : ∀ part ∈ parts, ∀ b ∈ part, h.page (.at b) = h.page (.at (part.headD 0))
  distinct : (h.pages.map fun p => h.page (.at p)).Nodup
  roomy : ∀ b ∈ parts.flatten, c.maxSmallSize / 2 ≤ h.size (.at b)
  apart : h.pages.Pairwise fun p q => SmallRun.Apart p c.pageSize q c.pageSize
  dummyFree : h.size .dummyFree = 0
  dummyBlock : h.page .dummyBlock = dummyPage ∧ h.isFree .dummyBlock = true

/-- **The ring of free blocks, by falling size.** -/
structure Listed (h : MediumHeap) (free : List Nat) : Prop where
  ring : LinkRing h.nextFree h.prevFree .dummyFree (free.map .at)
  sorted : free.Pairwise fun a b => h.size (.at b) ≤ h.size (.at a)

theorem Sizes.half_pos (c : Sizes) : 0 < c.maxSmallSize / 2 := by
  have h1 := c.freeBlock_fits
  have h2 := c.align_pos
  omega

namespace Blocks

variable {c : Sizes} {h : MediumHeap} {parts : List (List Nat)}

theorem size_pos (hb : Blocks c h parts) {b : Nat} (hmem : b ∈ parts.flatten) : 0 < h.size (.at b) :=
  Nat.lt_of_lt_of_le c.half_pos (hb.roomy b hmem)

theorem nodup (hb : Blocks c h parts) : parts.flatten.Nodup := List.Nodup.of_map _ (List.nodup_cons.1 hb.ring.nodup).2

theorem bounds (hb : Blocks c h parts) {part : List Nat} {b : Nat} (hpart : part ∈ parts) (hmem : b ∈ part) :
    part.headD 0 ≤ b ∧ b + h.size (.at b) ≤ part.headD 0 + c.pageSize :=
  tiles_bounds (hb.tiles part hpart).2 hmem

/-- **Two blocks have no byte in common.** -/
theorem blocks_apart (hb : Blocks c h parts) :
    parts.flatten.Pairwise fun a b => SmallRun.Apart a (h.size (.at a)) b (h.size (.at b)) := by
  refine List.pairwise_flatten.2 ⟨fun part hp => tiles_apart (hb.tiles part hp).2, ?_⟩
  have hpages := hb.apart
  rw [hb.pages, List.pairwise_map] at hpages
  refine hpages.imp_of_mem fun {P Q} hP hQ hPQ a ha b hbq => ?_
  have h1 := hb.bounds hP ha
  have h2 := hb.bounds hQ hbq
  unfold SmallRun.Apart at hPQ ⊢
  omega

theorem length_le (hb : Blocks c h parts) : parts.flatten.length ≤ h.pages.length * c.pageSize := by
  rw [hb.pages, List.length_map, List.length_flatten]
  have hle : ∀ part ∈ parts, part.length ≤ c.pageSize := fun part hp => by
    have := tiles_length (hb.tiles part hp).2 fun b hm => hb.size_pos (List.mem_flatten.2 ⟨part, hp, hm⟩)
    omega
  clear hb
  induction parts with
  | nil => simp
  | cons part parts ih =>
    have h1 := hle part List.mem_cons_self
    have h2 := ih fun p hp => hle p (List.mem_cons_of_mem _ hp)
    rw [List.map_cons, List.sum_cons, List.length_cons, Nat.succ_mul]
    omega

/-- Where a block stands: the pages before its page, the blocks of its page before and behind it, and the pages behind. -/
theorem locate {b : Nat} (hmem : b ∈ parts.flatten) : ∃ Ps xs ys Qs, parts = Ps ++ (xs ++ b :: ys) :: Qs := by
  obtain ⟨part, hp, hb⟩ := List.mem_flatten.1 hmem
  obtain ⟨Ps, Qs, rfl⟩ := List.append_of_mem hp
  obtain ⟨xs, ys, rfl⟩ := List.append_of_mem hb
  exact ⟨Ps, xs, ys, Qs, rfl⟩

theorem flatten_middle (Ps Qs : List (List Nat)) (us vs : List Nat) (b : Nat) :
    (Ps ++ (us ++ b :: vs) :: Qs).flatten = (Ps.flatten ++ us) ++ b :: (vs ++ Qs.flatten) := by simp

theorem not_mem_rest {Ps Qs : List (List Nat)} {us vs : List Nat} {b : Nat} (hb : Blocks c h (Ps ++ (us ++ b :: vs) :: Qs)) :
    b ∉ (Ps.flatten ++ us) ++ (vs ++ Qs.flatten) := by
  have hnd := hb.nodup
  rw [flatten_middle, List.nodup_middle, List.nodup_cons] at hnd
  exact hnd.1

theorem outside {Ps Qs : List (List Nat)} {us vs : List Nat} {a b : Nat} (hb : Blocks c h (Ps ++ (us ++ b :: vs) :: Qs))
    (ha : a ∈ Ps.flatten ++ Qs.flatten) : a ∈ (Ps ++ (us ++ b :: vs) :: Qs).flatten ∧ a ≠ b := by
  have hin : a ∈ (Ps.flatten ++ us) ++ (vs ++ Qs.flatten) := by
    rcases List.mem_append.1 ha with ha | ha
    · exact List.mem_append_left _ (List.mem_append_left _ ha)
    · exact List.mem_append_right _ (List.mem_append_right _ ha)
  rw [flatten_middle]
  exact (mem_without hb.not_mem_rest).1 hin

/-- Only what stands in another ring or is not looked at here changes. -/
theorem congr {h' : MediumHeap} (hb : Blocks c h parts) (hnext : h'.next = h.next) (hprev : h'.prev = h.prev)
    (hpages : h'.pages = h.pages) (hsize : h'.size = h.size) (hpage : h'.page = h.page)
    (hfree : h'.isFree .dummyBlock = h.isFree .dummyBlock) : Blocks c h' parts := by
  obtain ⟨h1, h2, h3, h4, h5, h6, h7, h8, h9⟩ := hb
  exact ⟨by rwa [hnext, hprev], by rwa [hpages], by rwa [hsize], by rwa [hpage], by rwa [hpages, hpage], by rwa [hsize],
    by rwa [hpages], by rwa [hsize], by rwa [hpage, hfree]⟩

/-- **One page is cut in another way.** -/
theorem replace {h' : MediumHeap} {Ps Qs : List (List Nat)} {part part' : List Nat} (hb : Blocks c h (Ps ++ part :: Qs))
    (hring : LinkRing h'.next h'.prev .dummyBlock ((Ps ++ part' :: Qs).flatten.map .at)) (hpages : h'.pages = h.pages)
    (hhead : part'.headD 0 = part.headD 0) (hne : part' ≠ [])
    (htiles : Tiles h'.size (part.headD 0) (part.headD 0 + c.pageSize) part')
    (hnumber : ∀ b ∈ part', h'.page (.at b) = h.page (.at (part.headD 0)))
    (hroomy : ∀ b ∈ part', c.maxSmallSize / 2 ≤ h'.size (.at b))
    (hother : ∀ b ∈ Ps.flatten ++ Qs.flatten, h'.size (.at b) = h.size (.at b) ∧ h'.page (.at b) = h.page (.at b))
    (hdummyFree : h'.size .dummyFree = h.size .dummyFree) (hdummyPage : h'.page .dummyBlock = h.page .dummyBlock)
    (hfree : h'.isFree .dummyBlock = h.isFree .dummyBlock) : Blocks c h' (Ps ++ part' :: Qs) := by
  have hmem : ∀ {P}, P ∈ Ps ++ part' :: Qs → P = part' ∨ P ∈ Ps ∨ P ∈ Qs := fun hP => by
    rcases List.mem_append.1 hP with hP | hP
    · exact .inr (.inl hP)
    · rcases List.mem_cons.1 hP with rfl | hP
      · exact .inl rfl
      · exact .inr (.inr hP)
  have hold : ∀ {P}, P ∈ Ps ∨ P ∈ Qs → P ∈ Ps ++ part :: Qs := fun hP => by
    rcases hP with hP | hP
    · exact List.mem_append_left _ hP
    · exact List.mem_append_right _ (List.mem_cons_of_mem _ hP)
  have hoth : ∀ {P}, P ∈ Ps ∨ P ∈ Qs → ∀ b ∈ P, h'.size (.at b) = h.size (.at b) ∧ h'.page (.at b) = h.page (.at b) := by
    intro P hP b hbP
    refine hother b ?_
    rcases hP with hP | hP
    · exact List.mem_append_left _ (List.mem_flatten.2 ⟨P, hP, hbP⟩)
    · exact List.mem_append_right _ (List.mem_flatten.2 ⟨P, hP, hbP⟩)
  have hheadmem : ∀ {P : List Nat}, P ≠ [] → P.headD 0 ∈ P := fun {P} hP => by
    cases P with
    | nil => exact absurd rfl hP
    | cons b bs => exact List.mem_cons_self
  have hheads : ∀ P ∈ Ps ++ part :: Qs, h'.page (.at (P.headD 0)) = h.page (.at (P.headD 0)) := fun P hP => by
    have hPne := (hb.tiles P hP).1
    rcases List.mem_append.1 hP with hP' | hP'
    · exact (hoth (.inl hP') _ (hheadmem hPne)).2
    · rcases List.mem_cons.1 hP' with rfl | hP'
      · rw [← hhead]
        rw [hnumber _ (hheadmem hne), hhead]
      · exact (hoth (.inr hP') _ (hheadmem hPne)).2
  refine ⟨hring, ?_, fun P hP => ?_, fun P hP b hbP => ?_, ?_, fun b hbm => ?_, ?_, hdummyFree.trans hb.dummyFree,
    hdummyPage.trans hb.dummyBlock.1, hfree.trans hb.dummyBlock.2⟩
  · rw [hpages, hb.pages, List.map_append, List.map_append, List.map_cons, List.map_cons, hhead]
  · rcases hmem hP with rfl | hP
    · exact ⟨hne, by rw [hhead]; exact htiles⟩
    · obtain ⟨hPne, ht⟩ := hb.tiles P (hold hP)
      exact ⟨hPne, tiles_congr (fun b hbP => (hoth hP b hbP).1) ht⟩
  · rcases hmem hP with rfl | hP
    · rw [hnumber b hbP, hhead, hheads part (List.mem_append_right _ List.mem_cons_self)]
    · rw [(hoth hP b hbP).2, hheads P (hold hP)]
      exact hb.number P (hold hP) b hbP
  · have hsame : (h'.pages.map fun p => h'.page (.at p)) = h.pages.map fun p => h.page (.at p) := by
      rw [hpages]
      refine List.map_congr_left fun p hp => ?_
      rw [hb.pages] at hp
      obtain ⟨P, hP, rfl⟩ := List.mem_map.1 hp
      exact hheads P hP
    rw [hsame]
    exact hb.distinct
  · obtain ⟨P, hP, hbP⟩ := List.mem_flatten.1 hbm
    rcases hmem hP with rfl | hP
    · exact hroomy b hbP
    · rw [(hoth hP b hbP).1]
      exact hb.roomy b (List.mem_flatten.2 ⟨P, hold hP, hbP⟩)
  · rw [hpages]
    exact hb.apart

end Blocks

/-! ## The free list -/

namespace Listed

variable {c : Sizes} {h : MediumHeap} {free xs ys : List Nat} {b : Nat}

theorem nodup (hl : Listed h free) : free.Nodup := List.Nodup.of_map _ (List.nodup_cons.1 hl.ring.nodup).2

theorem congr {h' : MediumHeap} (hl : Listed h free) (hnext : h'.nextFree = h.nextFree) (hprev : h'.prevFree = h.prevFree)
    (hsize : ∀ a ∈ free, h'.size (.at a) = h.size (.at a)) : Listed h' free := by
  refine ⟨by rw [hnext, hprev]; exact hl.ring, hl.sorted.imp_of_mem fun {x y} hx hy hxy => ?_⟩
  rw [hsize x hx, hsize y hy]
  exact hxy

theorem remove (hl : Listed h (xs ++ b :: ys)) :
    h.removeFreeLink (.at b) = some (h.setFreeLinks (LinkRing.removeLink h.nextFree h.prevFree (.at b))) ∧
      Listed (h.setFreeLinks (LinkRing.removeLink h.nextFree h.prevFree (.at b))) (xs ++ ys) := by
  refine ⟨if_neg (by rintro ⟨⟩), ?_, hl.sorted.sublist ((List.Sublist.refl xs).append (List.sublist_cons_self b ys))⟩
  have hring := hl.ring
  rw [List.map_append, List.map_cons] at hring
  rw [List.map_append]
  exact hring.removeLink_ring

theorem nextFree_eq (hl : Listed h (xs ++ b :: ys)) : h.nextFree (.at b) = (ys.map Ref.at).headD .dummyFree := by
  have hring := hl.ring
  rw [List.map_append, List.map_cons] at hring
  exact hring.next_eq

theorem first_eq (hl : Listed h free) : h.nextFree .dummyFree = (free.map Ref.at).headD .dummyFree := hl.ring.next_sentinel

/-- A block comes into the free list where its size belongs. -/
theorem insert (hl : Listed h (xs ++ ys)) (hb : b ∉ xs ++ ys) (hxs : ∀ a ∈ xs, h.size (.at b) ≤ h.size (.at a))
    (hys : ∀ a ∈ ys, h.size (.at a) ≤ h.size (.at b)) :
    Listed (h.insertBeforeFreeLink (.at b) ((ys.map Ref.at).headD .dummyFree)) (xs ++ b :: ys) := by
  constructor
  · have hring := hl.ring
    rw [List.map_append] at hring
    rw [List.map_append, List.map_cons]
    refine hring.insertBefore_ring ?_
    rw [List.mem_cons, ← List.map_append]
    rintro (⟨⟨⟩⟩ | hmem)
    obtain ⟨a, ha, heq⟩ := List.mem_map.1 hmem
    cases heq
    exact hb ha
  · obtain ⟨h1, h2, h3⟩ := List.pairwise_append.1 hl.sorted
    refine List.pairwise_append.2 ⟨h1, List.pairwise_cons.2 ⟨hys, h2⟩, fun a ha d hd => ?_⟩
    rcases List.mem_cons.1 hd with rfl | hd
    · exact hxs a ha
    · exact h3 a ha d hd

theorem insertFreeBlockFrom_eq (hd : h.size .dummyFree = 0) : ∀ (ys xs : List Nat) (fuel : Nat), Listed h (xs ++ ys) →
    b ∉ xs ++ ys → (∀ a ∈ xs, h.size (.at b) ≤ h.size (.at a)) → ys.length < fuel →
    ∃ xs' ys', xs ++ ys = xs' ++ ys' ∧
      Listed (h.insertBeforeFreeLink (.at b) ((ys'.map Ref.at).headD .dummyFree)) (xs' ++ b :: ys') ∧
      h.insertFreeBlockFrom c (.at b) fuel ((ys.map Ref.at).headD .dummyFree) =
        (h.insertBeforeFreeLink (.at b) ((ys'.map Ref.at).headD .dummyFree)).releaseSurplus c (.at b)
          ((ys'.map Ref.at).headD .dummyFree)
  | [], xs, fuel + 1, hl, hb, hxs, _ => by
    refine ⟨xs, [], rfl, hl.insert hb hxs (by rintro a ⟨⟩), ?_⟩
    unfold MediumHeap.insertFreeBlockFrom
    exact if_pos (by rw [List.map_nil, List.headD_nil, hd]; exact Nat.zero_le _)
  | y :: ys, xs, fuel + 1, hl, hb, hxs, hfuel => by
    by_cases hle : h.size (.at y) ≤ h.size (.at b)
    · refine ⟨xs, y :: ys, rfl, hl.insert hb hxs fun a ha => ?_, ?_⟩
      · rcases List.mem_cons.1 ha with rfl | ha
        · exact hle
        · have := (List.pairwise_cons.1 (List.pairwise_append.1 hl.sorted).2.1).1 a ha
          exact Nat.le_trans this hle
      · unfold MediumHeap.insertFreeBlockFrom
        exact if_pos hle
    · have hmove : xs ++ y :: ys = (xs ++ [y]) ++ ys := by simp
      have hnext := hl.nextFree_eq
      rw [hmove] at hl hb ⊢
      obtain ⟨xs', ys', heq, hlist, hrun⟩ := insertFreeBlockFrom_eq hd ys (xs ++ [y]) fuel hl hb (fun a ha => by
        rcases List.mem_append.1 ha with ha | ha
        · exact hxs a ha
        · rw [List.mem_singleton.1 ha]
          exact Nat.le_of_not_le hle) (by rw [List.length_cons] at hfuel; omega)
      refine ⟨xs', ys', heq, hlist, ?_⟩
      rw [← hrun, ← hnext]
      conv_lhs => unfold MediumHeap.insertFreeBlockFrom
      exact if_neg hle

/-- **`insertFreeBlock` keeps the free list sorted**, and then looks for a page too many behind the block. -/
theorem insertFreeBlock_eq (hl : Listed h free) (hb : b ∉ free) (hd : h.size .dummyFree = 0) (hfuel : free.length < h.fuel c) :
    ∃ xs ys, free = xs ++ ys ∧
      Listed (h.insertBeforeFreeLink (.at b) ((ys.map Ref.at).headD .dummyFree)) (xs ++ b :: ys) ∧
      h.insertFreeBlock c (.at b) =
        (h.insertBeforeFreeLink (.at b) ((ys.map Ref.at).headD .dummyFree)).releaseSurplus c (.at b)
          ((ys.map Ref.at).headD .dummyFree) := by
  have hfirst := hl.first_eq
  obtain ⟨xs, ys, heq, hlist, hrun⟩ := insertFreeBlockFrom_eq (c := c) hd free [] (h.fuel c) hl hb (by rintro a ⟨⟩) hfuel
  refine ⟨xs, ys, heq, hlist, ?_⟩
  unfold MediumHeap.insertFreeBlock
  rw [hfirst]
  exact hrun

/-- The search for the best block ends at one that is large enough. -/
theorem findBestFreeBlock_eq {size : Nat} (hd : h.size .dummyFree < size) : ∀ (ys xs : List Nat) (b fuel : Nat),
    Listed h (xs ++ b :: ys) → size ≤ h.size (.at b) → ys.length < fuel →
    ∃ d ∈ b :: ys, h.findBestFreeBlock size fuel (.at b) = some (.at d) ∧ size ≤ h.size (.at d)
  | ys, xs, b, fuel + 1, hl, hb, hfuel => by
    unfold MediumHeap.findBestFreeBlock
    dsimp only
    rw [hl.nextFree_eq]
    cases ys with
    | nil =>
      rw [List.map_nil, List.headD_nil, if_neg (Nat.not_le_of_lt hd)]
      exact ⟨b, List.mem_cons_self, rfl, hb⟩
    | cons y ys =>
      rw [List.map_cons, List.headD_cons]
      by_cases hle : size ≤ h.size (.at y)
      · rw [if_pos hle]
        have hmove : xs ++ b :: y :: ys = (xs ++ [b]) ++ y :: ys := by simp
        rw [hmove] at hl
        obtain ⟨d, hmem, hd', hsize⟩ := findBestFreeBlock_eq hd ys (xs ++ [b]) y fuel hl hle (by
          rw [List.length_cons] at hfuel
          omega)
        exact ⟨d, List.mem_cons_of_mem _ hmem, hd', hsize⟩
      · rw [if_neg hle]
        exact ⟨b, List.mem_cons_self, rfl, hb⟩

end Listed
end Heap
end ObjectScript
