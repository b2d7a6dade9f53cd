import ObjectScript.Heap.Tiling
/-!
# What a request and a release do to the pages

`Tiled` is the invariant between calls: the pages are tiled, the free list has the free blocks, and no two free blocks are
neighbours.  Taking a page, cutting a block from a free one and joining a freed block with its neighbours each keep it.

Each lemma takes the pages apart where its block is (`locate`), changes the one page there, and puts them together
again.  The sizes and numbers of all other blocks stay, which is what the runs and the counters need.
-/
namespace ObjectScript
namespace Heap

open MediumHeap

def FreeApart (h : MediumHeap) (part : List Nat) : Prop :=
  part.IsChain fun a b => ¬ (h.isFree (.at a) = true ∧ h.isFree (.at b) = true)

structure Tiled (c : Sizes) (h : MediumHeap) (parts : List (List Nat)) (free : List Nat) : Prop where
  blocks : Blocks c h parts
  listed : Listed h free
  free_iff : ∀ b, b ∈ free ↔ b ∈ parts.flatten ∧ h.isFree (.at b) = true
  freeApart : ∀ part ∈ parts, FreeApart h part

theorem freeApart_congr {h h' : MediumHeap} {part : List Nat} (hsame : ∀ b ∈ part, h'.isFree (.at b) = h.isFree (.at b))
    (hp : FreeApart h part) : FreeApart h' part := by
  refine List.IsChain.imp_of_mem_imp (fun {a b} ha hb hab => ?_) hp
  rw [hsame a ha, hsame b hb]
  exact hab

namespace Blocks

variable {c : Sizes} {h : MediumHeap} {parts Ps Qs : List (List Nat)} {p : Nat}

theorem pages_nodup (hb : Blocks c h parts) : h.pages.Nodup := List.Nodup.of_map _ hb.distinct

theorem whole {xs ys : List Nat} {b : Nat} (hb : Blocks c h (Ps ++ (xs ++ b :: ys) :: Qs)) (hsize : h.size (.at b) = c.pageSize) :
    xs = [] ∧ ys = [] := by
  have hpart : xs ++ b :: ys ∈ Ps ++ (xs ++ b :: ys) :: Qs := List.mem_append_right _ List.mem_cons_self
  have hpos : ∀ a ∈ xs ++ b :: ys, 0 < h.size (.at a) := fun a ha =>
    hb.size_pos (List.mem_flatten.2 ⟨_, hpart, ha⟩)
  obtain ⟨mid, h1, rfl, h2⟩ := (tiles_append h.size).1 (hb.tiles _ hpart).2
  have hx := tiles_length h1 fun a ha => hpos a (List.mem_append_left _ ha)
  have hy := tiles_length h2 fun a ha => hpos a (List.mem_append_right _ (List.mem_cons_of_mem _ ha))
  exact ⟨List.length_eq_zero_iff.1 (by omega), List.length_eq_zero_iff.1 (by omega)⟩

/-- **A page of one block goes back to the system.** -/
theorem release (hb : Blocks c h (Ps ++ [p] :: Qs)) :
    (h.removeLink (.at p)).stdFree (.at p) = some { h.removeLink (.at p) with pages := h.pages.erase p } ∧
      Blocks c { h.removeLink (.at p) with pages := h.pages.erase p } (Ps ++ Qs) := by
  have hpages : h.pages = Ps.map (·.headD 0) ++ p :: Qs.map (·.headD 0) := by
    rw [hb.pages, List.map_append, List.map_cons]
    rfl
  have hnot : p ∉ Ps.map (·.headD 0) := by
    have hnd := hb.pages_nodup
    rw [hpages] at hnd
    exact fun hmem => (List.nodup_append.1 hnd).2.2 p hmem p List.mem_cons_self rfl
  have herase : h.pages.erase p = (Ps ++ Qs).map (·.headD 0) := by
    rw [hpages, List.erase_append_right _ hnot, List.erase_cons_head, List.map_append]
  have hsub : (h.pages.erase p).Sublist h.pages := List.erase_sublist
  have hmem : ∀ {P}, P ∈ Ps ++ Qs → P ∈ Ps ++ [p] :: Qs := fun hP => by
    rcases List.mem_append.1 hP with hP | hP
    · exact List.mem_append_left _ hP
    · exact List.mem_append_right _ (List.mem_cons_of_mem _ hP)
  refine ⟨?_, ?_, herase, fun P hP => hb.tiles P (hmem hP), fun P hP => hb.number P (hmem hP), ?_, fun b hbm => ?_, ?_,
    hb.dummyFree, hb.dummyBlock⟩
  · have hin : p ∈ h.pages := by
      rw [hpages]
      exact List.mem_append_right _ List.mem_cons_self
    exact if_pos hin
  · have hring := hb.ring
    rw [List.flatten_append, List.flatten_cons, List.singleton_append, List.map_append, List.map_cons] at hring
    rw [List.flatten_append, List.map_append]
    exact hring.removeLink_ring
  · exact hb.distinct.sublist (hsub.map _)
  · obtain ⟨P, hP, hbP⟩ := List.mem_flatten.1 hbm
    exact hb.roomy b (List.mem_flatten.2 ⟨P, hmem hP, hbP⟩)
  · exact hb.apart.sublist hsub

theorem head_mem_pages (hb : Blocks c h parts) {part : List Nat} (hpart : part ∈ parts) : part.headD 0 ∈ h.pages := by
  rw [hb.pages]
  exact List.mem_map_of_mem hpart

theorem page_mem_flatten (hb : Blocks c h parts) {p : Nat} (hp : p ∈ h.pages) : p ∈ parts.flatten := by
  rw [hb.pages] at hp
  obtain ⟨P, hP, rfl⟩ := List.mem_map.1 hp
  have hPne := (hb.tiles P hP).1
  refine List.mem_flatten.2 ⟨P, hP, ?_⟩
  cases P with
  | nil => exact absurd rfl hPne
  | cons b bs => exact List.mem_cons_self

theorem fresh_not_mem (hb : Blocks c h parts) (hpos : 0 < c.pageSize) {page : Nat}
    (hfresh : ∀ p ∈ h.pages, SmallRun.Apart page c.pageSize p c.pageSize) : page ∉ parts.flatten := by
  intro hmem
  obtain ⟨part, hpart, hin⟩ := List.mem_flatten.1 hmem
  have hbounds := hb.bounds hpart hin
  have hsize := hb.size_pos hmem
  have := hfresh _ (hb.head_mem_pages hpart)
  unfold SmallRun.Apart at this
  omega

end Blocks

theorem Sizes.pageSize_pos (c : Sizes) : 0 < c.pageSize := by
  have h1 := c.room
  have h2 := c.align_pos
  omega

theorem Sizes.maxSmallSize_lt (c : Sizes) : c.maxSmallSize < c.pageSize := by
  have h1 := c.room
  have h2 := c.align_pos
  omega

def Used (h : MediumHeap) (parts : List (List Nat)) (b : Nat) : Prop := b ∈ parts.flatten ∧ h.isFree (.at b) = false

/-- What a request leaves: the new block `a` is in use and large enough, the others are as they were. -/
structure Serves (c : Sizes) (h h' : MediumHeap) (parts parts' : List (List Nat)) (a size : Nat) : Prop where
  used : ∀ b, Used h' parts' b ↔ b = a ∨ Used h parts b
  new : ¬ Used h parts a
  size_le : size ≤ h'.size (.at a)
  sizes : ∀ b, Used h parts b → h'.size (.at b) = h.size (.at b)
  pages : h'.pages = h.pages
  numbers : ∀ p ∈ h.pages, h'.page (.at p) = h.page (.at p)
  nextPage : h'.nextPage = h.nextPage
  taken : h'.taken = h.taken

namespace Tiled

variable {c : Sizes} {h : MediumHeap} {parts : List (List Nat)} {free : List Nat}

theorem free_length (ht : Tiled c h parts free) : free.length < h.fuel c := by
  have hsub : free ⊆ parts.flatten := fun b hb => ((ht.free_iff b).1 hb).1
  have hle := (List.subperm_of_subset ht.listed.nodup hsub).length_le
  exact Nat.lt_succ_of_le (Nat.le_trans hle ht.blocks.length_le)

/-- **Giving back a page too many.** -/
theorem releaseSurplus {xs ys : List Nat} {b : Nat} (ht : Tiled c h parts (xs ++ b :: ys)) :
    ∃ h' parts' free', h.releaseSurplus c (.at b) ((ys.map Ref.at).headD .dummyFree) = some h' ∧ Tiled c h' parts' free' ∧
      h'.size = h.size ∧ h'.page = h.page ∧ h'.isFree = h.isFree ∧ h'.nextPage = h.nextPage ∧ h'.taken = h.taken ∧
      (parts' = parts ∧ h'.pages = h.pages ∨
        ∃ Ps Qs p, parts = Ps ++ [p] :: Qs ∧ parts' = Ps ++ Qs ∧ h.isFree (.at p) = true ∧ h'.pages = h.pages.erase p) := by
  unfold MediumHeap.releaseSurplus
  by_cases hs : h.surplus c (.at b) ((ys.map Ref.at).headD .dummyFree) = true
  · rw [if_pos hs]
    have hcur : h.size ((ys.map Ref.at).headD .dummyFree) = c.pageSize := by
      unfold MediumHeap.surplus at hs
      simp only [Bool.and_eq_true, beq_iff_eq] at hs
      exact hs.1.1.1.1.1.2
    cases ys with
    | nil =>
      rw [List.map_nil, List.headD_nil, ht.blocks.dummyFree] at hcur
      have := c.pageSize_pos
      omega
    | cons p ys =>
      rw [List.map_cons, List.headD_cons] at hcur ⊢
      have hp : p ∈ xs ++ b :: p :: ys := List.mem_append_right _ (List.mem_cons_of_mem _ List.mem_cons_self)
      obtain ⟨hpin, hpfree⟩ := (ht.free_iff p).1 hp
      obtain ⟨Ps, us, vs, Qs, rfl⟩ := Blocks.locate hpin
      obtain ⟨rfl, rfl⟩ := ht.blocks.whole hcur
      have hmove : xs ++ b :: p :: ys = (xs ++ [b]) ++ p :: ys := by simp
      have hlisted := ht.listed
      have hnodup := ht.listed.nodup
      rw [hmove] at hlisted hnodup
      obtain ⟨hremove, hlist⟩ := hlisted.remove
      have hblocks : Blocks c (h.setFreeLinks (LinkRing.removeLink h.nextFree h.prevFree (.at p))) (Ps ++ ([] ++ [p]) :: Qs) :=
        ht.blocks.congr rfl rfl rfl rfl rfl rfl
      obtain ⟨hstd, hrest⟩ := hblocks.release
      rw [hremove]
      refine ⟨_, Ps ++ Qs, (xs ++ [b]) ++ ys, hstd, ⟨hrest, ?_, fun a => ?_, fun P hP => ?_⟩, rfl, rfl, rfl, rfl, rfl,
        .inr ⟨Ps, Qs, p, rfl, rfl, hpfree, rfl⟩⟩
      · exact hlist.congr rfl rfl fun _ _ => rfl
      · rw [List.nodup_middle, List.nodup_cons] at hnodup
        have hmem : a ∈ (xs ++ [b]) ++ ys ↔ a ∈ (xs ++ [b]) ++ p :: ys ∧ a ≠ p := mem_without hnodup.1
        have hbnodup := ht.blocks.nodup
        have hflat : a ∈ (Ps ++ Qs).flatten ↔ a ∈ (Ps ++ ([] ++ [p]) :: Qs).flatten ∧ a ≠ p := by
          simp only [List.flatten_append, List.flatten_cons, List.nil_append, List.singleton_append] at hbnodup ⊢
          rw [List.nodup_middle, List.nodup_cons] at hbnodup
          exact mem_without hbnodup.1
        rw [hmem, ← hmove, ht.free_iff, hflat]
        exact and_right_comm
      · refine ht.freeApart P ?_
        rcases List.mem_append.1 hP with hP | hP
        · exact List.mem_append_left _ hP
        · exact List.mem_append_right _ (List.mem_cons_of_mem _ hP)
  · rw [if_neg hs]
    exact ⟨h, parts, _, rfl, ht, rfl, rfl, rfl, rfl, rfl, .inl ⟨rfl, rfl⟩⟩

/-- **A page from the system.** -/
theorem newPage {page : Nat} (ht : Tiled c h parts free)
    (hfresh : ∀ p ∈ h.pages, SmallRun.Apart page c.pageSize p c.pageSize)
    (hnumber : ∀ p ∈ h.pages, h.page (.at p) ≠ h.nextPage) : Tiled c (h.newPage c page) ([page] :: parts) (page :: free) := by
  have hnot := ht.blocks.fresh_not_mem c.pageSize_pos hfresh
  have hne : ∀ b ∈ parts.flatten, Ref.at b ≠ Ref.at page := by
    rintro b hb heq
    cases heq
    exact hnot hb
  have hpages : ∀ p ∈ h.pages, p ∈ parts.flatten := fun p hp => ht.blocks.page_mem_flatten hp
  have hsize : ∀ b ∈ parts.flatten, (h.newPage c page).size (.at b) = h.size (.at b) := fun b hb =>
    h.newPage_size_of_ne c (hne b hb)
  have hpage : ∀ b ∈ parts.flatten, (h.newPage c page).page (.at b) = h.page (.at b) := fun b hb =>
    h.newPage_page_of_ne c (hne b hb)
  have hfree : ∀ b ∈ parts.flatten, (h.newPage c page).isFree (.at b) = h.isFree (.at b) := fun b hb =>
    h.newPage_isFree_of_ne c (hne b hb)
  have hsize' : (h.newPage c page).size (.at page) = c.pageSize := Function.update_self ..
  have hpage' : (h.newPage c page).page (.at page) = h.nextPage := Function.update_self ..
  have hfree' : (h.newPage c page).isFree (.at page) = true := Function.update_self ..
  have hring := ht.blocks.ring
  have hle : ∀ b ∈ parts.flatten, h.size (.at b) ≤ c.pageSize := fun b hb => by
    obtain ⟨P, hP, hbP⟩ := List.mem_flatten.1 hb
    have := ht.blocks.bounds hP hbP
    omega
  refine ⟨⟨?_, ?_, fun P hP => ?_, fun P hP b hb => ?_, ?_, fun b hb => ?_, ?_, ?_, ?_⟩, ⟨?_, ?_⟩, fun b => ?_, fun P hP => ?_⟩
  · show LinkRing (LinkRing.insertBefore h.next h.prev (.at page) (h.next .dummyBlock)).1
      (LinkRing.insertBefore h.next h.prev (.at page) (h.next .dummyBlock)).2 .dummyBlock (.at page :: parts.flatten.map .at)
    rw [hring.next_sentinel]
    refine LinkRing.insertFirst_ring hring ?_
    rw [List.mem_cons]
    rintro (⟨⟨⟩⟩ | hmem)
    obtain ⟨b, hb, heq⟩ := List.mem_map.1 hmem
    exact hne b hb heq
  · show page :: h.pages = page :: parts.map (·.headD 0)
    rw [ht.blocks.pages]
  · rcases List.mem_cons.1 hP with rfl | hP
    · refine ⟨List.cons_ne_nil _ _, rfl, ?_⟩
      rw [hsize']
      rfl
    · obtain ⟨hPne, htiles⟩ := ht.blocks.tiles P hP
      exact ⟨hPne, tiles_congr (fun b hb => hsize b (List.mem_flatten.2 ⟨P, hP, hb⟩)) htiles⟩
  · rcases List.mem_cons.1 hP with rfl | hP
    · rw [List.mem_singleton.1 hb]
      rfl
    · have hhead : P.headD 0 ∈ parts.flatten := hpages _ (ht.blocks.head_mem_pages hP)
      rw [hpage b (List.mem_flatten.2 ⟨P, hP, hb⟩), hpage _ hhead]
      exact ht.blocks.number P hP b hb
  · show ((page :: h.pages).map fun p => (h.newPage c page).page (.at p)).Nodup
    have hsame : (h.pages.map fun p => (h.newPage c page).page (.at p)) = h.pages.map fun p => h.page (.at p) :=
      List.map_congr_left fun p hp => hpage p (hpages p hp)
    rw [List.map_cons, hsame, hpage']
    refine List.nodup_cons.2 ⟨fun hmem => ?_, ht.blocks.distinct⟩
    obtain ⟨p, hp, heq⟩ := List.mem_map.1 hmem
    exact hnumber p hp heq
  · rcases List.mem_cons.1 hb with rfl | hb
    · rw [hsize']
      have := c.maxSmallSize_lt
      omega
    · rw [hsize b hb]
      exact ht.blocks.roomy b hb
  · exact List.pairwise_cons.2 ⟨hfresh, ht.blocks.apart⟩
  · have hdummy : Ref.dummyFree ≠ .at page := by rintro ⟨⟩
    exact (h.newPage_size_of_ne c hdummy).trans ht.blocks.dummyFree
  · have hdummy : Ref.dummyBlock ≠ .at page := by rintro ⟨⟩
    exact ⟨(h.newPage_page_of_ne c hdummy).trans ht.blocks.dummyBlock.1,
      (h.newPage_isFree_of_ne c hdummy).trans ht.blocks.dummyBlock.2⟩
  · have hfring := ht.listed.ring
    show LinkRing (LinkRing.insertBefore h.nextFree h.prevFree (.at page) (h.nextFree .dummyFree)).1
      (LinkRing.insertBefore h.nextFree h.prevFree (.at page) (h.nextFree .dummyFree)).2 .dummyFree (.at page :: free.map .at)
    rw [hfring.next_sentinel]
    refine LinkRing.insertFirst_ring hfring ?_
    rw [List.mem_cons]
    rintro (⟨⟨⟩⟩ | hmem)
    obtain ⟨b, hb, heq⟩ := List.mem_map.1 hmem
    exact hne b ((ht.free_iff b).1 hb).1 heq
  · refine List.pairwise_cons.2 ⟨fun b hb => ?_, ht.listed.sorted.imp_of_mem fun {a b} ha hb hab => ?_⟩
    · have hbin := ((ht.free_iff b).1 hb).1
      rw [hsize', hsize b hbin]
      exact hle b hbin
    · rw [hsize a ((ht.free_iff a).1 ha).1, hsize b ((ht.free_iff b).1 hb).1]
      exact hab
  · rw [List.mem_cons, List.flatten_cons, List.singleton_append, List.mem_cons]
    constructor
    · rintro (rfl | hb)
      · exact ⟨.inl rfl, hfree'⟩
      · obtain ⟨hin, hf⟩ := (ht.free_iff b).1 hb
        exact ⟨.inr hin, (hfree b hin).trans hf⟩
    · rintro ⟨rfl | hin, hf⟩
      · exact .inl rfl
      · exact .inr ((ht.free_iff b).2 ⟨hin, (hfree b hin).symm.trans hf⟩)
  · rcases List.mem_cons.1 hP with rfl | hP
    · exact .singleton _
    · exact freeApart_congr (fun b hb => hfree b (List.mem_flatten.2 ⟨P, hP, hb⟩)) (ht.freeApart P hP)

/-! ## Cutting a block from a free one -/

theorem takeWhole {xs ys : List Nat} {b size : Nat} (ht : Tiled c h parts (xs ++ b :: ys)) (hle : size ≤ h.size (.at b)) :
    ∃ links, h.removeFreeLink (.at b) = some (h.setFreeLinks links) ∧
      Tiled c ((h.setFreeLinks links).setIsFree (.at b) false) parts (xs ++ ys) ∧
      Serves c h ((h.setFreeLinks links).setIsFree (.at b) false) parts parts b size := by
  obtain ⟨hremove, hlist⟩ := ht.listed.remove
  obtain ⟨hbin, hbfree⟩ := (ht.free_iff b).1 (List.mem_append_right _ List.mem_cons_self)
  have hself : Function.update h.isFree (.at b) false (.at b) = false := Function.update_self ..
  have hother : ∀ a, a ≠ b → Function.update h.isFree (.at b) false (.at a) = h.isFree (.at a) := fun a ha =>
    Function.update_of_ne (by rintro ⟨⟩; exact ha rfl) _ _
  have hnodup := ht.listed.nodup
  rw [List.nodup_middle, List.nodup_cons] at hnodup
  refine ⟨_, hremove, ⟨?_, hlist.congr rfl rfl fun _ _ => rfl, fun a => ?_, fun P hP => ?_⟩, ⟨fun a => ?_, ?_, hle, fun _ _ => rfl,
    rfl, fun _ _ => rfl, rfl, rfl⟩⟩
  · have hdummy : Ref.dummyBlock ≠ .at b := by rintro ⟨⟩
    exact ht.blocks.congr rfl rfl rfl rfl rfl (Function.update_of_ne hdummy false h.isFree)
  · show a ∈ xs ++ ys ↔ a ∈ parts.flatten ∧ Function.update h.isFree (.at b) false (.at a) = true
    by_cases ha : a = b
    · subst ha
      rw [hself]
      simp [hnodup.1]
    · rw [hother a ha, ← ht.free_iff]
      simp [ha]
  · refine List.IsChain.imp (fun x y hxy hboth => hxy ?_) (ht.freeApart P hP)
    have hfree : ∀ z, Function.update h.isFree (.at b) false (.at z) = true → h.isFree (.at z) = true := fun z hz => by
      by_cases hzb : z = b
      · rw [hzb, hself] at hz
        cases hz
      · rwa [hother z hzb] at hz
    exact ⟨hfree x hboth.1, hfree y hboth.2⟩
  · unfold Used
    show a ∈ parts.flatten ∧ Function.update h.isFree (.at b) false (.at a) = false ↔ _
    by_cases ha : a = b
    · subst ha
      simp [hbin]
    · rw [hother a ha]
      simp [ha]
  · rintro ⟨-, hused⟩
    rw [hbfree] at hused
    cases hused

/-- The free list is put in order again after a free block lost its end. -/
theorem shrinkFree {xs ys : List Nat} {b rest : Nat} (ht : Tiled c h parts (xs ++ b :: ys)) (hrest : rest < h.size (.at b)) :
    ∃ links free', h.shrinkFree c (.at b) rest = some ((h.setSize (.at b) rest).setFreeLinks links) ∧
      Listed ((h.setSize (.at b) rest).setFreeLinks links) free' ∧ ∀ a, a ∈ free' ↔ a ∈ xs ++ b :: ys := by
  have hnodup := ht.listed.nodup
  have hsame : (h.setSize (.at b) rest).size ((h.setSize (.at b) rest).nextFree (.at b)) = h.size (h.nextFree (.at b)) := by
    refine Function.update_of_ne ?_ _ _
    have hnext : (h.setSize (.at b) rest).nextFree (.at b) = (ys.map Ref.at).headD .dummyFree := ht.listed.nextFree_eq
    rw [hnext]
    cases ys with
    | nil => rintro ⟨⟩
    | cons y ys =>
      rintro ⟨⟩
      rw [List.nodup_middle, List.nodup_cons] at hnodup
      exact hnodup.1 (List.mem_append_right _ List.mem_cons_self)
  unfold MediumHeap.shrinkFree
  dsimp only
  rw [hsame]
  rw [List.nodup_middle, List.nodup_cons] at hnodup
  have hself : Function.update h.size (.at b) rest (.at b) = rest := Function.update_self ..
  have hother : ∀ a ∈ xs ++ ys, Function.update h.size (.at b) rest (.at a) = h.size (.at a) := fun a ha =>
    Function.update_of_ne (by rintro ⟨⟩; exact hnodup.1 ha) _ _
  have hdummy : Function.update h.size (.at b) rest .dummyFree = 0 := by
    have hne : Ref.dummyFree ≠ .at b := by rintro ⟨⟩
    exact (Function.update_of_ne hne rest h.size).trans ht.blocks.dummyFree
  obtain ⟨hremove, hlist⟩ := ht.listed.remove
  by_cases hnext : rest < h.size (h.nextFree (.at b))
  · rw [if_pos hnext]
    have hlist' : Listed ((h.setSize (.at b) rest).setFreeLinks (LinkRing.removeLink h.nextFree h.prevFree (.at b))) (xs ++ ys) :=
      hlist.congr rfl rfl hother
    have hlen : (xs ++ ys).length <
        ((h.setSize (.at b) rest).setFreeLinks (LinkRing.removeLink h.nextFree h.prevFree (.at b))).fuel c := by
      have hlong := ht.free_length
      simp only [List.length_append, List.length_cons] at hlong ⊢
      show _ < h.fuel c
      omega
    obtain ⟨xs', ys', heq, hlisted, hinsert⟩ := hlist'.insertFreeBlock_eq hnodup.1 hdummy hlen
    have hsmall : ¬ (((h.setSize (.at b) rest).setFreeLinks (LinkRing.removeLink h.nextFree h.prevFree (.at b))).insertBeforeFreeLink
        (.at b) ((ys'.map Ref.at).headD .dummyFree)).surplus c (.at b) ((ys'.map Ref.at).headD .dummyFree) = true := by
      intro hs
      unfold MediumHeap.surplus at hs
      simp only [Bool.and_eq_true, beq_iff_eq] at hs
      have hwhole : Function.update h.size (.at b) rest (.at b) = c.pageSize := hs.1.1.1.1.1.1
      obtain ⟨part, hpart, hbp⟩ := List.mem_flatten.1 ((ht.free_iff b).1 (List.mem_append_right _ List.mem_cons_self)).1
      have hbounds := ht.blocks.bounds hpart hbp
      rw [hself] at hwhole
      omega
    have hdo : (h.setSize (.at b) rest).removeFreeLink (.at b) =
        some ((h.setSize (.at b) rest).setFreeLinks (LinkRing.removeLink h.nextFree h.prevFree (.at b))) :=
      if_neg (by rintro ⟨⟩)
    rw [hdo]
    dsimp only
    rw [hinsert]
    unfold MediumHeap.releaseSurplus
    rw [if_neg hsmall]
    refine ⟨_, _, rfl, hlisted, fun a => ?_⟩
    rw [mem_middle, mem_middle, heq]
  · rw [if_neg hnext]
    refine ⟨(h.nextFree, h.prevFree), _, rfl, ⟨ht.listed.ring, ?_⟩, fun _ => Iff.rfl⟩
    have hsorted := ht.listed.sorted
    rw [ht.listed.nextFree_eq] at hnext
    obtain ⟨h1, h2, h3⟩ := List.pairwise_append.1 hsorted
    obtain ⟨h4, h5⟩ := List.pairwise_cons.1 h2
    have hys : ∀ a ∈ ys, h.size (.at a) ≤ rest := fun a ha => by
      cases ys with
      | nil => cases ha
      | cons y ys =>
        rw [List.map_cons, List.headD_cons] at hnext
        rcases List.mem_cons.1 ha with rfl | ha
        · omega
        · have := (List.pairwise_cons.1 h5).1 a ha
          omega
    show List.Pairwise (fun a d => Function.update h.size (.at b) rest (.at d) ≤ Function.update h.size (.at b) rest (.at a)) _
    refine List.pairwise_append.2 ⟨h1.imp_of_mem fun {a d} ha hd had => ?_, List.pairwise_cons.2 ⟨fun a ha => ?_,
      h5.imp_of_mem fun {a d} ha hd had => ?_⟩, fun a ha d hd => ?_⟩
    · rw [hother a (List.mem_append_left _ ha), hother d (List.mem_append_left _ hd)]
      exact had
    · rw [hself, hother a (List.mem_append_right _ ha)]
      exact hys a ha
    · rw [hother a (List.mem_append_right _ ha), hother d (List.mem_append_right _ hd)]
      exact had
    · rw [hother a (List.mem_append_left _ ha)]
      rcases List.mem_cons.1 hd with rfl | hd
      · rw [hself]
        have := h3 a ha d List.mem_cons_self
        omega
      · rw [hother d (List.mem_append_right _ hd)]
        exact h3 a ha d (List.mem_cons_of_mem _ hd)

/-- **The end of a free block becomes a block in use.** -/
theorem takeEnd {free' : List Nat} {b size : Nat} {links : (Ref → Ref) × (Ref → Ref)} (ht : Tiled c h parts free) (hb : b ∈ free)
    (hle : size ≤ h.size (.at b)) (hsize : c.maxSmallSize / 2 ≤ size) (hrest : c.maxSmallSize / 2 ≤ h.size (.at b) - size)
    (hlist : Listed ((h.setSize (.at b) (h.size (.at b) - size)).setFreeLinks links) free') (hmem : ∀ a, a ∈ free' ↔ a ∈ free)
    {h' : MediumHeap} (hh' : h' = (((((h.setSize (.at b) (h.size (.at b) - size)).setFreeLinks links).setPage
      (.at (b + (h.size (.at b) - size))) (h.page (.at b))).setSize (.at (b + (h.size (.at b) - size))) size).insertAfter
        (.at (b + (h.size (.at b) - size))) (.at b)).setIsFree (.at (b + (h.size (.at b) - size))) false) :
    ∃ parts', Tiled c h' parts' free' ∧ Serves c h h' parts parts' (b + (h.size (.at b) - size)) size := by
  obtain ⟨hbin, hbfree⟩ := (ht.free_iff b).1 hb
  have hhalf := c.half_pos
  obtain ⟨rest, hrestdef⟩ : ∃ rest, rest = h.size (.at b) - size := ⟨_, rfl⟩
  rw [← hrestdef] at hrest hlist hh' ⊢
  obtain ⟨new, hnewdef⟩ : ∃ new, new = b + rest := ⟨_, rfl⟩
  rw [← hnewdef] at hh' ⊢
  -- the new block is inside the old one
  have hnew : new ∉ parts.flatten := by
    intro hin
    have hne : b ≠ new := by omega
    have hpos := ht.blocks.size_pos hin
    have : Std.Symm fun x y => SmallRun.Apart x (h.size (.at x)) y (h.size (.at y)) := ⟨fun _ _ h => h.symm⟩
    have hapart := ht.blocks.blocks_apart.forall hbin hin hne
    unfold SmallRun.Apart at hapart
    omega
  have hne : ∀ a ∈ parts.flatten, Ref.at a ≠ Ref.at new := by
    rintro a ha heq
    cases heq
    exact hnew ha
  have hbn : Ref.at b ≠ Ref.at new := hne b hbin
  have hsizes : ∀ a ∈ parts.flatten, a ≠ b → h'.size (.at a) = h.size (.at a) := fun a ha hab => by
    rw [hh']
    exact (Function.update_of_ne (hne a ha) _ _).trans (Function.update_of_ne (by rintro ⟨⟩; exact hab rfl) _ _)
  have hsizeb : h'.size (.at b) = rest := by
    rw [hh']
    exact (Function.update_of_ne hbn _ _).trans (Function.update_self ..)
  have hsizenew : h'.size (.at new) = size := by
    rw [hh']
    exact Function.update_self ..
  have hpages : ∀ a ∈ parts.flatten, h'.page (.at a) = h.page (.at a) := fun a ha => by
    rw [hh']
    exact Function.update_of_ne (hne a ha) _ _
  have hpagenew : h'.page (.at new) = h.page (.at b) := by
    rw [hh']
    exact Function.update_self ..
  have hfrees : ∀ a ∈ parts.flatten, h'.isFree (.at a) = h.isFree (.at a) := fun a ha => by
    rw [hh']
    exact Function.update_of_ne (hne a ha) _ _
  have hfreenew : h'.isFree (.at new) = false := by
    rw [hh']
    exact Function.update_self ..
  have hdf : Ref.dummyFree ≠ .at new := by rintro ⟨⟩
  have hdf' : Ref.dummyFree ≠ .at b := by rintro ⟨⟩
  have hdb : Ref.dummyBlock ≠ .at new := by rintro ⟨⟩
  obtain ⟨Ps, us, vs, Qs, rfl⟩ := Blocks.locate hbin
  have hpart : us ++ b :: vs ∈ Ps ++ (us ++ b :: vs) :: Qs := List.mem_append_right _ List.mem_cons_self
  have hin : ∀ a ∈ us ++ b :: vs, a ∈ (Ps ++ (us ++ b :: vs) :: Qs).flatten := fun a ha =>
    List.mem_flatten.2 ⟨_, hpart, ha⟩
  have hoth : ∀ a ∈ Ps.flatten ++ Qs.flatten, a ∈ (Ps ++ (us ++ b :: vs) :: Qs).flatten ∧ a ≠ b := fun a ha =>
    ht.blocks.outside ha
  have hflat := Blocks.flatten_middle Ps Qs us vs b
  have hflat' : (Ps ++ (us ++ b :: new :: vs) :: Qs).flatten = (Ps.flatten ++ us ++ [b]) ++ new :: (vs ++ Qs.flatten) := by simp
  have hmem' : ∀ a, a ∈ (Ps ++ (us ++ b :: new :: vs) :: Qs).flatten ↔ a = new ∨ a ∈ (Ps ++ (us ++ b :: vs) :: Qs).flatten := by
    intro a
    have hsplit : (Ps.flatten ++ us) ++ b :: (vs ++ Qs.flatten) = (Ps.flatten ++ us ++ [b]) ++ (vs ++ Qs.flatten) := by simp
    rw [hflat, hflat', mem_middle, hsplit]
  refine ⟨Ps ++ (us ++ b :: new :: vs) :: Qs, ⟨ht.blocks.replace ?_ ?_ ?_ (by simp) ?_ (fun a ha => ?_) (fun a ha => ?_)
    (fun a ha => ⟨hsizes a (hoth a ha).1 (hoth a ha).2, hpages a (hoth a ha).1⟩) ?_ ?_ ?_, ?_, fun a => ?_, fun P hP => ?_⟩,
    ⟨fun a => ?_, ?_, ?_, fun a ha => ?_, ?_, fun p hp => ?_, ?_, ?_⟩⟩
  · have hring := ht.blocks.ring
    have hgoal : LinkRing (LinkRing.insertAfter h.next h.prev (.at new) (.at b)).1
        (LinkRing.insertAfter h.next h.prev (.at new) (.at b)).2
        .dummyBlock ((Ps ++ (us ++ b :: new :: vs) :: Qs).flatten.map .at) := by
      have hsplit : (Ps.flatten ++ us) ++ b :: (vs ++ Qs.flatten) = (Ps.flatten ++ us ++ [b]) ++ (vs ++ Qs.flatten) := by simp
      rw [hflat, hsplit, List.map_append] at hring
      rw [hflat', List.map_append, List.map_cons]
      have hlast : ((Ps.flatten ++ us ++ [b]).map Ref.at).getLastD .dummyBlock = .at b := by
        rw [List.map_append, List.map_singleton, List.getLastD_concat]
      have := hring.insertAfter_ring (c := .at new) (by
        rw [List.mem_cons, ← List.map_append, ← hsplit, ← hflat]
        rintro (⟨⟨⟩⟩ | hm)
        obtain ⟨a, ha, heq⟩ := List.mem_map.1 hm
        exact hne a ha heq)
      rw [hlast] at this
      exact this
    rw [hh']
    exact hgoal
  · rw [hh']
    rfl
  · cases us <;> rfl
  · obtain ⟨mid, h1, h2, h3⟩ := (tiles_append h.size).1 (ht.blocks.tiles _ hpart).2
    have hnd := ht.blocks.nodup
    rw [hflat] at hnd
    simp only [List.nodup_append, List.nodup_cons, List.mem_append, List.mem_cons] at hnd
    have hus : ∀ a ∈ us, h'.size (.at a) = h.size (.at a) := fun a ha =>
      hsizes a (hin a (List.mem_append_left _ ha)) fun hab => hnd.2.2 a (.inr ha) b (.inl rfl) hab
    have hvs : ∀ a ∈ vs, h'.size (.at a) = h.size (.at a) := fun a ha =>
      hsizes a (hin a (List.mem_append_right _ (List.mem_cons_of_mem _ ha))) fun hab => hnd.2.1.1 (.inl (hab ▸ ha))
    refine (tiles_append h'.size).2 ⟨mid, tiles_congr hus h1, h2, ?_, tiles_congr hvs ?_⟩
    · rw [hsizeb, ← h2]
      exact hnewdef
    · rw [hsizeb, hsizenew]
      have hsum : mid + rest + size = mid + h.size (.at b) := by omega
      rw [hsum]
      exact h3
  · rcases List.mem_append.1 ha with ha | ha
    · rw [hpages a (hin a (List.mem_append_left _ ha))]
      exact ht.blocks.number _ hpart a (List.mem_append_left _ ha)
    · rcases List.mem_cons.1 ha with rfl | ha
      · rw [hpages a hbin]
        exact ht.blocks.number _ hpart a (List.mem_append_right _ List.mem_cons_self)
      · rcases List.mem_cons.1 ha with rfl | ha
        · rw [hpagenew]
          exact ht.blocks.number _ hpart b (List.mem_append_right _ List.mem_cons_self)
        · have hav := List.mem_append_right us (List.mem_cons_of_mem b ha)
          rw [hpages a (hin a hav)]
          exact ht.blocks.number _ hpart a hav
  · by_cases hab : a = b
    · rw [hab, hsizeb]
      exact hrest
    · by_cases han : a = new
      · rw [han, hsizenew]
        exact hsize
      · have hain : a ∈ (Ps ++ (us ++ b :: vs) :: Qs).flatten := hin a (by
          simp only [List.mem_append, List.mem_cons] at ha ⊢
          exact ha.imp_right fun h => h.imp_right fun h => h.resolve_left han)
        rw [hsizes a hain hab]
        exact ht.blocks.roomy a hain
  · rw [hh']
    exact (Function.update_of_ne hdf size (Function.update h.size (.at b) rest)).trans (Function.update_of_ne hdf' rest h.size)
  · rw [hh']
    exact Function.update_of_ne hdb (h.page (.at b)) h.page
  · rw [hh']
    exact Function.update_of_ne hdb false h.isFree
  · refine hlist.congr ?_ ?_ fun a ha => ?_
    · rw [hh']
      rfl
    · rw [hh']
      rfl
    · rw [hh']
      exact Function.update_of_ne (hne a ((ht.free_iff a).1 ((hmem a).1 ha)).1) _ _
  · rw [hmem, ht.free_iff, hmem']
    constructor
    · rintro ⟨h1, h2⟩
      exact ⟨.inr h1, (hfrees a h1).trans h2⟩
    · rintro ⟨rfl | h1, h2⟩
      · rw [hfreenew] at h2
        cases h2
      · exact ⟨h1, (hfrees a h1).symm.trans h2⟩
  · rcases List.mem_append.1 hP with hP' | hP'
    · exact freeApart_congr (fun a ha => hfrees a (List.mem_flatten.2 ⟨P, List.mem_append_left _ hP', ha⟩))
        (ht.freeApart P (List.mem_append_left _ hP'))
    · rcases List.mem_cons.1 hP' with rfl | hP'
      · have hold : FreeApart h' (us ++ b :: vs) := freeApart_congr (fun a ha => hfrees a (hin a ha)) (ht.freeApart _ hpart)
        obtain ⟨h1, h2⟩ := List.isChain_split.1 hold
        refine List.isChain_split.2 ⟨h1, List.isChain_cons_cons.2 ⟨fun hboth => ?_, ?_⟩⟩
        · rw [hfreenew] at hboth
          cases hboth.2
        · cases vs with
          | nil => exact .singleton _
          | cons v vs =>
            refine List.isChain_cons_cons.2 ⟨fun hboth => ?_, (List.isChain_cons_cons.1 h2).2⟩
            rw [hfreenew] at hboth
            cases hboth.1
      · have hPQ : P ∈ Ps ++ (us ++ b :: vs) :: Qs := List.mem_append_right _ (List.mem_cons_of_mem _ hP')
        exact freeApart_congr (fun a ha => hfrees a (List.mem_flatten.2 ⟨P, hPQ, ha⟩)) (ht.freeApart P hPQ)
  · unfold Used
    rw [hmem']
    constructor
    · rintro ⟨rfl | h1, h2⟩
      · exact .inl rfl
      · exact .inr ⟨h1, (hfrees a h1).symm.trans h2⟩
    · rintro (rfl | ⟨h1, h2⟩)
      · exact ⟨.inl rfl, hfreenew⟩
      · exact ⟨.inr h1, (hfrees a h1).trans h2⟩
  · exact fun hused => hnew hused.1
  · rw [hsizenew]
  · refine hsizes a ha.1 ?_
    rintro rfl
    have hused := ha.2
    rw [hbfree] at hused
    cases hused
  · rw [hh']
    rfl
  · exact hpages p (ht.blocks.page_mem_flatten hp)
  · rw [hh']
    rfl
  · rw [hh']
    rfl

/-- **`size` bytes of a free block become a block in use.** -/
theorem takeFrom {b size : Nat} (ht : Tiled c h parts free) (hb : b ∈ free) (hle : size ≤ h.size (.at b))
    (hsize : c.maxSmallSize / 2 ≤ size) :
    ∃ h' parts' free' a, h.takeFrom c (.at b) size = some (h', .medium a) ∧ Tiled c h' parts' free' ∧
      Serves c h h' parts parts' a size := by
  obtain ⟨xs, ys, rfl⟩ := List.append_of_mem hb
  unfold MediumHeap.takeFrom
  dsimp only
  by_cases hwhole : h.size (.at b) - size < c.maxSmallSize ∧
      (h.size (.at b) - size < c.maxSmallSize / 2 ∨ h.page (h.next (.at b)) ≠ h.page (.at b))
  · rw [if_pos hwhole]
    obtain ⟨links, hremove, ht', hserves⟩ := ht.takeWhole hle
    rw [hremove]
    exact ⟨_, parts, _, b, rfl, ht', hserves⟩
  · rw [if_neg hwhole]
    have hhalf := c.half_pos
    have hrest : c.maxSmallSize / 2 ≤ h.size (.at b) - size := by
      by_contra hlt
      exact hwhole ⟨by omega, .inl (by omega)⟩
    obtain ⟨links, free', hsort, hlist, hmem⟩ :=
      ht.shrinkFree (b := b) (Nat.sub_lt (by omega) (by omega) : h.size (.at b) - size < h.size (.at b))
    rw [hsort]
    obtain ⟨parts', ht', hserves⟩ := ht.takeEnd hb hle hsize hrest hlist hmem rfl
    exact ⟨_, parts', free', _, rfl, ht', hserves⟩

end Tiled
end Heap
end ObjectScript
