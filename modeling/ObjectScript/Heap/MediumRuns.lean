import ObjectScript.Heap.MediumFree
/-!
# Runs of the medium blocks

Whatever is asked for and freed, the pages stay tiled, as long as a new page does not get the number of one that is there
and no block of the page 65535 is freed next to the head of the ring (`medium_blocks_tiled`).  The number comes from a
counter of 16 bits that also gives out 65535, the number of the list heads: `freeMedium` then joins a block with the head
(`head_joined`).  Until the 65535th page the numbers do what they are for (`pages_numbered`, `page_like_head`).
-/
namespace ObjectScript
namespace Heap

open MediumHeap

/-- The heap with the blocks in use and the sizes asked for; the large ones with the sizes that the system gave. -/
structure MediumRun where
  heap : MediumHeap
  live : List (Nat × Nat)
  large : List (Nat × Nat)

inductive MediumOp where
  | malloc (size : Nat) (system : Option Nat)
  | free (block : Answer)
deriving DecidableEq, Repr

namespace Sizes

variable (c : Sizes)

/-- How much a request asks the system for, if it does. -/
def asked (size : Nat) : Nat :=
  if size < c.pageSize / 2 ∧ c.blockSize size ≤ c.pageSize / 2 then c.pageSize else c.blockSize size

theorem le_blockSize (size : Nat) : size + c.sizeofBlock ≤ c.blockSize size := by
  have hpos := c.align_pos
  have hdiv := Nat.div_add_mod (size + c.align - 1 + c.sizeofBlock) c.align
  have hmod := Nat.mod_lt (size + c.align - 1 + c.sizeofBlock) hpos
  rw [Nat.mul_comm] at hdiv
  unfold blockSize
  omega

end Sizes

open SmallRun (Apart)

/-- What a request leaves that comes back with a medium block, cut from a page that was there or from a new one. -/
structure Gives (c : Sizes) (h h' : MediumHeap) (system : Option Nat) (parts parts' : List (List Nat)) (a size : Nat) : Prop where
  used : ∀ b, Used h' parts' b ↔ b = a ∨ Used h parts b
  new : ¬ Used h parts a
  size_le : size + c.sizeofBlock ≤ h'.size (.at a)
  sizes : ∀ b, Used h parts b → h'.size (.at b) = h.size (.at b)
  numbers : ∀ p ∈ h.pages, h'.page (.at p) = h.page (.at p)
  pages : (¬ h.size (h.nextFree .dummyFree) < c.blockSize size ∧ h'.pages = h.pages ∧ h'.nextPage = h.nextPage ∧
      h'.taken = h.taken) ∨
    ∃ page, system = some page ∧ h.size (h.nextFree .dummyFree) < c.blockSize size ∧ c.blockSize size ≤ c.pageSize / 2 ∧
      h'.pages = page :: h.pages ∧ h'.page (.at page) = h.nextPage ∧
      h'.nextPage = (h.nextPage + 1) % 65536 ∧ h'.taken = h.taken + 1

namespace Tiled

variable {c : Sizes} {h : MediumHeap} {parts : List (List Nat)} {free : List Nat} {size : Nat} {system : Option Nat}

theorem blockSize_half (hbig : c.maxSmallSize ≤ size) : c.maxSmallSize / 2 ≤ c.blockSize size := by
  have := c.le_blockSize size
  omega

/-- **`allocMedium` keeps the invariant.** -/
theorem allocMedium (ht : Tiled c h parts free) (hbig : c.maxSmallSize ≤ size) (hhalf : size < c.pageSize / 2)
    (hfresh : ∀ page, system = some page → ∀ p ∈ h.pages, Apart page (c.asked size) p c.pageSize)
    (hnumber : system ≠ none → c.blockSize size ≤ c.pageSize / 2 → h.size (h.nextFree .dummyFree) < c.blockSize size →
      ∀ p ∈ h.pages, h.page (.at p) ≠ h.nextPage) :
    (system = none ∧ h.allocMedium c size system = some (h, .null)) ∨
      (∃ block, system = some block ∧ c.pageSize / 2 < c.blockSize size ∧ h.allocMedium c size system = some (h, .large block)) ∨
      ∃ h' parts' free' a, h.allocMedium c size system = some (h', .medium a) ∧ Tiled c h' parts' free' ∧
        Gives c h h' system parts parts' a size := by
  have hmin := blockSize_half hbig
  have hpos := c.half_pos
  have hle := c.le_blockSize size
  unfold MediumHeap.allocMedium
  dsimp only
  by_cases hshort : h.size (h.nextFree .dummyFree) < c.blockSize size
  · rw [if_pos hshort]
    by_cases hlarge : c.pageSize / 2 < c.blockSize size
    · rw [if_pos hlarge]
      cases system with
      | none => exact .inl ⟨rfl, rfl⟩
      | some block => exact .inr (.inl ⟨block, rfl, hlarge, rfl⟩)
    · rw [if_neg hlarge]
      have hasked : c.asked size = c.pageSize := if_pos (by omega)
      cases system with
      | none => exact .inl ⟨rfl, rfl⟩
      | some page =>
        have hpage := hfresh page rfl
        rw [hasked] at hpage
        have hnot := ht.blocks.fresh_not_mem c.pageSize_pos hpage
        have ht1 := ht.newPage hpage (hnumber (Option.some_ne_none _) (Nat.le_of_not_lt hlarge) hshort)
        have hwhole : (h.newPage c page).size (.at page) = c.pageSize := Function.update_self ..
        obtain ⟨h', parts', free', a, hrun, ht', hs⟩ := ht1.takeFrom (List.mem_cons_self) (by omega) hmin
        have hne : ∀ b ∈ parts.flatten, Ref.at b ≠ Ref.at page := by
          rintro b hb heq
          cases heq
          exact hnot hb
        have hused : ∀ b, Used (h.newPage c page) ([page] :: parts) b ↔ Used h parts b := fun b => by
          constructor
          · rintro ⟨hb, hfree⟩
            rcases List.mem_cons.1 hb with rfl | hb
            · rw [show (h.newPage c b).isFree (.at b) = true from Function.update_self ..] at hfree
              cases hfree
            · exact ⟨hb, (h.newPage_isFree_of_ne c (hne b hb)).symm.trans hfree⟩
          · rintro ⟨hb, hfree⟩
            exact ⟨List.mem_cons_of_mem _ hb, (h.newPage_isFree_of_ne c (hne b hb)).trans hfree⟩
        refine .inr (.inr ⟨h', parts', free', a, hrun, ht', fun b => ?_, fun ha => ?_, Nat.le_trans hle hs.size_le, fun b hb => ?_,
          fun p hp => ?_, .inr ⟨page, rfl, hshort, Nat.le_of_not_lt hlarge, hs.pages, ?_, hs.nextPage, hs.taken⟩⟩)
        · rw [hs.used, hused]
        · exact hs.new ((hused a).2 ha)
        · exact (hs.sizes b ((hused b).2 hb)).trans (h.newPage_size_of_ne c (hne b hb.1))
        · exact (hs.numbers p (List.mem_cons_of_mem _ hp)).trans
            (h.newPage_page_of_ne c (hne p (ht.blocks.page_mem_flatten hp)))
        · exact (hs.numbers page List.mem_cons_self).trans (Function.update_self ..)
  · rw [if_neg hshort]
    have hdummy := ht.blocks.dummyFree
    have hfirst := hshort
    rw [ht.listed.first_eq] at hshort ⊢
    cases free with
    | nil =>
      rw [List.map_nil, List.headD_nil, hdummy] at hshort
      exact absurd (by omega) hshort
    | cons b ys =>
      rw [List.map_cons, List.headD_cons] at hshort ⊢
      have hlen := ht.free_length
      rw [List.length_cons] at hlen
      obtain ⟨d, hd, hfind, hsize⟩ :=
        Listed.findBestFreeBlock_eq (by omega) ys [] b (h.fuel c) ht.listed (Nat.le_of_not_lt hshort)
        (by omega)
      rw [hfind]
      obtain ⟨h', parts', free', a, hrun, ht', hs⟩ := ht.takeFrom hd hsize hmin
      exact .inr (.inr ⟨h', parts', free', a, hrun, ht', hs.used, hs.new, Nat.le_trans hle hs.size_le, hs.sizes, hs.numbers,
        .inl ⟨hfirst, hs.pages, hs.nextPage, hs.taken⟩⟩)

end Tiled

namespace MediumRun

def new : MediumRun := { heap := .new, live := [], large := [] }

def step (c : Sizes) (s : MediumRun) : MediumOp → Option MediumRun
  | .malloc size system =>
    match s.heap.malloc c size system with
    | none => none
    | some (h, .medium block) => some { s with heap := h, live := (block, size) :: s.live }
    | some (h, .large block) => some { s with heap := h, large := (block, c.blockSize size) :: s.large }
    | some (h, _) => some { s with heap := h }
  | .free (.medium block) =>
    (s.heap.freeMedium c block).map fun h => { s with heap := h, live := s.live.filter (·.1 ≠ block) }
  | .free (.large block) => some { s with large := s.large.filter (·.1 ≠ block) }
  | .free _ => some s

/-- The system answers with memory that is not in use, and blocks in use are given back. -/
def Allowed (c : Sizes) (s : MediumRun) : MediumOp → Prop
  | .malloc size system => ∀ page, system = some page →
      (∀ p ∈ s.heap.pages, Apart page (c.asked size) p c.pageSize) ∧ ∀ b ∈ s.large, Apart page (c.asked size) b.1 b.2
  | .free (.medium block) => block ∈ s.live.map Prod.fst
  | .free (.large block) => block ∈ s.large.map Prod.fst
  | .free _ => True

/-- The call asks the system for a page of medium blocks and gets it. -/
def TakesPage (c : Sizes) (s : MediumRun) : MediumOp → Prop
  | .malloc size (some _) => c.maxSmallSize ≤ size ∧ size < c.pageSize / 2 ∧ c.blockSize size ≤ c.pageSize / 2 ∧
      s.heap.size (s.heap.nextFree .dummyFree) < c.blockSize size
  | _ => False

/-- A page that is taken gets a number that no page has. -/
def Numbered (c : Sizes) (s : MediumRun) (op : MediumOp) : Prop :=
  s.TakesPage c op → ∀ p ∈ s.heap.pages, s.heap.page (.at p) ≠ s.heap.nextPage

/-- No block is freed next to the head of the ring in a page that carries the number of the head. -/
def OffHead (s : MediumRun) : MediumOp → Prop
  | .free (.medium block) => s.heap.FreesApart block
  | _ => True

instance (c : Sizes) (s : MediumRun) : ∀ op, Decidable (s.Allowed c op)
  | .malloc _ system => inferInstanceAs (Decidable (∀ page ∈ system, (∀ p ∈ s.heap.pages, _) ∧ ∀ b ∈ s.large, _))
  | .free (.medium block) => inferInstanceAs (Decidable (block ∈ s.live.map Prod.fst))
  | .free (.large block) => inferInstanceAs (Decidable (block ∈ s.large.map Prod.fst))
  | .free .small => .isTrue trivial
  | .free .null => .isTrue trivial

instance (c : Sizes) (s : MediumRun) : ∀ op, Decidable (s.TakesPage c op)
  | .malloc _ (some _) => inferInstanceAs (Decidable (_ ∧ _ ∧ _ ∧ _))
  | .malloc _ none => .isFalse id
  | .free _ => .isFalse id

instance (c : Sizes) (s : MediumRun) (op : MediumOp) : Decidable (s.Numbered c op) :=
  inferInstanceAs (Decidable (_ → ∀ p ∈ s.heap.pages, _))

instance (s : MediumRun) : ∀ op, Decidable (s.OffHead op)
  | .free (.medium _) => inferInstanceAs (Decidable (¬ _))
  | .free (.large _) => .isTrue trivial
  | .free .small => .isTrue trivial
  | .free .null => .isTrue trivial
  | .malloc _ _ => .isTrue trivial

/-- The states of the runs in which every step is allowed, keeps the page numbers distinct, and is off the head. -/
inductive Reachable (c : Sizes) : MediumRun → Prop where
  | new : Reachable c .new
  | step {s s' op} : Reachable c s → s.Allowed c op → s.Numbered c op → s.OffHead op → s.step c op = some s' → Reachable c s'

/-- The state after some calls, if every one is allowed, keeps the page numbers distinct, and is off the head. -/
def run (c : Sizes) : List MediumOp → Option MediumRun :=
  CheckedRun.run (step c) (fun s op => s.Allowed c op ∧ s.Numbered c op ∧ s.OffHead op) .new

theorem Reachable.of_run {c : Sizes} {s : MediumRun} {ops : List MediumOp} (h : run c ops = some s) : Reachable c s :=
  CheckedRun.run_keeps (fun _ _ _ hs ha hstep => .step hs ha.1 ha.2.1 ha.2.2 hstep) ops .new h

/-- **What holds between the calls.** -/
structure Sound (c : Sizes) (s : MediumRun) (parts : List (List Nat)) (free : List Nat) : Prop where
  tiled : Tiled c s.heap parts free
  used : ∀ b, b ∈ s.live.map Prod.fst ↔ Used s.heap parts b
  nodup : (s.live.map Prod.fst).Nodup
  room : ∀ b ∈ s.live, b.2 + c.sizeofBlock ≤ s.heap.size (.at b.1)
  large : ∀ b ∈ s.large, ∀ p ∈ s.heap.pages, Apart b.1 b.2 p c.pageSize
  largeApart : s.large.Pairwise fun a b => Apart a.1 a.2 b.1 b.2

theorem Sound.live_apart {c : Sizes} {s : MediumRun} {parts : List (List Nat)} {free : List Nat} (hs : Sound c s parts free) :
    s.live.Pairwise fun a b => Apart a.1 (s.heap.size (.at a.1)) b.1 (s.heap.size (.at b.1)) := by
  have hsymm : Std.Symm fun x y => Apart x (s.heap.size (.at x)) y (s.heap.size (.at y)) := ⟨fun _ _ h => h.symm⟩
  have hnd := hs.nodup
  rw [List.Nodup, List.pairwise_map] at hnd
  refine hnd.imp_of_mem fun {a b} ha hb hab => ?_
  exact hs.tiled.blocks.blocks_apart.forall ((hs.used _).1 (List.mem_map_of_mem ha)).1
    ((hs.used _).1 (List.mem_map_of_mem hb)).1 hab

def PageStep (takes : Prop) (h h' : MediumHeap) : Prop :=
  ((¬ takes ∧ h'.pages.Sublist h.pages ∧ h'.nextPage = h.nextPage ∧ h'.taken = h.taken) ∨
    ∃ page, takes ∧ h'.pages = page :: h.pages ∧ h'.page (.at page) = h.nextPage ∧ h'.nextPage = (h.nextPage + 1) % 65536 ∧
      h'.taken = h.taken + 1) ∧ ∀ p ∈ h.pages, h'.page (.at p) = h.page (.at p)

theorem PageStep.refl {takes : Prop} (h : MediumHeap) (ht : ¬ takes) : PageStep takes h h :=
  ⟨.inl ⟨ht, List.Sublist.refl _, rfl, rfl⟩, fun _ _ => rfl⟩

variable {c : Sizes} {s : MediumRun} {parts : List (List Nat)} {free : List Nat}

/-- A request that is served by `allocLarge`. -/
theorem Sound.allocLarge {block size : Nat} (hs : Sound c s parts free) (hasked : c.asked size = c.blockSize size)
    (ha : s.Allowed c (.malloc size (some block))) :
    Sound c { s with large := (block, c.blockSize size) :: s.large } parts free := by
  obtain ⟨hpages, hlarge⟩ := ha block rfl
  rw [hasked] at hpages hlarge
  refine ⟨hs.tiled, hs.used, hs.nodup, hs.room, fun b hb p hp => ?_, List.pairwise_cons.2 ⟨hlarge, hs.largeApart⟩⟩
  rcases List.mem_cons.1 hb with rfl | hb
  · exact hpages p hp
  · exact hs.large b hb p hp

/-- A request that is served by `allocMedium`. -/
theorem Sound.gives {h' : MediumHeap} {parts' : List (List Nat)} {free' : List Nat} {a size : Nat} {system : Option Nat}
    (hs : Sound c s parts free) (ha : s.Allowed c (.malloc size system)) (hbig : c.maxSmallSize ≤ size)
    (hhalf : size < c.pageSize / 2) (ht : Tiled c h' parts' free') (hg : Gives c s.heap h' system parts parts' a size) :
    Sound c { s with heap := h', live := (a, size) :: s.live } parts' free' ∧
      PageStep (s.TakesPage c (.malloc size system)) s.heap h' := by
  refine ⟨⟨ht, fun b => ?_, ?_, fun b hb => ?_, fun b hb p hp => ?_, hs.largeApart⟩, ?_, hg.numbers⟩
  · rw [hg.used, ← hs.used, List.map_cons, List.mem_cons]
  · rw [List.map_cons]
    exact List.nodup_cons.2 ⟨fun hmem => hg.new ((hs.used a).1 hmem), hs.nodup⟩
  · rcases List.mem_cons.1 hb with rfl | hb
    · exact hg.size_le
    · rw [hg.sizes b.1 ((hs.used b.1).1 (List.mem_map_of_mem hb))]
      exact hs.room b hb
  · rcases hg.pages with ⟨-, hsame, -⟩ | ⟨page, hsys, -, hfits, hcons, -⟩
    · exact hs.large b hb p (hsame ▸ hp)
    · rw [hcons] at hp
      rcases List.mem_cons.1 hp with rfl | hp
      · have hasked : c.asked size = c.pageSize := if_pos ⟨hhalf, hfits⟩
        have := (ha p hsys).2 b hb
        rw [hasked] at this
        exact this.symm
      · exact hs.large b hb p hp
  · rcases hg.pages with ⟨hlong, h1, h2, h3⟩ | ⟨page, rfl, hshort, hfits, h1, h2, h3, h4⟩
    · refine .inl ⟨fun htakes => ?_, h1 ▸ List.Sublist.refl _, h2, h3⟩
      cases system with
      | none => exact htakes
      | some page => exact hlong htakes.2.2.2
    · exact .inr ⟨page, ⟨hbig, hhalf, hfits, hshort⟩, h1, h2, h3, h4⟩

theorem Sound.frees {h' : MediumHeap} {parts' : List (List Nat)} {free' : List Nat} {b : Nat}
    (hs : Sound c s parts free) (ht : Tiled c h' parts' free') (hf : Frees c s.heap h' parts parts' b) :
    Sound c { s with heap := h', live := s.live.filter (·.1 ≠ b) } parts' free' ∧ PageStep False s.heap h' ∧
      ∀ p ∈ s.heap.pages, p ∉ h'.pages →
        ∀ d ∈ s.live.filter (·.1 ≠ b), Apart p c.pageSize d.1 (h'.size (.at d.1)) := by
  have hmem : ∀ a, a ∈ (s.live.filter (·.1 ≠ b)).map Prod.fst ↔ Used h' parts' a := fun a => by
    rw [hf.used, ← hs.used]
    simp only [List.mem_map, List.mem_filter, decide_eq_true_eq]
    constructor
    · rintro ⟨d, ⟨hd, hdb⟩, rfl⟩
      exact ⟨⟨d, hd, rfl⟩, hdb⟩
    · rintro ⟨⟨d, hd, rfl⟩, hdb⟩
      exact ⟨d, ⟨hd, hdb⟩, rfl⟩
  have hsub : h'.pages.Sublist s.heap.pages := by
    rcases hf.pages with hsame | ⟨p, -, herase, -⟩
    · rw [hsame]
    · rw [herase]
      exact List.erase_sublist
  refine ⟨⟨ht, hmem, hs.nodup.sublist (List.filter_sublist.map _), fun d hd => ?_, fun d hd p hp => hs.large d hd p (hsub.subset hp),
    hs.largeApart⟩, ⟨.inl ⟨not_false, hsub, hf.nextPage, hf.taken⟩, fun p _ => by rw [hf.page]⟩, fun p hp hgone d hd => ?_⟩
  · rw [hf.sizes d.1 ((hmem d.1).1 (List.mem_map_of_mem hd))]
    exact hs.room d (List.mem_filter.1 hd).1
  · rcases hf.pages with hsame | ⟨q, hq, herase, hapart⟩
    · rw [hsame] at hgone
      exact absurd hp hgone
    · have hpq : p = q := by
        by_contra hne
        rw [herase] at hgone
        exact hgone ((List.mem_erase_of_ne hne).2 hp)
      rw [hpq]
      exact hapart d.1 ((hmem d.1).1 (List.mem_map_of_mem hd))

/-- **One call.** -/
theorem step_sound {op : MediumOp} (hs : Sound c s parts free) (ha : s.Allowed c op) (hn : s.Numbered c op) (ho : s.OffHead op) :
    ∃ s' parts' free', s.step c op = some s' ∧ Sound c s' parts' free' ∧ PageStep (s.TakesPage c op) s.heap s'.heap ∧
      ∀ p ∈ s.heap.pages, p ∉ s'.heap.pages → ∀ b ∈ s'.live, Apart p c.pageSize b.1 (s'.heap.size (.at b.1)) := by
  have hstay : ∀ {s' : MediumRun}, s'.heap.pages = s.heap.pages →
      ∀ p ∈ s.heap.pages, p ∉ s'.heap.pages → ∀ b ∈ s'.live, Apart p c.pageSize b.1 (s'.heap.size (.at b.1)) :=
    fun hsame p hp hgone => absurd (hsame ▸ hp) hgone
  cases op with
  | malloc size system =>
    unfold MediumRun.step MediumHeap.malloc
    dsimp only
    by_cases hzero : size = 0
    · rw [if_pos hzero]
      refine ⟨s, parts, free, rfl, hs, .refl _ fun htakes => ?_, hstay rfl⟩
      have hpos := c.half_pos
      cases system with
      | none => exact htakes
      | some page =>
        have hle := htakes.1
        omega
    rw [if_neg hzero]
    by_cases hsmall : size < c.maxSmallSize
    · rw [if_pos hsmall]
      refine ⟨s, parts, free, rfl, hs, .refl _ fun htakes => ?_, hstay rfl⟩
      cases system with
      | none => exact htakes
      | some page => exact Nat.not_le_of_lt hsmall htakes.1
    rw [if_neg hsmall]
    by_cases hhalf : size < c.pageSize / 2
    · rw [if_pos hhalf]
      rcases hs.tiled.allocMedium (Nat.le_of_not_lt hsmall) hhalf (fun page hp => (ha page hp).1)
          (fun hsome hfits hshort => hn (by
            cases system with
            | none => exact absurd rfl hsome
            | some page => exact ⟨Nat.le_of_not_lt hsmall, hhalf, hfits, hshort⟩)) with
        ⟨rfl, hnull⟩ | ⟨block, rfl, hlong, hlarge⟩ | ⟨h', parts', free', a, hrun, ht, hg⟩
      · rw [hnull]
        exact ⟨s, parts, free, rfl, hs, .refl _ not_false, hstay rfl⟩
      · rw [hlarge]
        exact ⟨_, parts, free, rfl, hs.allocLarge (if_neg fun h => Nat.not_le_of_lt hlong h.2) ha,
          .refl _ fun htakes => Nat.not_le_of_lt hlong htakes.2.2.1, hstay rfl⟩
      · rw [hrun]
        obtain ⟨hsound, hpage⟩ := hs.gives ha (Nat.le_of_not_lt hsmall) hhalf ht hg
        refine ⟨_, parts', free', rfl, hsound, hpage, fun p hp hgone => absurd ?_ hgone⟩
        rcases hg.pages with ⟨-, h1, -⟩ | ⟨page, -, -, -, h1, -⟩
        · exact h1 ▸ hp
        · exact h1 ▸ List.mem_cons_of_mem _ hp
    · rw [if_neg hhalf]
      cases system with
      | none => exact ⟨s, parts, free, rfl, hs, .refl _ not_false, hstay rfl⟩
      | some block =>
        exact ⟨_, parts, free, rfl, hs.allocLarge (if_neg fun h => hhalf h.1) ha, .refl _ fun htakes => hhalf htakes.2.1,
          hstay rfl⟩
  | free block =>
    cases block with
    | null => exact ⟨s, parts, free, rfl, hs, .refl _ not_false, hstay rfl⟩
    | small => exact ⟨s, parts, free, rfl, hs, .refl _ not_false, hstay rfl⟩
    | large block =>
      refine ⟨_, parts, free, rfl, ⟨hs.tiled, hs.used, hs.nodup, hs.room, fun b hb => hs.large b (List.mem_filter.1 hb).1,
        hs.largeApart.sublist List.filter_sublist⟩, .refl _ not_false, hstay rfl⟩
    | medium block =>
      obtain ⟨h', parts', free', hrun, ht, hf⟩ := hs.tiled.freeMedium ((hs.used block).1 ha) ho
      obtain ⟨hsound, hpage, hgone⟩ := hs.frees ht hf
      unfold MediumRun.step
      dsimp only
      rw [hrun]
      exact ⟨_, parts', free', rfl, hsound, hpage, hgone⟩

theorem new_sound (c : Sizes) : Sound c .new [] [] := by
  have hring : LinkRing (id : Ref → Ref) id .dummyBlock [] := .empty rfl rfl
  have hfree : LinkRing (id : Ref → Ref) id .dummyFree [] := .empty rfl rfl
  refine ⟨⟨⟨hring, rfl, ?_, ?_, .nil, ?_, .nil, rfl, rfl, rfl⟩, ⟨hfree, .nil⟩, fun b => ?_, ?_⟩, fun b => ?_, .nil, ?_, ?_, .nil⟩
  · rintro P ⟨⟩
  · rintro P ⟨⟩
  · rintro b ⟨⟩
  · simp
  · rintro P ⟨⟩
  · simp [Used, MediumRun.new]
  · rintro b ⟨⟩
  · rintro b ⟨⟩

theorem Reachable.sound {s : MediumRun} (h : Reachable c s) : ∃ parts free, Sound c s parts free := by
  induction h with
  | new => exact ⟨[], [], new_sound c⟩
  | step _ ha hn ho hstep ih =>
    obtain ⟨parts, free, hs⟩ := ih
    obtain ⟨s', parts', free', hs', hsound, -⟩ := step_sound hs ha hn ho
    rw [hstep] at hs'
    cases hs'
    exact ⟨parts', free', hsound⟩

/-- **In every run in which the pages keep distinct numbers and no block is freed next to the head of the ring in a page
that carries the number of the head, the blocks of each page tile it, no two free ones are neighbours, the free list has the
free ones by falling size, the blocks in use are large enough and apart, and a page goes back only when none of it is in
use; and freeing such a block ends that.** -/
theorem medium_blocks_tiled (c : Sizes) (s : MediumRun) (h : Reachable c s) :
    ∃ parts free, Sound c s parts free ∧
      (s.live.Pairwise fun a b => Apart a.1 (s.heap.size (.at a.1)) b.1 (s.heap.size (.at b.1))) ∧
      ∀ op, s.Allowed c op → s.Numbered c op →
        ((∃ s' parts' free', s.step c op = some s' ∧ Sound c s' parts' free' ∧
          ∀ p ∈ s.heap.pages, p ∉ s'.heap.pages → ∀ b ∈ s'.live, Apart p c.pageSize b.1 (s'.heap.size (.at b.1))) ↔
        s.OffHead op) := by
  obtain ⟨parts, free, hs⟩ := h.sound
  refine ⟨parts, free, hs, hs.live_apart, fun op ha hn => ⟨?_, fun ho => ?_⟩⟩
  · rintro ⟨s', -, -, hstep, -⟩
    by_contra ho
    cases op with
    | malloc size system => exact ho trivial
    | free block =>
      cases block with
      | medium block =>
        have hnone := freeMedium_head (c := c) ((hs.used block).1 ha).2 hs.tiled.blocks.dummyBlock ho
        unfold MediumRun.step at hstep
        dsimp only at hstep
        rw [hnone] at hstep
        cases hstep
      | _ => exact ho trivial
  · obtain ⟨s', parts', free', hstep, hsound, -, hgone⟩ := step_sound hs ha hn ho
    exact ⟨s', parts', free', hstep, hsound, hgone⟩

/-- Two pages are taken, and freed blocks join their neighbours. -/
def joinedPages : List MediumOp :=
  [.malloc 1000 (some 65536), .malloc 30000 none, .malloc 32000 none, .free (.medium 130048), .malloc 30000 (some 131072),
    .malloc 40000 (some 262144), .free (.medium 68000), .free (.medium 100024), .malloc 2000 none, .free (.large 262144)]

theorem medium_blocks_tiled_joinedPages : ∃ s parts free, Reachable sizes64 s ∧ Sound sizes64 s parts free ∧
    s.heap.pages = [131072, 65536] ∧ s.live = [(164560, 2000), (166584, 30000)] := by
  have hrun : (run sizes64 joinedPages).map (fun s => (s.heap.pages, s.live)) =
      some ([131072, 65536], [(164560, 2000), (166584, 30000)]) := by decide +kernel
  obtain ⟨s, hs, hshape⟩ := Option.map_eq_some_iff.1 hrun
  obtain ⟨hpages, hlive⟩ := Prod.mk.inj hshape
  have hreach := Reachable.of_run hs
  obtain ⟨parts, free, hsound, -⟩ := medium_blocks_tiled sizes64 s hreach
  exact ⟨s, parts, free, hreach, hsound, hpages, hlive⟩

end MediumRun
end Heap
end ObjectScript
