import ObjectScript.Lib.CheckedRun
import ObjectScript.Lib.Links
/-!
# Small blocks

Requests below `MAX_SMALL_SIZE` are served from free lists, one for each size, or cut from the front of what is left of
the current page.  When too little is left, the rest goes to the list of its size and a new page is asked for.  That the
rest is given away before the page is there is the slip: when the system refuses, the rest is on a list and can still be
cut (`tail_shared`).  As long as no call fails so, the blocks stay apart (`small_blocks_apart`).
-/
namespace ObjectScript
namespace Heap

open Links

/-- The sizes that depend on the platform: a pointer's size is the alignment. -/
structure Sizes where
  align : Nat
  maxSmallSize : Nat
  pageSize : Nat
  sizeofBlock : Nat
  align_pos : 0 < align
  align_maxSmallSize : align ∣ maxSmallSize
  align_pageSize : align ∣ pageSize
  /-- `DEF_PAGE_SIZE < MAX_SMALL_SIZE*8 ? MAX_SMALL_SIZE*8 : DEF_PAGE_SIZE` -/
  page_holds : maxSmallSize * 8 ≤ pageSize
  /-- The smallest rest that `allocMedium` leaves holds a `FreeBlock`. -/
  freeBlock_fits : sizeofBlock + 2 * align ≤ maxSmallSize / 2

/-- `OS_HEAP_CHUNK_SIZE` and `OS_HEAP_PAGE_SIZE` with pointers of eight bytes. -/
def sizes64 : Sizes :=
  { align := 8, maxSmallSize := 256, pageSize := 65536, sizeofBlock := 24, align_pos := by decide,
    align_maxSmallSize := by decide, align_pageSize := by decide, page_holds := by decide, freeBlock_fits := by decide }

namespace Sizes

variable (c : Sizes)

def sizeofSmallBlock : Nat := c.align
def sizeofSmallPage : Nat := 2 * c.align
def smallSlotCount : Nat := (c.maxSmallSize + c.sizeofSmallBlock) / c.align + 1

/-- A page has room for its header and the largest small block. -/
theorem room : c.maxSmallSize + 3 * c.align ≤ c.pageSize := by
  have h1 := c.page_holds
  have h2 := c.freeBlock_fits
  omega

/-- The size of the block for a request: `(size + ALIGN - 1 + sizeof(SmallBlock)) & ~(ALIGN-1)`. -/
def smallBlockSize (size : Nat) : Nat := (size + c.align - 1 + c.sizeofSmallBlock) / c.align * c.align

end Sizes

/-- The first word of a small block: its size slot while it is in use, the next free block while it is free. -/
inductive Header where
  | sizeSlot (i : Nat)
  | next (p : Option Nat)
deriving DecidableEq, Repr

structure SmallPage where
  addr : Nat
  size : Nat
deriving DecidableEq, Repr

structure SmallHeap where
  header : Nat → Header
  freeSmallBlocks : List (Option Nat)
  /-- `small_page` first; without one, `dummy_small_page` of size 0. -/
  smallPages : List SmallPage
  smallPageOffs : Nat
  /-- The size with which the block at an address was cut from its page.  Only statements read it. -/
  cutSize : Nat → Nat

namespace SmallHeap

/-- `OSHeapManager::OSHeapManager` -/
def new (c : Sizes) : SmallHeap :=
  { header := fun _ => .sizeSlot 0, freeSmallBlocks := List.replicate c.smallSlotCount none, smallPages := [],
    smallPageOffs := 0, cutSize := fun _ => 0 }

def smallPage (h : SmallHeap) : SmallPage := h.smallPages.headD ⟨0, 0⟩

/-- The size of a block that is cut is noted. -/
def noteSize (h : SmallHeap) (block size : Nat) : SmallHeap := { h with cutSize := Function.update h.cutSize block size }

/-- `((FreeSmallBlock*)block)->next = free_small_blocks[i]; free_small_blocks[i] = block` -/
def pushFree (h : SmallHeap) (block i : Nat) : Option SmallHeap :=
  match h.freeSmallBlocks[i]? with
  | none => none
  | some p =>
    some { h with header := Function.update h.header block (.next p), freeSmallBlocks := h.freeSmallBlocks.set i (some block) }

/-- What is left of the page goes to the list of its size, unless it is too small for a block. -/
def giveTail (c : Sizes) (h : SmallHeap) : Option SmallHeap :=
  let freePageSize := h.smallPage.size - h.smallPageOffs
  if (c.align + c.align - 1 + c.sizeofSmallBlock) / c.align * c.align < freePageSize then
    let block := h.smallPage.addr + h.smallPageOffs
    (h.noteSize block freePageSize).pushFree block (freePageSize / c.align - 1)
  else some h

def newSmallPage (c : Sizes) (h : SmallHeap) (page : Nat) : SmallHeap :=
  { h with smallPages := ⟨page, c.pageSize⟩ :: h.smallPages, smallPageOffs := c.sizeofSmallPage }

/-- A block of `size` is cut from the current page and gets its size slot. -/
def cut (c : Sizes) (h : SmallHeap) (size : Nat) : SmallHeap × Nat :=
  let block := h.smallPage.addr + h.smallPageOffs
  ({ h.noteSize block size with
      header := Function.update h.header block (.sizeSlot (size / c.align - 1)), smallPageOffs := h.smallPageOffs + size },
    block)

/-- `allocSmall`, with what the system answers when it is asked for a page: the heap after it and the block.  Nothing
comes back at all where an index runs out of its array or a header is not what it is read as. -/
def allocSmall (c : Sizes) (h : SmallHeap) (size : Nat) (system : Option Nat) : Option (SmallHeap × Option Nat) :=
  let size := c.smallBlockSize size
  let i := size / c.align - 1
  match h.freeSmallBlocks[i]? with
  | none => none
  | some (some first) =>
    match h.header first with
    | .sizeSlot _ => none
    | .next p =>
      some ({ h with header := Function.update h.header first (.sizeSlot i), freeSmallBlocks := h.freeSmallBlocks.set i p },
        some first)
  | some none =>
    if h.smallPage.size - h.smallPageOffs < size then
      match h.giveTail c with
      | none => none
      | some h =>
        match system with
        | none => some (h, none)
        | some page =>
          let (h, block) := (h.newSmallPage c page).cut c size
          some (h, some block)
    else
      let (h, block) := h.cut c size
      some (h, some block)

def freeSmall (h : SmallHeap) (block : Nat) : Option SmallHeap :=
  match h.header block with
  | .next _ => none
  | .sizeSlot i => h.pushFree block i

end SmallHeap

structure SmallRun where
  heap : SmallHeap
  live : List Nat

inductive SmallOp where
  | allocSmall (size : Nat) (system : Option Nat)
  | freeSmall (block : Nat)
deriving DecidableEq, Repr

namespace SmallRun

open SmallHeap

def new (c : Sizes) : SmallRun := { heap := .new c, live := [] }

def step (c : Sizes) (s : SmallRun) : SmallOp → Option SmallRun
  | .allocSmall size system =>
    match s.heap.allocSmall c size system with
    | none => none
    | some (h, none) => some { s with heap := h }
    | some (h, some block) => some { heap := h, live := block :: s.live }
  | .freeSmall block => (s.heap.freeSmall block).map fun h => { heap := h, live := s.live.erase block }

def Apart (a n b m : Nat) : Prop := a + n ≤ b ∨ b + m ≤ a

/-- The requests of `malloc` for small blocks, answered with memory that is not in use, and blocks in use given back. -/
def Allowed (c : Sizes) (s : SmallRun) : SmallOp → Prop
  | .allocSmall size system =>
    0 < size ∧ size < c.maxSmallSize ∧
      ∀ page, system = some page → ∀ p ∈ s.heap.smallPages, Apart page c.pageSize p.addr p.size
  | .freeSmall block => block ∈ s.live

/-- The system does not refuse a page when there is a rest to give away. -/
def Granted (c : Sizes) (s : SmallRun) : SmallOp → Prop
  | .allocSmall size system =>
    s.heap.freeSmallBlocks[c.smallBlockSize size / c.align - 1]? = some none →
      s.heap.smallPage.size - s.heap.smallPageOffs < c.smallBlockSize size →
      2 * c.align < s.heap.smallPage.size - s.heap.smallPageOffs → system ≠ none
  | .freeSmall _ => True

instance (a n b m : Nat) : Decidable (Apart a n b m) := inferInstanceAs (Decidable (_ ∨ _))

instance (c : Sizes) (s : SmallRun) : ∀ op, Decidable (s.Allowed c op)
  | .allocSmall _ system => inferInstanceAs (Decidable (_ ∧ _ ∧ ∀ page ∈ system, ∀ p ∈ s.heap.smallPages, _))
  | .freeSmall block => inferInstanceAs (Decidable (block ∈ s.live))

instance (c : Sizes) (s : SmallRun) : ∀ op, Decidable (s.Granted c op)
  | .allocSmall _ system => inferInstanceAs (Decidable (_ = some none → _ < _ → _ < _ → system ≠ none))
  | .freeSmall _ => .isTrue trivial

/-- The states of the runs in which every step is allowed and granted. -/
inductive Reachable (c : Sizes) : SmallRun → Prop where
  | new : Reachable c (.new c)
  | step {s s' op} : Reachable c s → s.Allowed c op → s.Granted c op → s.step c op = some s' → Reachable c s'

/-- The state after some calls, if every one is allowed and granted. -/
def run (c : Sizes) : List SmallOp → Option SmallRun :=
  CheckedRun.run (step c) (fun s op => s.Allowed c op ∧ s.Granted c op) (.new c)

theorem Reachable.of_run {c : Sizes} {s : SmallRun} {ops : List SmallOp} (h : run c ops = some s) : Reachable c s :=
  CheckedRun.run_keeps (fun _ _ _ hs ha hstep => .step hs ha.1 ha.2 hstep) ops .new h

end SmallRun

/-! ## Links and sizes -/

namespace SmallHeap

def link (h : SmallHeap) : LinkField Nat := fun a =>
  match h.header a with
  | .next p => p
  | .sizeSlot _ => none

/-- The list a block belongs to by the size it was cut with. -/
def slot (c : Sizes) (h : SmallHeap) (block : Nat) : Nat := h.cutSize block / c.align - 1

theorem link_next (h : SmallHeap) (block : Nat) (p : Option Nat) :
    link { h with header := Function.update h.header block (.next p) } = Function.update h.link block p := by
  funext a
  by_cases ha : a = block
  · subst ha
    simp [link]
  · simp [link, ha]

theorem link_sizeSlot (h : SmallHeap) (block i : Nat) :
    link { h with header := Function.update h.header block (.sizeSlot i) } = Function.update h.link block none := by
  funext a
  by_cases ha : a = block
  · subst ha
    simp [link]
  · simp [link, ha]

end SmallHeap

namespace Sizes

variable (c : Sizes)

theorem align_dvd_smallBlockSize (size : Nat) : c.align ∣ c.smallBlockSize size := Nat.dvd_mul_left _ _

theorem le_smallBlockSize (size : Nat) : size + c.align ≤ c.smallBlockSize size := by
  have hpos := c.align_pos
  have hdiv := Nat.div_add_mod (size + c.align - 1 + c.align) c.align
  have hmod := Nat.mod_lt (size + c.align - 1 + c.align) hpos
  rw [Nat.mul_comm] at hdiv
  unfold smallBlockSize sizeofSmallBlock
  omega

theorem smallBlockSize_le {size : Nat} (h : size < c.maxSmallSize) : c.smallBlockSize size ≤ c.maxSmallSize + c.align := by
  obtain ⟨m, hm⟩ := c.align_maxSmallSize
  have hpos := c.align_pos
  have hlt : (size + c.align - 1 + c.align) / c.align < m + 2 := by
    rw [Nat.div_lt_iff_lt_mul hpos, Nat.add_mul, Nat.mul_comm m]
    omega
  have hle := Nat.mul_le_mul_right c.align (Nat.le_of_lt_succ hlt)
  rw [Nat.add_mul, Nat.one_mul, Nat.mul_comm m, ← hm] at hle
  exact hle

theorem tail_threshold : (c.align + c.align - 1 + c.sizeofSmallBlock) / c.align * c.align = 2 * c.align := by
  have hpos := c.align_pos
  have hrw : c.align + c.align - 1 + c.sizeofSmallBlock = (c.align - 1) + c.align * 2 := by
    unfold sizeofSmallBlock
    omega
  rw [hrw, Nat.add_mul_div_left _ _ hpos, Nat.div_eq_of_lt (by omega), Nat.zero_add]

theorem slot_lt {size : Nat} (h : size ≤ c.maxSmallSize + c.align) : size / c.align - 1 < c.smallSlotCount := by
  have hle := Nat.div_le_div_right (c := c.align) h
  exact Nat.lt_succ_of_le (Nat.le_trans (Nat.sub_le _ _) hle)

end Sizes

/-! ## The invariant -/

namespace SmallRun

open SmallHeap

theorem Apart.symm {a n b m : Nat} (h : Apart a n b m) : Apart b m a n := Or.symm h

/-- **The blocks in use and the free ones, apart from each other and inside their pages, each free one on the list of its
own size.** -/
structure Blocks (c : Sizes) (h : SmallHeap) (live free : List Nat) : Prop where
  lists : Buckets h.link (h.slot c) h.freeSmallBlocks free
  slots : h.freeSmallBlocks.length = c.smallSlotCount
  used : ∀ p ∈ live, h.header p = .sizeSlot (h.slot c p) ∧ h.slot c p < c.smallSlotCount
  unused : ∀ p ∈ free, ∃ q, h.header p = .next q
  sized : ∀ p ∈ live ++ free, c.align ∣ h.cutSize p ∧ 0 < h.cutSize p
  apart : (live ++ free).Pairwise fun p q => Apart p (h.cutSize p) q (h.cutSize q)
  inside : ∀ p ∈ live ++ free, ∃ q ∈ h.smallPages, q.addr + c.sizeofSmallPage ≤ p ∧ p + h.cutSize p ≤ q.addr + q.size
  pages : h.smallPages.Pairwise fun p q => Apart p.addr p.size q.addr q.size

/-- What can still be cut from the current page is apart from every block. -/
structure Rest (c : Sizes) (h : SmallHeap) (live free : List Nat) : Prop where
  offs_le : h.smallPageOffs ≤ h.smallPage.size
  offs_dvd : c.align ∣ h.smallPageOffs
  size_dvd : c.align ∣ h.smallPage.size
  header : h.smallPages ≠ [] → c.sizeofSmallPage ≤ h.smallPageOffs
  apart : ∀ p ∈ live ++ free,
    Apart p (h.cutSize p) (h.smallPage.addr + h.smallPageOffs) (h.smallPage.size - h.smallPageOffs)

theorem Blocks.nodup {c : Sizes} {h : SmallHeap} {live free : List Nat} (hb : Blocks c h live free) : (live ++ free).Nodup := by
  refine hb.apart.imp_of_mem fun {a b} ha _ hab heq => ?_
  subst heq
  have := (hb.sized a ha).2
  unfold Apart at hab
  omega

/-- A block that is apart from all others is none of them. -/
theorem Blocks.not_mem {c : Sizes} {h : SmallHeap} {live free : List Nat} (hb : Blocks c h live free) {block n : Nat}
    (hn : 0 < n) (hapart : ∀ p ∈ live ++ free, Apart p (h.cutSize p) block n) : block ∉ live ++ free := by
  intro hmem
  have hsize := (hb.sized block hmem).2
  have := hapart block hmem
  unfold Apart at this
  omega

/-- The size of a block that is not there yet is noted. -/
theorem Blocks.noteSize {c : Sizes} {h : SmallHeap} {live free : List Nat} (hb : Blocks c h live free) {block n : Nat}
    (hnot : block ∉ live ++ free) : Blocks c (h.noteSize block n) live free := by
  have hsame : ∀ p ∈ live ++ free, (h.noteSize block n).cutSize p = h.cutSize p := fun p hp => by
    refine Function.update_of_ne ?_ _ _
    rintro rfl
    exact hnot hp
  have hslot : ∀ p ∈ live ++ free, (h.noteSize block n).slot c p = h.slot c p :=
    fun p hp => congrArg (· / c.align - 1) (hsame p hp)
  refine ⟨?_, hb.slots, fun p hp => ?_, hb.unused, fun p hp => ?_, ?_, fun p hp => ?_, hb.pages⟩
  · exact hb.lists.congr (fun _ => Iff.rfl) (fun _ _ => rfl) fun p hp => (hslot p (List.mem_append_right _ hp)).symm
  · rw [hslot p (List.mem_append_left _ hp)]
    exact hb.used p hp
  · rw [hsame p hp]
    exact hb.sized p hp
  · refine hb.apart.imp_of_mem fun {p q} hp hq hpq => ?_
    rw [hsame p hp, hsame q hq]
    exact hpq
  · rw [hsame p hp]
    exact hb.inside p hp

/-- A new block comes to the front, in use or free. -/
theorem Blocks.pairwise_cons {c : Sizes} {h : SmallHeap} {live free : List Nat} (hb : Blocks c h live free) (block : Nat)
    (hapart : ∀ p ∈ live ++ free, Apart p (h.cutSize p) block (h.cutSize block)) :
    (block :: (live ++ free)).Pairwise fun p q => Apart p (h.cutSize p) q (h.cutSize q) :=
  List.pairwise_cons.2 ⟨fun p hp => (hapart p hp).symm, hb.apart⟩

/-- **Putting a block on the list of its size.** -/
theorem Blocks.pushFree {c : Sizes} {h : SmallHeap} {live free : List Nat} {block : Nat} (hb : Blocks c h live free)
    (hnot : block ∉ live ++ free) (hslot : h.slot c block < c.smallSlotCount)
    (hsized : c.align ∣ h.cutSize block ∧ 0 < h.cutSize block)
    (hapart : ∀ p ∈ live ++ free, Apart p (h.cutSize p) block (h.cutSize block))
    (hinside : ∃ q ∈ h.smallPages, q.addr + c.sizeofSmallPage ≤ block ∧ block + h.cutSize block ≤ q.addr + q.size) :
    ∃ h', h.pushFree block (h.slot c block) = some h' ∧ Blocks c h' live (block :: free) ∧ h'.smallPages = h.smallPages ∧
      h'.smallPageOffs = h.smallPageOffs ∧ h'.cutSize = h.cutSize := by
  obtain ⟨p, hp⟩ : ∃ p, h.freeSmallBlocks[h.slot c block]? = some p :=
    ⟨_, List.getElem?_eq_getElem (by rw [hb.slots]; exact hslot)⟩
  refine ⟨{ h with
    header := Function.update h.header block (.next p), freeSmallBlocks := h.freeSmallBlocks.set (h.slot c block) (some block) },
    ?_, ?_, rfl, rfl, rfl⟩
  · unfold SmallHeap.pushFree
    rw [hp]
  have hne : ∀ q ∈ live ++ free, q ≠ block := fun q hq heq => hnot (heq ▸ hq)
  have hmem : ∀ q, q ∈ live ++ block :: free ↔ q ∈ block :: (live ++ free) := fun q => List.perm_middle.mem_iff
  refine ⟨?_, ?_, fun q hq => ?_, fun q hq => ?_, fun q hq => ?_, ?_, fun q hq => ?_, hb.pages⟩
  · refine (hb.lists.push (fun hf => hnot (List.mem_append_right _ hf)) hp).congr (fun _ => Iff.rfl) (fun q _ => ?_)
      fun _ _ => rfl
    exact (congrFun (link_next h block p) q).symm
  · exact (List.length_set ..).trans hb.slots
  · refine ⟨?_, (hb.used q hq).2⟩
    exact (Function.update_of_ne (hne q (List.mem_append_left _ hq)) _ _).trans (hb.used q hq).1
  · rcases List.mem_cons.1 hq with rfl | hq
    · exact ⟨p, Function.update_self ..⟩
    · obtain ⟨r, hr⟩ := hb.unused q hq
      exact ⟨r, (Function.update_of_ne (hne q (List.mem_append_right _ hq)) _ _).trans hr⟩
  · rcases List.mem_cons.1 ((hmem q).1 hq) with rfl | hq
    · exact hsized
    · exact hb.sized q hq
  · exact (List.perm_middle.pairwise_iff fun {_ _} h => Apart.symm h).2 (hb.pairwise_cons block hapart)
  · rcases List.mem_cons.1 ((hmem q).1 hq) with rfl | hq
    · exact hinside
    · exact hb.inside q hq

/-- **Taking the first block of a list.** -/
theorem Blocks.take {c : Sizes} {h : SmallHeap} {live free : List Nat} {i first : Nat} (hb : Blocks c h live free)
    (hi : h.freeSmallBlocks[i]? = some (some first)) :
    ∃ p, h.header first = .next p ∧ first ∈ free ∧ h.slot c first = i ∧
      Blocks c { h with header := Function.update h.header first (.sizeSlot i), freeSmallBlocks := h.freeSmallBlocks.set i p }
        (first :: live) (free.erase first) := by
  obtain ⟨ds, hd, hds⟩ := hb.lists.chains i _ hi
  obtain ⟨es, rfl, he⟩ := chain_cons hd
  obtain ⟨hfree, hslot⟩ := (hds first).1 List.mem_cons_self
  obtain ⟨p, hp⟩ := hb.unused first hfree
  have hlink : h.link first = p := by
    unfold link
    rw [hp]
  obtain ⟨-, hfnodup, hdisjoint⟩ := List.nodup_append.1 hb.nodup
  have hlive : first ∉ live := fun hl => hdisjoint first hl first hfree rfl
  refine ⟨p, hp, hfree, hslot, ?_⟩
  have hlt : i < c.smallSlotCount := by
    rw [← hb.slots]
    exact (List.getElem?_eq_some_iff.1 hi).1
  have hperm : (first :: live ++ free.erase first).Perm (live ++ free) :=
    List.perm_middle.symm.trans ((List.perm_cons_erase hfree).symm.append_left live)
  have hmem : ∀ d, d ∈ free.erase first ↔ d ∈ free ∧ d ∉ [first] := fun d => by
    rw [hfnodup.mem_erase_iff, List.mem_singleton, and_comm]
  have hdrop := hb.lists.drop hi (show Chain _ _ ([first] ++ es) from hd) he hmem
  rw [hlink] at hdrop
  refine ⟨?_, ?_, fun q hq => ?_, fun q hq => ?_, fun q hq => hb.sized q (hperm.subset hq), ?_,
    fun q hq => hb.inside q (hperm.subset hq), hb.pages⟩
  · refine hdrop.congr (fun _ => Iff.rfl) (fun d hd => ?_) fun _ _ => rfl
    have hne : d ≠ first := fun heq => ((hmem d).1 hd).2 (by rw [heq]; exact List.mem_singleton_self _)
    exact ((congrFun (link_sizeSlot h first i) d).trans (Function.update_of_ne hne _ _)).symm
  · exact (List.length_set ..).trans hb.slots
  · rcases List.mem_cons.1 hq with rfl | hq
    · exact ⟨(Function.update_self ..).trans (congrArg _ hslot.symm), hslot ▸ hlt⟩
    · refine ⟨?_, (hb.used q hq).2⟩
      exact (Function.update_of_ne (fun heq => hlive (by rwa [← heq])) _ _).trans (hb.used q hq).1
  · obtain ⟨hq, hne⟩ := (hmem q).1 hq
    obtain ⟨r, hr⟩ := hb.unused q hq
    exact ⟨r, (Function.update_of_ne (fun heq => hne (by rw [heq]; exact List.mem_singleton_self _)) _ _).trans hr⟩
  · exact (hperm.pairwise_iff fun {_ _} h => Apart.symm h).2 hb.apart

/-- **Cutting a block from the current page.** -/
theorem Blocks.cut {c : Sizes} {h : SmallHeap} {live free : List Nat} {size : Nat} (hb : Blocks c h live free)
    (hr : Rest c h live free) (hdvd : c.align ∣ size) (hpos : 0 < size) (hle : size ≤ h.smallPage.size - h.smallPageOffs)
    (hslot : size / c.align - 1 < c.smallSlotCount) :
    Blocks c (h.cut c size).1 ((h.cut c size).2 :: live) free ∧ Rest c (h.cut c size).1 ((h.cut c size).2 :: live) free := by
  obtain ⟨page, pages, hpages⟩ : ∃ page pages, h.smallPages = page :: pages := by
    cases hp : h.smallPages with
    | nil =>
      have hzero : h.smallPage.size = 0 := by
        unfold SmallHeap.smallPage
        rw [hp]
        rfl
      omega
    | cons page pages => exact ⟨page, pages, rfl⟩
  have hpage : h.smallPage = page := by
    unfold SmallHeap.smallPage
    rw [hpages]
    rfl
  have hheader := hr.header (by rw [hpages]; exact List.cons_ne_nil _ _)
  have hoffs := hr.offs_le
  let block := h.smallPage.addr + h.smallPageOffs
  have hblock : block = h.smallPage.addr + h.smallPageOffs := rfl
  have hapart : ∀ p ∈ live ++ free, Apart p (h.cutSize p) block size := fun p hp => by
    have := hr.apart p hp
    unfold Apart at this ⊢
    omega
  have hnot := hb.not_mem hpos hapart
  have hb' := hb.noteSize (n := size) hnot
  have hself : (h.noteSize block size).cutSize block = size := Function.update_self ..
  have hsame : ∀ p ∈ live ++ free, (h.noteSize block size).cutSize p = h.cutSize p := fun p hp => by
    refine Function.update_of_ne ?_ _ _
    rintro rfl
    exact hnot hp
  have hslot' : (h.noteSize block size).slot c block = size / c.align - 1 := congrArg (· / c.align - 1) hself
  have hne : ∀ q ∈ live ++ free, q ≠ block := fun q hq heq => hnot (heq ▸ hq)
  refine ⟨⟨?_, hb.slots, fun q hq => ?_, fun q hq => ?_, fun q hq => ?_, ?_, fun q hq => ?_, hb.pages⟩,
    ⟨?_, Nat.dvd_add hr.offs_dvd hdvd, hr.size_dvd, fun _ => ?_, fun q hq => ?_⟩⟩
  · refine hb'.lists.congr (fun _ => Iff.rfl) (fun q hq => ?_) fun _ _ => rfl
    exact ((congrFun (link_sizeSlot (h.noteSize block size) block _) q).trans
      (Function.update_of_ne (hne q (List.mem_append_right _ hq)) _ _)).symm
  · rcases List.mem_cons.1 hq with rfl | hq
    · refine ⟨(Function.update_self ..).trans ?_, ?_⟩
      · exact congrArg _ hslot'.symm
      · exact Nat.lt_of_le_of_lt (Nat.le_of_eq hslot') hslot
    · refine ⟨?_, (hb'.used q hq).2⟩
      exact (Function.update_of_ne (hne q (List.mem_append_left _ hq)) _ _).trans (hb'.used q hq).1
  · obtain ⟨r, hr⟩ := hb.unused q hq
    exact ⟨r, (Function.update_of_ne (hne q (List.mem_append_right _ hq)) _ _).trans hr⟩
  · rcases List.mem_cons.1 hq with rfl | hq
    · exact ⟨hself.symm ▸ hdvd, hself.symm ▸ hpos⟩
    · exact hb'.sized q hq
  · refine hb'.pairwise_cons block fun p hp => ?_
    rw [hself, hsame p hp]
    exact hapart p hp
  · rcases List.mem_cons.1 hq with rfl | hq
    · refine ⟨page, by rw [show ((h.cut c size).1).smallPages = h.smallPages from rfl, hpages]; exact List.mem_cons_self, ?_⟩
      have hsize : (h.cut c size).1.cutSize block = size := hself
      have hcut : (h.cut c size).2 = block := rfl
      rw [hcut, hsize]
      rw [hpage] at hblock hoffs hle
      omega
    · exact hb'.inside q hq
  · have hsize : (h.cut c size).1.smallPageOffs = h.smallPageOffs + size := rfl
    have hsame : (h.cut c size).1.smallPage = h.smallPage := rfl
    rw [hsize, hsame]
    omega
  · have hsize : (h.cut c size).1.smallPageOffs = h.smallPageOffs + size := rfl
    rw [hsize]
    omega
  · have hsize : (h.cut c size).1.smallPageOffs = h.smallPageOffs + size := rfl
    have hpsame : (h.cut c size).1.smallPage = h.smallPage := rfl
    rw [hsize, hpsame]
    rcases List.mem_cons.1 hq with rfl | hq
    · have hcut : (h.cut c size).2 = block := rfl
      have hself' : (h.cut c size).1.cutSize block = size := hself
      rw [hcut, hself']
      unfold Apart
      omega
    · have hsame' : (h.cut c size).1.cutSize q = h.cutSize q := hsame q hq
      rw [hsame']
      have := hr.apart q hq
      unfold Apart at this ⊢
      omega

theorem Blocks.newSmallPage {c : Sizes} {h : SmallHeap} {live free : List Nat} (page : Nat) (hb : Blocks c h live free)
    (hapart : ∀ p ∈ h.smallPages, Apart page c.pageSize p.addr p.size) :
    Blocks c (h.newSmallPage c page) live free ∧ Rest c (h.newSmallPage c page) live free := by
  have hroom := c.room
  have hpos := c.align_pos
  refine ⟨{ hb with
    lists := hb.lists
    inside := fun p hp => ?_
    pages := List.pairwise_cons.2 ⟨hapart, hb.pages⟩ }, ⟨?_, ?_, ?_, fun _ => Nat.le_refl _, fun p hp => ?_⟩⟩
  · obtain ⟨q, hq, hin⟩ := hb.inside p hp
    exact ⟨q, List.mem_cons_of_mem _ hq, hin⟩
  · show c.sizeofSmallPage ≤ c.pageSize
    unfold Sizes.sizeofSmallPage
    omega
  · exact Nat.dvd_mul_left _ _
  · exact c.align_pageSize
  · obtain ⟨q, hq, hin1, hin2⟩ := hb.inside p hp
    have := hapart q hq
    have hsame : (h.newSmallPage c page).cutSize = h.cutSize := rfl
    show Apart p (h.cutSize p) (page + c.sizeofSmallPage) (c.pageSize - c.sizeofSmallPage)
    unfold Apart at this ⊢
    omega

theorem giveTail_small {c : Sizes} {h : SmallHeap} (hle : h.smallPage.size - h.smallPageOffs ≤ 2 * c.align) :
    h.giveTail c = some h := by
  unfold SmallHeap.giveTail
  dsimp only
  rw [c.tail_threshold, if_neg (by omega)]

/-- What is left of the page becomes a free block; it can also still be cut. -/
theorem Blocks.giveTail {c : Sizes} {h : SmallHeap} {live free : List Nat} (hb : Blocks c h live free)
    (hr : Rest c h live free) (hlt : 2 * c.align < h.smallPage.size - h.smallPageOffs)
    (hslot : (h.smallPage.size - h.smallPageOffs) / c.align - 1 < c.smallSlotCount) :
    ∃ h', h.giveTail c = some h' ∧ Blocks c h' live ((h.smallPage.addr + h.smallPageOffs) :: free) ∧
      h'.smallPages = h.smallPages := by
  have hnot := hb.not_mem (Nat.zero_lt_of_lt hlt) hr.apart
  have hself : (h.noteSize (h.smallPage.addr + h.smallPageOffs) (h.smallPage.size - h.smallPageOffs)).cutSize
      (h.smallPage.addr + h.smallPageOffs) = h.smallPage.size - h.smallPageOffs := Function.update_self ..
  have hslot' : (h.noteSize (h.smallPage.addr + h.smallPageOffs) (h.smallPage.size - h.smallPageOffs)).slot c
      (h.smallPage.addr + h.smallPageOffs) = (h.smallPage.size - h.smallPageOffs) / c.align - 1 :=
    congrArg (· / c.align - 1) hself
  have hpages : h.smallPages ≠ [] := by
    intro hnil
    have hzero : h.smallPage.size = 0 := by
      unfold SmallHeap.smallPage
      rw [hnil]
      rfl
    omega
  have hpage : h.smallPage ∈ h.smallPages := by
    unfold SmallHeap.smallPage
    cases hp : h.smallPages with
    | nil => exact absurd hp hpages
    | cons page pages => exact List.mem_cons_self
  obtain ⟨h', hpush, hb', hsame, -⟩ := (hb.noteSize hnot).pushFree hnot
    (Nat.lt_of_le_of_lt (Nat.le_of_eq hslot') hslot)
    ⟨hself.symm ▸ Nat.dvd_sub hr.size_dvd hr.offs_dvd, hself.symm ▸ Nat.zero_lt_of_lt hlt⟩
    (fun p hp => by
      have hne : p ≠ h.smallPage.addr + h.smallPageOffs := fun heq => hnot (heq ▸ hp)
      have hsame : (h.noteSize (h.smallPage.addr + h.smallPageOffs) (h.smallPage.size - h.smallPageOffs)).cutSize p =
          h.cutSize p := Function.update_of_ne hne _ _
      rw [hself, hsame]
      exact hr.apart p hp)
    ⟨h.smallPage, hpage, Nat.add_le_add_left (hr.header hpages) _, by
      rw [hself]
      have := hr.offs_le
      omega⟩
  refine ⟨h', ?_, hb', hsame⟩
  unfold SmallHeap.giveTail
  dsimp only
  rw [c.tail_threshold, if_pos hlt, ← hslot']
  exact hpush

/-! ## Runs -/

/-- **The blocks are apart from each other and from what can still be cut.** -/
structure Sound (c : Sizes) (s : SmallRun) (free : List Nat) : Prop where
  blocks : Blocks c s.heap s.live free
  rest : Rest c s.heap s.live free

theorem new_sound (c : Sizes) : Sound c (.new c) [] := by
  refine ⟨⟨Buckets.empty _ _ _, List.length_replicate, ?_, ?_, ?_, List.Pairwise.nil, ?_, List.Pairwise.nil⟩,
    ⟨Nat.le_refl _, Nat.dvd_zero _, Nat.dvd_zero _, fun h => absurd rfl h, ?_⟩⟩
  all_goals
    intro p hp
    cases hp

/-- A request is answered, and what the answer leaves is sound. -/
theorem allocSmall_sound {c : Sizes} {s : SmallRun} {free : List Nat} {size : Nat} {system : Option Nat}
    (hs : Sound c s free) (ha : s.Allowed c (.allocSmall size system)) (hg : s.Granted c (.allocSmall size system)) :
    ∃ s' free', s.step c (.allocSmall size system) = some s' ∧ Sound c s' free' := by
  obtain ⟨-, hlt, hfresh⟩ := ha
  have hle := c.smallBlockSize_le hlt
  have hdvd := c.align_dvd_smallBlockSize size
  have hpos : 0 < c.smallBlockSize size := Nat.lt_of_lt_of_le (Nat.add_pos_right _ c.align_pos) (c.le_smallBlockSize size)
  have hslot := c.slot_lt hle
  unfold SmallRun.step SmallHeap.allocSmall
  unfold Granted at hg
  dsimp only at hg ⊢
  obtain ⟨first?, hi⟩ : ∃ first?, s.heap.freeSmallBlocks[c.smallBlockSize size / c.align - 1]? = some first? :=
    ⟨_, List.getElem?_eq_getElem (by rw [hs.blocks.slots]; exact hslot)⟩
  rw [hi] at hg ⊢
  cases first? with
  | some first =>
    obtain ⟨p, hp, hfree, -, hb⟩ := hs.blocks.take hi
    dsimp only
    rw [hp]
    refine ⟨_, free.erase first, rfl, hb, { hs.rest with apart := fun q hq => hs.rest.apart q ?_ }⟩
    refine List.mem_append.2 ?_
    rcases List.mem_append.1 hq with hq | hq
    · rcases List.mem_cons.1 hq with rfl | hq
      · exact .inr hfree
      · exact .inl hq
    · exact .inr (List.mem_of_mem_erase hq)
  | none =>
    dsimp only
    by_cases hshort : s.heap.smallPage.size - s.heap.smallPageOffs < c.smallBlockSize size
    · rw [if_pos hshort]
      have hg := hg rfl hshort
      by_cases htail : 2 * c.align < s.heap.smallPage.size - s.heap.smallPageOffs
      · -- the rest becomes a block, and a page is there
        obtain ⟨page, rfl⟩ := Option.ne_none_iff_exists'.1 (hg htail)
        obtain ⟨h', hgive, hb, hsame⟩ := hs.blocks.giveTail hs.rest htail
          (c.slot_lt (Nat.le_trans (Nat.le_of_lt hshort) hle))
        obtain ⟨hb, hr⟩ := hb.newSmallPage page (by rw [hsame]; exact hfresh page rfl)
        have hroom : c.smallBlockSize size ≤ c.pageSize - c.sizeofSmallPage := by
          have := c.room
          unfold Sizes.sizeofSmallPage
          omega
        obtain ⟨hb, hr⟩ := hb.cut hr hdvd hpos hroom hslot
        exact ⟨_, _, by rw [hgive], hb, hr⟩
      · rw [giveTail_small (Nat.le_of_not_lt htail)]
        cases system with
        | none => exact ⟨s, free, rfl, hs⟩
        | some page =>
          obtain ⟨hb, hr⟩ := hs.blocks.newSmallPage page (hfresh page rfl)
          have hroom : c.smallBlockSize size ≤ c.pageSize - c.sizeofSmallPage := by
            have := c.room
            unfold Sizes.sizeofSmallPage
            omega
          obtain ⟨hb, hr⟩ := hb.cut hr hdvd hpos hroom hslot
          exact ⟨_, free, rfl, hb, hr⟩
    · rw [if_neg hshort]
      obtain ⟨hb, hr⟩ := hs.blocks.cut hs.rest hdvd hpos (Nat.le_of_not_lt hshort) hslot
      exact ⟨_, free, rfl, hb, hr⟩

theorem freeSmall_sound {c : Sizes} {s : SmallRun} {free : List Nat} {block : Nat} (hs : Sound c s free)
    (ha : s.Allowed c (.freeSmall block)) : ∃ s' free', s.step c (.freeSmall block) = some s' ∧ Sound c s' free' := by
  obtain ⟨hused, hslot⟩ := hs.blocks.used block ha
  have hmem := List.mem_append_left free ha
  have hperm : (block :: (s.live.erase block ++ free)).Perm (s.live ++ free) :=
    (List.perm_cons_erase ha).symm.append_right free
  have hpair := (hperm.pairwise_iff fun {_ _} h => Apart.symm h).2 hs.blocks.apart
  obtain ⟨hhead, htail⟩ := List.pairwise_cons.1 hpair
  have hb : Blocks c s.heap (s.live.erase block) free :=
    { hs.blocks with
      used := fun p hp => hs.blocks.used p (List.mem_of_mem_erase hp)
      sized := fun p hp => hs.blocks.sized p (hperm.subset (List.mem_cons_of_mem _ hp))
      apart := htail
      inside := fun p hp => hs.blocks.inside p (hperm.subset (List.mem_cons_of_mem _ hp)) }
  have hapart : ∀ p ∈ s.live.erase block ++ free, Apart p (s.heap.cutSize p) block (s.heap.cutSize block) :=
    fun p hp => (hhead p hp).symm
  obtain ⟨h', hpush, hb', hpages, hoffs, hcut⟩ := hb.pushFree (hb.not_mem (hs.blocks.sized block hmem).2 hapart) hslot
    (hs.blocks.sized block hmem) hapart (hs.blocks.inside block hmem)
  refine ⟨{ heap := h', live := s.live.erase block }, block :: free, ?_, hb', ?_⟩
  · unfold SmallRun.step SmallHeap.freeSmall
    dsimp only
    rw [hused]
    dsimp only
    rw [hpush]
    rfl
  · have hpage : h'.smallPage = s.heap.smallPage := congrArg (fun l => l.headD ⟨0, 0⟩) hpages
    refine ⟨?_, ?_, ?_, ?_, fun p hp => ?_⟩
    · rw [hpage, hoffs]
      exact hs.rest.offs_le
    · rw [hoffs]
      exact hs.rest.offs_dvd
    · rw [hpage]
      exact hs.rest.size_dvd
    · rw [hpages, hoffs]
      exact hs.rest.header
    · show Apart p (h'.cutSize p) (h'.smallPage.addr + h'.smallPageOffs) (h'.smallPage.size - h'.smallPageOffs)
      rw [hpage, hoffs, hcut]
      exact hs.rest.apart p (hperm.subset (List.perm_middle.mem_iff.1 hp))

/-- **Every allowed and granted step is taken and keeps the blocks apart.** -/
theorem step_sound {c : Sizes} {s : SmallRun} {free : List Nat} {op : SmallOp} (hs : Sound c s free)
    (ha : s.Allowed c op) (hg : s.Granted c op) : ∃ s' free', s.step c op = some s' ∧ Sound c s' free' := by
  cases op with
  | allocSmall size system => exact allocSmall_sound hs ha hg
  | freeSmall block => exact freeSmall_sound hs ha

theorem Reachable.sound {c : Sizes} {s : SmallRun} (h : Reachable c s) : ∃ free, Sound c s free := by
  induction h with
  | new => exact ⟨[], new_sound c⟩
  | step _ ha hg hstep ih =>
    obtain ⟨free, hs⟩ := ih
    obtain ⟨s', free', hs', hsound⟩ := step_sound hs ha hg
    rw [hstep] at hs'
    cases hs'
    exact ⟨free', hsound⟩

/-- What is left of the page, once it is on a list, can also still be cut. -/
theorem not_sound_of_refused {c : Sizes} {s : SmallRun} {free : List Nat} {size : Nat} (hs : Sound c s free)
    (hlt : size < c.maxSmallSize) (hi : s.heap.freeSmallBlocks[c.smallBlockSize size / c.align - 1]? = some none)
    (hshort : s.heap.smallPage.size - s.heap.smallPageOffs < c.smallBlockSize size)
    (htail : 2 * c.align < s.heap.smallPage.size - s.heap.smallPageOffs) :
    ∃ s', s.step c (.allocSmall size none) = some s' ∧ s'.live = s.live ∧ ∀ free', ¬ Sound c s' free' := by
  have hslot := c.slot_lt (Nat.le_trans (Nat.le_of_lt hshort) (c.smallBlockSize_le hlt))
  obtain ⟨p, hp⟩ : ∃ p, s.heap.freeSmallBlocks[(s.heap.smallPage.size - s.heap.smallPageOffs) / c.align - 1]? = some p :=
    ⟨_, List.getElem?_eq_getElem (by rw [hs.blocks.slots]; exact hslot)⟩
  obtain ⟨h', hgive, hlists, hpages, hoffs⟩ : ∃ h', s.heap.giveTail c = some h' ∧
      h'.freeSmallBlocks = s.heap.freeSmallBlocks.set ((s.heap.smallPage.size - s.heap.smallPageOffs) / c.align - 1)
        (some (s.heap.smallPage.addr + s.heap.smallPageOffs)) ∧
      h'.smallPages = s.heap.smallPages ∧ h'.smallPageOffs = s.heap.smallPageOffs := by
    unfold SmallHeap.giveTail SmallHeap.pushFree SmallHeap.noteSize
    dsimp only
    rw [c.tail_threshold, if_pos htail, hp]
    exact ⟨_, rfl, rfl, rfl, rfl⟩
  refine ⟨{ s with heap := h' }, ?_, rfl, fun free' hsound => ?_⟩
  · unfold SmallRun.step SmallHeap.allocSmall
    dsimp only
    rw [hi]
    dsimp only
    rw [if_pos hshort, hgive]
  · -- the first block of the list starts where the next one would be cut
    have hpage : h'.smallPage = s.heap.smallPage := congrArg (fun l => l.headD ⟨0, 0⟩) hpages
    have hfirst : h'.freeSmallBlocks[(s.heap.smallPage.size - s.heap.smallPageOffs) / c.align - 1]? =
        some (some (s.heap.smallPage.addr + s.heap.smallPageOffs)) := by
      rw [hlists, List.getElem?_set_self (by rw [hs.blocks.slots]; exact hslot)]
    obtain ⟨ds, hd, hds⟩ := hsound.blocks.lists.chains _ _ hfirst
    obtain ⟨es, rfl, -⟩ := chain_cons hd
    have hmem := List.mem_append_right s.live ((hds _).1 List.mem_cons_self).1
    have hsize := (hsound.blocks.sized _ hmem).2
    have hapart := hsound.rest.apart _ hmem
    dsimp only at hsize hapart
    rw [hpage, hoffs] at hapart
    unfold Apart at hapart
    omega

/-- **In every run in which no page is refused while a rest is given away, the blocks in use, the free blocks and what can
still be cut are apart, each free block is on the list of its own size, and no call goes astray; and the first such refusal
ends that.** -/
theorem small_blocks_apart (c : Sizes) (s : SmallRun) (h : Reachable c s) :
    ∃ free, Sound c s free ∧
      ∀ op, s.Allowed c op → ((∃ s' free', s.step c op = some s' ∧ Sound c s' free') ↔ s.Granted c op) := by
  obtain ⟨free, hs⟩ := h.sound
  refine ⟨free, hs, fun op ha => ⟨?_, fun hg => step_sound hs ha hg⟩⟩
  rintro ⟨s', free', hstep, hsound⟩
  cases op with
  | freeSmall block => trivial
  | allocSmall size system =>
    intro hi hshort htail hnone
    subst hnone
    obtain ⟨s'', hstep', -, hnot⟩ := not_sound_of_refused hs ha.2.1 hi hshort htail
    rw [hstep] at hstep'
    cases hstep'
    exact hnot free' hsound

/-- Blocks are given back and handed out again; the end of the first page goes to a list when a second page is taken. -/
def twoPages : List SmallOp :=
  [.allocSmall 1 (some 65536), .allocSmall 100 none, .freeSmall 65552, .allocSmall 7 none] ++
    List.replicate 247 (.allocSmall 255 none) ++
    [.allocSmall 255 (some 131072), .freeSmall 131088, .allocSmall 250 none, .allocSmall 175 none]

theorem small_blocks_apart_twoPages : ∃ s free, Reachable sizes64 s ∧ Sound sizes64 s free ∧
    s.heap.smallPages = [⟨131072, 65536⟩, ⟨65536, 65536⟩] ∧ s.live.take 3 = [130888, 131088, 130624] := by
  have hrun : (run sizes64 twoPages).map (fun s => (s.heap.smallPages, s.live.take 3)) =
      some ([⟨131072, 65536⟩, ⟨65536, 65536⟩], [130888, 131088, 130624]) := by decide +kernel
  obtain ⟨s, hs, hshape⟩ := Option.map_eq_some_iff.1 hrun
  obtain ⟨hpages, hlive⟩ := Prod.mk.inj hshape
  have hreach := Reachable.of_run hs
  obtain ⟨free, hsound, -⟩ := small_blocks_apart sizes64 s hreach
  exact ⟨s, free, hreach, hsound, hpages, hlive⟩

/-- Requests of 255 bytes fill the first page from the front. -/
theorem filled (k : Nat) (hk : k < 248) : ∃ s, Reachable sizes64 s ∧ s.heap.smallPages = [⟨65536, 65536⟩] ∧
    s.heap.smallPageOffs = 280 + 264 * k ∧ s.heap.freeSmallBlocks = List.replicate 34 none := by
  induction k with
  | zero =>
    have ha : (SmallRun.new sizes64).Allowed sizes64 (.allocSmall 255 (some 65536)) :=
      ⟨by decide, by decide, by rintro _ _ p ⟨⟩⟩
    exact ⟨_, .step .new ha (fun _ _ _ => Option.some_ne_none _) rfl, rfl, rfl, rfl⟩
  | succ k ih =>
    obtain ⟨s, hreach, hpages, hoffs, hlists⟩ := ih (by omega)
    have hpage : s.heap.smallPage = ⟨65536, 65536⟩ := by
      unfold SmallHeap.smallPage
      rw [hpages]
      rfl
    have hsize : sizes64.smallBlockSize 255 = 264 := rfl
    have hshort : ¬ s.heap.smallPage.size - s.heap.smallPageOffs < sizes64.smallBlockSize 255 := by
      rw [hpage, hoffs, hsize]
      dsimp only
      omega
    have hstep : s.step sizes64 (.allocSmall 255 none) =
        some { heap := (s.heap.cut sizes64 264).1, live := (s.heap.cut sizes64 264).2 :: s.live } := by
      unfold SmallRun.step SmallHeap.allocSmall
      dsimp only
      rw [if_neg hshort, hlists, hsize]
      rfl
    have ha : s.Allowed sizes64 (.allocSmall 255 none) := ⟨by decide, by decide, by rintro _ ⟨⟩⟩
    refine ⟨_, .step hreach ha (fun _ h => absurd h hshort) hstep, hpages, ?_, hlists⟩
    show s.heap.smallPageOffs + 264 = _
    omega

/-- **The end of a page that is on a list and can still be cut**: 248 requests leave 48 bytes of the first page, and the
system has no second one. -/
theorem tail_shared : ∃ s, Reachable sizes64 s ∧ s.Allowed sizes64 (.allocSmall 255 none) ∧
    ∃ s', s.step sizes64 (.allocSmall 255 none) = some s' ∧ s'.live = s.live ∧ ∀ free, ¬ Sound sizes64 s' free := by
  obtain ⟨s, hreach, hpages, hoffs, hlists⟩ := filled 247 (by decide)
  obtain ⟨free, hs⟩ := hreach.sound
  have hpage : s.heap.smallPage = ⟨65536, 65536⟩ := by
    unfold SmallHeap.smallPage
    rw [hpages]
    rfl
  refine ⟨s, hreach, ⟨by decide, by decide, by rintro _ ⟨⟩⟩, not_sound_of_refused hs (by decide) ?_ ?_ ?_⟩
  · rw [hlists]
    rfl
  · rw [hpage, hoffs]
    decide
  · rw [hpage, hoffs]
    decide

end SmallRun
end Heap
end ObjectScript
