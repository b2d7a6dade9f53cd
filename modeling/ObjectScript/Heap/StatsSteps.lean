import ObjectScript.Heap.Stats
/-!
# What a call does to the counters

Splitting, joining, listing and releasing medium blocks leaves the sums of the blocks in use alone and keeps the counter of the
pages right (`Rearranges`); a call registers the size that the block has when it is handed out or taken back.

A block is registered with the size that it has at that moment, and taken off with the size that it has when it is
freed.  For medium blocks the two are the same because a block in use is never resized; for small ones because the size
slot is not written while the block is in use.
-/
namespace ObjectScript
namespace Heap

open WrappedSum

/-! ## Registered blocks -/

structure SimpleStats.SameBlocks (stats stats' : SimpleStats) : Prop where
  usedSize : stats'.usedSize = stats.usedSize
  dataSize : stats'.dataSize = stats.dataSize
  allocCount : stats'.allocCount = stats.allocCount
  freeCount : stats'.freeCount = stats.freeCount

namespace SimpleStats.SameBlocks

variable {stats stats' stats'' : SimpleStats}

theorem refl (stats : SimpleStats) : stats.SameBlocks stats := ⟨rfl, rfl, rfl, rfl⟩

theorem trans (h : stats.SameBlocks stats') (h' : stats'.SameBlocks stats'') : stats.SameBlocks stats'' :=
  ⟨h'.usedSize.trans h.usedSize, h'.dataSize.trans h.dataSize, h'.allocCount.trans h.allocCount,
    h'.freeCount.trans h.freeCount⟩

theorem hit (stats : SimpleStats) : stats.SameBlocks stats.hit := ⟨rfl, rfl, rfl, rfl⟩

theorem obtain (stats : SimpleStats) (size : UInt32) : stats.SameBlocks (stats.obtain size) := ⟨rfl, rfl, rfl, rfl⟩

theorem giveBack (stats : SimpleStats) (size : UInt32) : stats.SameBlocks (stats.giveBack size) := ⟨rfl, rfl, rfl, rfl⟩

end SimpleStats.SameBlocks

/-- **The counters of an allocator hold the sums of the sizes of its blocks in use.** -/
structure Registers {α : Type} (stats : SimpleStats) (size data : α → Nat) (live : List α) : Prop where
  used : Sums size live stats.usedSize
  data : Sums data live stats.dataSize
  count : Sums (fun _ => 1) live (stats.allocCount - stats.freeCount)

namespace Registers

variable {α : Type} {stats : SimpleStats} {size data : α → Nat} {live : List α}

theorem zero (size data : α → Nat) : Registers .zero size data [] := ⟨.nil _, .nil _, .nil _⟩

theorem alloc (h : Registers stats size data live) (a : α) :
    Registers (stats.registerAlloc (UInt32.ofNat (size a)) (UInt32.ofNat (data a))) size data (a :: live) := by
  refine ⟨h.used.cons a, h.data.cons a, ?_⟩
  have hcount : stats.allocCount + 1 - stats.freeCount = stats.allocCount - stats.freeCount + UInt32.ofNat 1 := by
    rw [show UInt32.ofNat 1 = 1 from rfl]
    grind
  show Sums _ _ (stats.allocCount + 1 - stats.freeCount)
  rw [hcount]
  exact h.count.cons a

theorem free [BEq α] [LawfulBEq α] {a : α} (h : Registers stats size data live) (ha : a ∈ live) :
    Registers (stats.registerFree (UInt32.ofNat (size a)) (UInt32.ofNat (data a))) size data (live.erase a) := by
  refine ⟨h.used.erase ha, h.data.erase ha, ?_⟩
  have hcount : stats.allocCount - (stats.freeCount + 1) = stats.allocCount - stats.freeCount - UInt32.ofNat 1 := by
    rw [show UInt32.ofNat 1 = 1 from rfl]
    grind
  show Sums _ _ (stats.allocCount - (stats.freeCount + 1))
  rw [hcount]
  exact h.count.erase ha

theorem congr {size' data' : α → Nat} (h : Registers stats size data live) (hsize : ∀ a ∈ live, size' a = size a)
    (hdata : ∀ a ∈ live, data' a = data a) : Registers stats size' data' live :=
  ⟨h.used.congr hsize, h.data.congr hdata, h.count⟩

theorem of_same {stats' : SimpleStats} (h : Registers stats size data live) (hsame : stats.SameBlocks stats') :
    Registers stats' size data live := by
  refine ⟨?_, ?_, ?_⟩
  · rw [hsame.usedSize]
    exact h.used
  · rw [hsame.dataSize]
    exact h.data
  · rw [hsame.allocCount, hsame.freeCount]
    exact h.count

end Registers

namespace OSHeapManager

variable {c : Sizes} {m m' m'' : OSHeapManager}

/-! ## Rearranging medium blocks -/

/-- The counter of the pages of medium blocks is right. -/
def PagesCounted (c : Sizes) (m : OSHeapManager) : Prop := Sums (fun _ => c.pageSize) m.medium.pages m.mediumStats.allocSize

/-- **Medium blocks may have changed, but the sums of the blocks in use have not.** -/
structure Rearranges (c : Sizes) (m m' : OSHeapManager) : Prop where
  small : m'.small = m.small
  smallStats : m'.smallStats = m.smallStats
  large : m'.large = m.large
  largeStats : m'.largeStats = m.largeStats
  blocks : m.mediumStats.SameBlocks m'.mediumStats.toSimpleStats
  pages : PagesCounted c m → PagesCounted c m'

namespace Rearranges

theorem refl (c : Sizes) (m : OSHeapManager) : Rearranges c m m := ⟨rfl, rfl, rfl, rfl, .refl _, id⟩

theorem trans (h : Rearranges c m m') (h' : Rearranges c m' m'') : Rearranges c m m'' :=
  ⟨h'.small.trans h.small, h'.smallStats.trans h.smallStats, h'.large.trans h.large, h'.largeStats.trans h.largeStats,
    h.blocks.trans h'.blocks, h'.pages ∘ h.pages⟩

theorem setMedium {h : MediumHeap} (hpages : h.pages = m.medium.pages) : Rearranges c m (m.setMedium h) := by
  refine ⟨rfl, rfl, rfl, rfl, .refl _, fun hm => ?_⟩
  show Sums _ h.pages _
  rw [hpages]
  exact hm

theorem merged (c : Sizes) (m : OSHeapManager) : Rearranges c m m.merged := ⟨rfl, rfl, rfl, rfl, .refl _, id⟩

theorem hit (c : Sizes) (m : OSHeapManager) : Rearranges c m (m.setMediumStats m.mediumStats.hit) :=
  ⟨rfl, rfl, rfl, rfl, .hit _, id⟩

/-- A page from the system is counted with the size it gets. -/
theorem newPage (c : Sizes) (m : OSHeapManager) (addr : Nat) : Rearranges c m (m.newPage c addr) := by
  refine ⟨rfl, rfl, rfl, rfl, .obtain _ _, fun hm => ?_⟩
  have hsize : (m.medium.newPage c addr).size (.at addr) = c.pageSize := Function.update_self ..
  show Sums _ (addr :: m.medium.pages) (m.mediumStats.allocSize + UInt32.ofNat ((m.medium.newPage c addr).size (.at addr)))
  rw [hsize]
  exact hm.cons addr

/-- A page that goes back is taken off with the size it has, that of a page. -/
theorem pageFreed {cur : Ref} {h h' : MediumHeap} (hsize : m.medium.size cur = c.pageSize) (hpages : h.pages = m.medium.pages)
    (hfree : h.stdFree cur = some h') : Rearranges c m ((m.pageFreed (m.medium.size cur)).setMedium h') := by
  refine ⟨rfl, rfl, rfl, rfl, .giveBack _ _, fun hm => ?_⟩
  unfold MediumHeap.stdFree at hfree
  cases cur with
  | dummyBlock => cases hfree
  | dummyFree => cases hfree
  | «at» addr =>
    dsimp only at hfree
    split at hfree
    · rename_i hmem
      cases hfree
      show Sums _ (h.pages.erase addr) (m.mediumStats.allocSize - UInt32.ofNat (m.medium.size (.at addr)))
      rw [hsize, hpages]
      exact hm.erase (hpages ▸ hmem)
    · cases hfree

end Rearranges

/-- The call comes to the same blocks, with the sums of those in use as they were. -/
def Follows (c : Sizes) (m : OSHeapManager) (h : MediumHeap) (r : Option OSHeapManager) : Prop :=
  ∃ m', r = some m' ∧ m'.medium = h ∧ Rearranges c m m'

theorem Follows.trans {h : MediumHeap} {r : Option OSHeapManager} (hm : Rearranges c m m') (hf : Follows c m' h r) :
    Follows c m h r := by
  obtain ⟨m'', hr, hmedium, hmoves⟩ := hf
  exact ⟨m'', hr, hmedium, hm.trans hmoves⟩

theorem removeFreeLink_pages {h h' : MediumHeap} {block : Ref} (hrun : h.removeFreeLink block = some h') :
    h'.pages = h.pages := by
  unfold MediumHeap.removeFreeLink at hrun
  split at hrun
  · cases hrun
  · cases hrun
    rfl

theorem surplus_size {h : MediumHeap} {block cur : Ref} (hs : h.surplus c block cur = true) : h.size cur = c.pageSize := by
  unfold MediumHeap.surplus at hs
  simp only [Bool.and_eq_true, beq_iff_eq] at hs
  exact hs.1.1.1.1.1.2

theorem releaseSurplus_follows {block cur : Ref} {h : MediumHeap} (hrun : m.medium.releaseSurplus c block cur = some h) :
    Follows c m h (m.releaseSurplus c block cur) := by
  unfold MediumHeap.releaseSurplus at hrun
  unfold releaseSurplus
  by_cases hs : m.medium.surplus c block cur = true
  · rw [if_pos hs] at hrun ⊢
    dsimp only
    have hmedium : (m.pageFreed (m.medium.size cur)).medium = m.medium := rfl
    rw [hmedium]
    cases hremove : m.medium.removeFreeLink cur with
    | none =>
      rw [hremove] at hrun
      cases hrun
    | some h1 =>
      rw [hremove] at hrun
      dsimp only at hrun ⊢
      rw [hrun]
      have hpages : h1.pages = m.medium.pages := removeFreeLink_pages hremove
      exact ⟨_, rfl, rfl, .pageFreed (h := h1.removeLink cur) (surplus_size hs) hpages hrun⟩
  · rw [if_neg hs] at hrun ⊢
    cases hrun
    exact ⟨m, rfl, rfl, .refl c m⟩

theorem insertFreeBlockFrom_follows {block : Ref} {h : MediumHeap} : ∀ {fuel : Nat} {cur : Ref},
    m.medium.insertFreeBlockFrom c block fuel cur = some h → Follows c m h (m.insertFreeBlockFrom c block fuel cur)
  | 0, _, hrun => by cases hrun
  | fuel + 1, cur, hrun => by
    unfold MediumHeap.insertFreeBlockFrom at hrun
    unfold insertFreeBlockFrom
    split at hrun
    · rename_i hle
      rw [if_pos hle]
      exact .trans (.setMedium (c := c) (h := m.medium.insertBeforeFreeLink block cur) rfl) (releaseSurplus_follows hrun)
    · rename_i hlt
      rw [if_neg hlt]
      exact insertFreeBlockFrom_follows hrun

theorem insertFreeBlock_follows {block : Ref} {h : MediumHeap} (hrun : m.medium.insertFreeBlock c block = some h) :
    Follows c m h (m.insertFreeBlock c block) := insertFreeBlockFrom_follows hrun

theorem shrinkFree_follows {block : Ref} {rest : Nat} {h : MediumHeap} (hrun : m.medium.shrinkFree c block rest = some h) :
    Follows c m h (m.shrinkFree c block rest) := by
  have hset : Rearranges c m (m.setMedium (m.medium.setSize block rest)) := .setMedium rfl
  unfold MediumHeap.shrinkFree at hrun
  unfold shrinkFree
  dsimp only at hrun ⊢
  have hmedium : (m.setMedium (m.medium.setSize block rest)).medium = m.medium.setSize block rest := rfl
  rw [hmedium]
  split at hrun
  · rename_i hlt
    rw [if_pos hlt]
    cases hremove : (m.medium.setSize block rest).removeFreeLink block with
    | none =>
      rw [hremove] at hrun
      cases hrun
    | some h1 =>
      rw [hremove] at hrun
      have hpages : h1.pages = (m.setMedium (m.medium.setSize block rest)).medium.pages := removeFreeLink_pages hremove
      exact .trans (hset.trans (.setMedium hpages)) (insertFreeBlock_follows hrun)
  · rename_i hge
    rw [if_neg hge]
    cases hrun
    exact ⟨_, rfl, rfl, hset⟩

/-! ## Handing out and taking back -/

/-- The call hands out the medium block `a` and registers the size it has then. -/
def HandsOut (c : Sizes) (m : OSHeapManager) (h : MediumHeap) (a : Nat) (r : Option (OSHeapManager × Pointer)) : Prop :=
  ∃ m', Rearranges c m m' ∧ m'.medium = h ∧ r = some (m'.registerMedium c (.at a), .medium a)

theorem HandsOut.trans {h : MediumHeap} {a : Nat} {r : Option (OSHeapManager × Pointer)} (hm : Rearranges c m m')
    (hf : HandsOut c m' h a r) : HandsOut c m h a r := by
  obtain ⟨m'', hmoves, hmedium, hr⟩ := hf
  exact ⟨m'', hm.trans hmoves, hmedium, hr⟩

theorem takeFrom_handsOut {block : Ref} {size a : Nat} {h : MediumHeap}
    (hrun : m.medium.takeFrom c block size = some (h, .medium a)) : HandsOut c m h a (m.takeFrom c block size) := by
  cases block with
  | dummyBlock => cases hrun
  | dummyFree => cases hrun
  | «at» addr =>
    unfold MediumHeap.takeFrom at hrun
    unfold takeFrom
    dsimp only at hrun ⊢
    split at hrun
    · rename_i hwhole
      rw [if_pos hwhole]
      cases hremove : m.medium.removeFreeLink (.at addr) with
      | none =>
        rw [hremove] at hrun
        cases hrun
      | some h1 =>
        rw [hremove] at hrun
        have hpages : h1.pages = m.medium.pages := removeFreeLink_pages hremove
        cases hrun
        refine ⟨_, .setMedium ?_, ?_, rfl⟩
        · exact hpages
        · rfl
    · rename_i hpart
      rw [if_neg hpart]
      cases hshrink : m.medium.shrinkFree c (.at addr) (m.medium.size (.at addr) - size) with
      | none =>
        rw [hshrink] at hrun
        cases hrun
      | some h1 =>
        rw [hshrink] at hrun
        obtain ⟨m', hr, rfl, hmoves⟩ := shrinkFree_follows hshrink
        rw [hr]
        cases hrun
        refine ⟨_, hmoves.trans (.setMedium ?_), ?_, rfl⟩
        · rfl
        · rfl

theorem takeFrom_answer {h h' : MediumHeap} {block : Ref} {size : Nat} {answer : Answer}
    (hrun : h.takeFrom c block size = some (h', answer)) : ∃ a, answer = .medium a := by
  cases block with
  | dummyBlock => cases hrun
  | dummyFree => cases hrun
  | «at» addr =>
    unfold MediumHeap.takeFrom at hrun
    dsimp only at hrun
    split at hrun
    · split at hrun
      · cases hrun
      · cases hrun
        exact ⟨_, rfl⟩
    · split at hrun
      · cases hrun
      · cases hrun
        exact ⟨_, rfl⟩

/-- `allocMedium` comes to `h` and returns what it returns without the counters. -/
def CountsMedium (c : Sizes) (m : OSHeapManager) (size : Nat) (system : Option Nat) (h : MediumHeap)
    (r : Option (OSHeapManager × Pointer)) : Answer → Prop
  | .null => h = m.medium ∧ r = some (m, .null)
  | .small => False
  | .medium a => HandsOut c m h a r
  | .large block => h = m.medium ∧ system = some block ∧ r = some (m.allocLarge c size system)

/-- **`allocMedium` with the counters.** -/
theorem allocMedium_counts {size : Nat} {system : Option Nat} {h : MediumHeap} {answer : Answer}
    (hrun : m.medium.allocMedium c size system = some (h, answer)) :
    CountsMedium c m size system h (m.allocMedium c size system) answer := by
  unfold MediumHeap.allocMedium at hrun
  unfold allocMedium
  dsimp only at hrun ⊢
  split at hrun
  · rename_i hshort
    rw [if_pos hshort]
    split at hrun
    · rename_i hlarge
      rw [if_pos hlarge]
      cases system with
      | none =>
        cases hrun
        exact ⟨rfl, rfl⟩
      | some block =>
        cases hrun
        exact ⟨rfl, rfl, rfl⟩
    · rename_i hsmall
      rw [if_neg hsmall]
      cases system with
      | none =>
        cases hrun
        exact ⟨rfl, rfl⟩
      | some page =>
        obtain ⟨a, rfl⟩ := takeFrom_answer hrun
        exact .trans (.newPage c m page) (takeFrom_handsOut (m := m.newPage c page) hrun)
  · rename_i hfits
    rw [if_neg hfits]
    have hmedium : (m.setMediumStats m.mediumStats.hit).medium = m.medium := rfl
    rw [hmedium]
    cases hfind : m.medium.findBestFreeBlock (c.blockSize size) (m.medium.fuel c) (m.medium.nextFree .dummyFree) with
    | none =>
      rw [hfind] at hrun
      cases hrun
    | some block =>
      rw [hfind] at hrun
      obtain ⟨a, rfl⟩ := takeFrom_answer hrun
      exact .trans (.hit c m) (takeFrom_handsOut (m := m.setMediumStats m.mediumStats.hit) hrun)

/-- The block joins the one before it; the sizes are registered already. -/
theorem joinPrev_follows {block block' : Ref} {h : MediumHeap} (hrun : m.medium.joinPrev block = some (h, block')) :
    ∃ m', m.joinPrev block = some (m', block') ∧ m'.medium = h ∧ Rearranges c m m' := by
  unfold MediumHeap.joinPrev at hrun
  unfold joinPrev
  dsimp only at hrun ⊢
  split at hrun
  · rename_i hjoin
    rw [if_pos hjoin]
    cases hremove : (m.medium.setSize (m.medium.prev block)
        (m.medium.size (m.medium.prev block) + m.medium.size block)).removeFreeLink (m.medium.prev block) with
    | none =>
      rw [hremove] at hrun
      cases hrun
    | some h1 =>
      have hpages : h1.pages = m.medium.pages := (removeFreeLink_pages hremove).trans rfl
      rw [hremove] at hrun
      cases hrun
      exact ⟨_, rfl, rfl, (Rearranges.setMedium (h := h1.removeLink block) hpages).trans (.merged c _)⟩
  · rename_i hapart
    rw [if_neg hapart]
    cases hrun
    exact ⟨m, rfl, rfl, .refl c m⟩

theorem joinNext_follows {block : Ref} {h : MediumHeap} (hrun : m.medium.joinNext block = some h) :
    Follows c m h (m.joinNext block) := by
  unfold MediumHeap.joinNext at hrun
  unfold joinNext
  dsimp only at hrun ⊢
  split at hrun
  · rename_i hjoin
    rw [if_pos hjoin]
    cases hremove : (m.medium.setSize block (m.medium.size block + m.medium.size (m.medium.next block))).removeFreeLink
        (m.medium.next block) with
    | none =>
      rw [hremove] at hrun
      cases hrun
    | some h1 =>
      have hpages : h1.pages = m.medium.pages := (removeFreeLink_pages hremove).trans rfl
      rw [hremove] at hrun
      cases hrun
      exact ⟨_, rfl, rfl, (Rearranges.setMedium (h := h1.removeLink (m.medium.next block)) hpages).trans (.merged c _)⟩
  · rename_i hapart
    rw [if_neg hapart]
    cases hrun
    exact ⟨m, rfl, rfl, .refl c m⟩

/-- **`freeMedium` with the counters**: the size is registered before the block joins its neighbours. -/
theorem freeMedium_follows {block : Nat} {h : MediumHeap} (hrun : m.medium.freeMedium c block = some h) :
    Follows c (m.unregisterMedium c (.at block)) h (m.freeMedium c block) := by
  unfold MediumHeap.freeMedium at hrun
  unfold freeMedium
  split at hrun
  · cases hrun
  · rename_i hused
    rw [if_neg hused]
    split at hrun
    · cases hrun
    · rename_i h1 block1 hprev
      split at hrun
      · cases hrun
      · rename_i h2 hnext
        obtain ⟨m1, hr1, rfl, hmoves1⟩ := joinPrev_follows (m := m.unregisterMedium c (.at block)) hprev
        obtain ⟨m2, hr2, rfl, hmoves2⟩ := joinNext_follows hnext
        rw [hr1]
        dsimp only
        rw [hr2]
        dsimp only
        have hset : Rearranges c m2 (m2.setMedium (m2.medium.setIsFree block1 true)) := .setMedium rfl
        exact .trans (hmoves1.trans (hmoves2.trans hset)) (insertFreeBlock_follows hrun)

/-! ## Small blocks -/

/-- The counter of the pages of small blocks is right. -/
def SmallPagesCounted (small : SmallHeap) (stats : SimpleStats) : Prop := Sums SmallPage.size small.smallPages stats.allocSize

theorem giveTail_pages {small small' : SmallHeap} (hrun : small.giveTail c = some small') :
    small'.smallPages = small.smallPages := by
  unfold SmallHeap.giveTail SmallHeap.pushFree at hrun
  dsimp only at hrun
  split at hrun
  · split at hrun
    · cases hrun
    · cases hrun
      rfl
  · cases hrun
    rfl

/-- `allocSmall` comes to `small` and returns a block, whose size is registered, or none. -/
def CountsSmall (c : Sizes) (m : OSHeapManager) (small : SmallHeap) (r : Option (OSHeapManager × Pointer)) : Option Nat → Prop
  | none => small.smallPages = m.small.smallPages ∧ r = some ({ m with small := small }, .null)
  | some block => ∃ stats, m.smallStats.SameBlocks stats ∧
      (SmallPagesCounted m.small m.smallStats → SmallPagesCounted small stats) ∧
      r = some ({ m with small := small, smallStats := stats }.registerSmall c block, .small block)

/-- **`allocSmall` with the counters**: a page is counted when the system gives it, and a block with the size of its slot. -/
theorem allocSmall_counts {size : Nat} {system block? : Option Nat} {small : SmallHeap}
    (hrun : m.small.allocSmall c size system = some (small, block?)) :
    CountsSmall c m small (m.allocSmall c size system) block? := by
  unfold SmallHeap.allocSmall at hrun
  unfold allocSmall
  dsimp only at hrun ⊢
  cases hlist : m.small.freeSmallBlocks[c.smallBlockSize size / c.align - 1]? with
  | none =>
    rw [hlist] at hrun
    cases hrun
  | some first? =>
    rw [hlist] at hrun
    cases first? with
    | some first =>
      dsimp only at hrun ⊢
      cases hheader : m.small.header first with
      | sizeSlot i =>
        rw [hheader] at hrun
        cases hrun
      | next p =>
        rw [hheader] at hrun
        cases hrun
        exact ⟨m.smallStats.hit, .hit _, id, rfl⟩
    | none =>
      dsimp only at hrun ⊢
      split at hrun
      · rename_i hshort
        rw [if_pos hshort]
        cases hgive : m.small.giveTail c with
        | none =>
          rw [hgive] at hrun
          cases hrun
        | some small1 =>
          have hpages := giveTail_pages hgive
          rw [hgive] at hrun
          cases system with
          | none =>
            cases hrun
            exact ⟨hpages, rfl⟩
          | some page =>
            cases hrun
            refine ⟨m.smallStats.obtain (UInt32.ofNat c.pageSize), .obtain _ _, fun hm => ?_, rfl⟩
            show Sums SmallPage.size (⟨page, c.pageSize⟩ :: small1.smallPages) _
            rw [hpages]
            exact hm.cons ⟨page, c.pageSize⟩
      · rename_i hfits
        rw [if_neg hfits]
        cases hrun
        exact ⟨m.smallStats.hit, .hit _, id, rfl⟩

/-- **`freeSmall` with the counters**: the size is that of the slot, while the block still has it. -/
theorem freeSmall_counts {block : Nat} {small : SmallHeap} (hrun : m.small.freeSmall block = some small) :
    m.freeSmall c block = some { m with
      small := small
      smallStats := m.smallStats.registerFree (UInt32.ofNat (m.small.getSize c block))
        (UInt32.ofNat (m.small.getDataSize c block)) } := by
  unfold SmallHeap.freeSmall at hrun
  unfold freeSmall
  cases hheader : m.small.header block with
  | next p =>
    rw [hheader] at hrun
    cases hrun
  | sizeSlot i =>
    rw [hheader] at hrun
    exact congrArg (Option.map _) hrun

end OSHeapManager
end Heap
end ObjectScript
