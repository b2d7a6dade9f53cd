import ObjectScript.Heap.MediumRuns
import ObjectScript.Lib.WrappedSum
/-!
# The counters of the heap

`OSHeapManager` with its three allocators and their statistics, words of 32 bits that are raised and lowered where the blocks and
pages change.  The blocks are those of `SmallHeap` and `MediumHeap`: each call does there what it does without the counters.

The counted operations are written out as the source has them, with the updates between the changes of the blocks.
`StatsSteps` compares them with the operations that have no counters.
-/
namespace ObjectScript
namespace Heap

open WrappedSum

/-- Without what `OS_DEBUG` adds. -/
structure SimpleStats where
  allocSize : UInt32
  usedSize : UInt32
  dataSize : UInt32
  allocCount : UInt32
  freeCount : UInt32
  hitCount : UInt32
deriving DecidableEq, Repr

namespace SimpleStats

/-- `OS_MEMSET(&stats, 0, sizeof(stats))` -/
def zero : SimpleStats := ⟨0, 0, 0, 0, 0, 0⟩

def registerAlloc (s : SimpleStats) (usedSize dataSize : UInt32) : SimpleStats :=
  { s with allocCount := s.allocCount + 1, usedSize := s.usedSize + usedSize, dataSize := s.dataSize + dataSize }

def registerFree (s : SimpleStats) (usedSize dataSize : UInt32) : SimpleStats :=
  { s with freeCount := s.freeCount + 1, usedSize := s.usedSize - usedSize, dataSize := s.dataSize - dataSize }

/-- `alloc_size += size` -/
def obtain (s : SimpleStats) (size : UInt32) : SimpleStats := { s with allocSize := s.allocSize + size }

/-- `alloc_size -= size` -/
def giveBack (s : SimpleStats) (size : UInt32) : SimpleStats := { s with allocSize := s.allocSize - size }

/-- `hit_count++` -/
def hit (s : SimpleStats) : SimpleStats := { s with hitCount := s.hitCount + 1 }

end SimpleStats

structure Stats extends SimpleStats where
  mergeCount : UInt32
  freePageCount : UInt32
deriving DecidableEq, Repr

namespace SmallHeap

def getSize (c : Sizes) (h : SmallHeap) (block : Nat) : Nat :=
  match h.header block with
  | .sizeSlot i => i * c.align + c.align
  | .next _ => 0

def getDataSize (c : Sizes) (h : SmallHeap) (block : Nat) : Nat := h.getSize c block - c.sizeofSmallBlock

end SmallHeap

/-- What `malloc` returns; the byte in front of it says where the block belongs. -/
inductive Pointer where
  | null
  | small (block : Nat)
  | medium (block : Nat)
  | large (block : Nat)
deriving DecidableEq, Repr

structure OSHeapManager where
  small : SmallHeap
  smallStats : SimpleStats
  medium : MediumHeap
  mediumStats : Stats
  /-- The ring of the large blocks, each with its size. -/
  large : List (Nat × Nat)
  largeStats : SimpleStats

namespace OSHeapManager

variable (c : Sizes)

def new : OSHeapManager :=
  { small := .new c, smallStats := .zero, medium := .new, mediumStats := { SimpleStats.zero with mergeCount := 0, freePageCount := 0 },
    large := [], largeStats := .zero }

variable (m : OSHeapManager)

/-! ## Small blocks -/

/-- `small_stats.registerAlloc(small_block->getSize(), data_size)` -/
def registerSmall (block : Nat) : OSHeapManager :=
  let dataSize := m.small.getDataSize c block
  { m with smallStats := m.smallStats.registerAlloc (UInt32.ofNat (m.small.getSize c block)) (UInt32.ofNat dataSize) }

def allocSmall (size : Nat) (system : Option Nat) : Option (OSHeapManager × Pointer) :=
  let size := c.smallBlockSize size
  let i := size / c.align - 1
  match m.small.freeSmallBlocks[i]? with
  | none => none
  | some (some first) =>
    match m.small.header first with
    | .sizeSlot _ => none
    | .next p =>
      let small := { m.small with
        header := Function.update m.small.header first (.sizeSlot i), freeSmallBlocks := m.small.freeSmallBlocks.set i p }
      some ({ m with small := small, smallStats := m.smallStats.hit }.registerSmall c first, .small first)
  | some none =>
    if m.small.smallPage.size - m.small.smallPageOffs < size then
      match m.small.giveTail c with
      | none => none
      | some small =>
        match system with
        | none => some ({ m with small := small }, .null)
        | some page =>
          let small := small.newSmallPage c page
          let stats := m.smallStats.obtain (UInt32.ofNat small.smallPage.size)
          let (small, block) := small.cut c size
          some ({ m with small := small, smallStats := stats }.registerSmall c block, .small block)
    else
      let (small, block) := m.small.cut c size
      some ({ m with small := small, smallStats := m.smallStats.hit }.registerSmall c block, .small block)

def freeSmall (block : Nat) : Option OSHeapManager :=
  match m.small.header block with
  | .next _ => none
  | .sizeSlot i =>
    let stats := m.smallStats.registerFree (UInt32.ofNat (m.small.getSize c block)) (UInt32.ofNat (m.small.getDataSize c block))
    (m.small.pushFree block i).map fun small => { m with small := small, smallStats := stats }

/-! ## Large blocks -/

def allocLarge (size : Nat) (system : Option Nat) : OSHeapManager × Pointer :=
  let size := c.blockSize size
  match system with
  | none => (m, .null)
  | some block =>
    let stats := m.largeStats.obtain (UInt32.ofNat size)
    let stats := stats.registerAlloc (UInt32.ofNat size) (UInt32.ofNat (size - c.sizeofBlock))
    ({ m with large := (block, size) :: m.large, largeStats := stats }, .large block)

def freeLarge (block : Nat) : Option OSHeapManager :=
  match m.large.find? (·.1 = block) with
  | none => none
  | some (_, size) =>
    let stats := m.largeStats.registerFree (UInt32.ofNat size) (UInt32.ofNat (size - c.sizeofBlock))
    let stats := stats.giveBack (UInt32.ofNat size)
    some { m with large := m.large.filter (·.1 ≠ block), largeStats := stats }

/-! ## Medium blocks -/

def setMedium (h : MediumHeap) : OSHeapManager := { m with medium := h }

def setMediumStats (stats : SimpleStats) : OSHeapManager := { m with mediumStats := { m.mediumStats with toSimpleStats := stats } }

/-- `medium_stats.registerAlloc(block->size, block->getDataSize())` -/
def registerMedium (block : Ref) : OSHeapManager :=
  m.setMediumStats (m.mediumStats.registerAlloc (UInt32.ofNat (m.medium.size block))
    (UInt32.ofNat (m.medium.size block - c.sizeofBlock)))

/-- `medium_stats.registerFree(block->size, block->getDataSize())` -/
def unregisterMedium (block : Ref) : OSHeapManager :=
  m.setMediumStats (m.mediumStats.registerFree (UInt32.ofNat (m.medium.size block))
    (UInt32.ofNat (m.medium.size block - c.sizeofBlock)))

/-- `medium_stats.merge_count++` -/
def merged : OSHeapManager := { m with mediumStats := { m.mediumStats with mergeCount := m.mediumStats.mergeCount + 1 } }

def pageFreed (size : Nat) : OSHeapManager :=
  let m := m.setMediumStats (m.mediumStats.giveBack (UInt32.ofNat size))
  { m with mediumStats := { m.mediumStats with freePageCount := m.mediumStats.freePageCount + 1 } }

def releaseSurplus (block cur : Ref) : Option OSHeapManager :=
  if m.medium.surplus c block cur then
    let m := m.pageFreed (m.medium.size cur)
    match m.medium.removeFreeLink cur with
    | none => none
    | some h => ((h.removeLink cur).stdFree cur).map m.setMedium
  else some m

/-- The loop of `insertFreeBlock` from `cur`. -/
def insertFreeBlockFrom (block : Ref) : Nat → Ref → Option OSHeapManager
  | 0, _ => none
  | fuel + 1, cur =>
    if m.medium.size cur ≤ m.medium.size block then
      (m.setMedium (m.medium.insertBeforeFreeLink block cur)).releaseSurplus c block cur
    else insertFreeBlockFrom block fuel (m.medium.nextFree cur)

def insertFreeBlock (block : Ref) : Option OSHeapManager :=
  m.insertFreeBlockFrom c block (m.medium.fuel c) (m.medium.nextFree .dummyFree)

def shrinkFree (block : Ref) (rest : Nat) : Option OSHeapManager :=
  let m := m.setMedium (m.medium.setSize block rest)
  if rest < m.medium.size (m.medium.nextFree block) then
    match m.medium.removeFreeLink block with
    | none => none
    | some h => (m.setMedium h).insertFreeBlock c block
  else some m

def newPage (addr : Nat) : OSHeapManager :=
  let m := m.setMedium (m.medium.newPage c addr)
  m.setMediumStats (m.mediumStats.obtain (UInt32.ofNat (m.medium.size (.at addr))))

/-- The second half of `allocMedium`: `size` bytes of a free block. -/
def takeFrom (block : Ref) (size : Nat) : Option (OSHeapManager × Pointer) :=
  match block with
  | .at addr =>
    let rest := m.medium.size block - size
    if rest < c.maxSmallSize ∧ (rest < c.maxSmallSize / 2 ∨ m.medium.page (m.medium.next block) ≠ m.medium.page block) then
      match m.medium.removeFreeLink block with
      | none => none
      | some h => some ((m.setMedium (h.setIsFree block false)).registerMedium c block, .medium addr)
    else
      match m.shrinkFree c block rest with
      | none => none
      | some m =>
        let newBlock := Ref.at (addr + rest)
        let h := (m.medium.setPage newBlock (m.medium.page block)).setSize newBlock size
        let h := h.insertAfter newBlock block
        some ((m.setMedium (h.setIsFree newBlock false)).registerMedium c newBlock, .medium (addr + rest))
  | _ => none

def allocMedium (saveSize : Nat) (system : Option Nat) : Option (OSHeapManager × Pointer) :=
  let size := c.blockSize saveSize
  let block := m.medium.nextFree .dummyFree
  if m.medium.size block < size then
    if c.pageSize / 2 < size then some (m.allocLarge c saveSize system)
    else
      match system with
      | none => some (m, .null)
      | some page => (m.newPage c page).takeFrom c (.at page) size
  else
    let m := m.setMediumStats m.mediumStats.hit
    match m.medium.findBestFreeBlock size (m.medium.fuel c) block with
    | none => none
    | some block => m.takeFrom c block size

/-- `freeMedium`: the block joins the one before it. -/
def joinPrev (block : Ref) : Option (OSHeapManager × Ref) :=
  let prev := m.medium.prev block
  if m.medium.isFree prev ∧ m.medium.page prev = m.medium.page block then
    let h := m.medium.setSize prev (m.medium.size prev + m.medium.size block)
    match h.removeFreeLink prev with
    | none => none
    | some h => some ((m.setMedium (h.removeLink block)).merged, prev)
  else some (m, block)

/-- `freeMedium`: the one behind joins the block. -/
def joinNext (block : Ref) : Option OSHeapManager :=
  let next := m.medium.next block
  if m.medium.isFree next ∧ m.medium.page next = m.medium.page block then
    let h := m.medium.setSize block (m.medium.size block + m.medium.size next)
    match h.removeFreeLink next with
    | none => none
    | some h => some (m.setMedium (h.removeLink next)).merged
  else some m

def freeMedium (block : Nat) : Option OSHeapManager :=
  if m.medium.isFree (.at block) then none
  else
    match (m.unregisterMedium c (.at block)).joinPrev (.at block) with
    | none => none
    | some (m, block) =>
      match m.joinNext block with
      | none => none
      | some m => (m.setMedium (m.medium.setIsFree block true)).insertFreeBlock c block

/-! ## The manager -/

/-- `malloc` of an `int`. -/
def malloc (size : Int) (system : Option Nat) : Option (OSHeapManager × Pointer) :=
  if size ≤ 0 then some (m, .null)
  else if size < c.maxSmallSize then m.allocSmall c size.toNat system
  else if size.toNat < c.pageSize / 2 then m.allocMedium c size.toNat system
  else some (m.allocLarge c size.toNat system)

def free : Pointer → Option OSHeapManager
  | .null => some m
  | .small block => m.freeSmall c block
  | .medium block => m.freeMedium c block
  | .large block => m.freeLarge c block

/-- The sum of the three `alloc_size`, as an `int`. -/
def getAllocatedBytes : Int :=
  (m.smallStats.allocSize + m.mediumStats.allocSize + m.largeStats.allocSize).toInt32.toInt

/-- The sum of the three `data_size`, as an `int`. -/
def getUsedBytes : Int :=
  (m.smallStats.dataSize + m.mediumStats.dataSize + m.largeStats.dataSize).toInt32.toInt

end OSHeapManager
end Heap
end ObjectScript
