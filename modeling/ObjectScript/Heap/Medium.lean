import ObjectScript.Heap.Small
import ObjectScript.Lib.LinkRing
/-!
# Medium blocks

A page of medium blocks is cut into blocks that carry its number.  All blocks stand in one ring, those of a page one after
the other, and the free ones in a second ring by falling size.  A block that is freed joins its neighbours in the ring when
they are free and carry the same number.

The two rings are fields of the blocks, `prev` and `next`, `prevFree` and `nextFree`, with a head of their own each
(`dummyBlock`, `dummyFree`).  An operation that reads a field of a block that is not there has no result.
-/
namespace ObjectScript
namespace Heap

/-- Where a block stands: the two list heads are members of the manager. -/
inductive Ref where
  | dummyBlock
  | dummyFree
  | at (addr : Nat)
deriving DecidableEq, Repr

structure MediumHeap where
  prev : Ref → Ref
  next : Ref → Ref
  prevFree : Ref → Ref
  nextFree : Ref → Ref
  size : Ref → Nat
  page : Ref → Nat
  isFree : Ref → Bool
  nextPage : Nat
  /-- The pages that the system gave and has not got back, the last one first. -/
  pages : List Nat
  /-- How many pages the system gave so far.  Only statements read it. -/
  taken : Nat

/-- What a request comes back with.  A small block is none of the medium ones (`allocSmall`). -/
inductive Answer where
  | null
  | small
  | medium (block : Nat)
  | large (block : Nat)
deriving DecidableEq, Repr

namespace Sizes

variable (c : Sizes)

/-- `(size + ALIGN - 1 + sizeof(Block)) & ~(ALIGN - 1)` -/
def blockSize (size : Nat) : Nat := (size + c.align - 1 + c.sizeofBlock) / c.align * c.align

end Sizes

/-- `(OS_U16)-1` -/
def dummyPage : Nat := 65535

namespace MediumHeap

/-- `OSHeapManager::OSHeapManager` -/
def new : MediumHeap :=
  { prev := id, next := id, prevFree := id, nextFree := id, size := fun _ => 0, page := fun _ => dummyPage,
    isFree := fun r => r = .dummyBlock, nextPage := 1, pages := [], taken := 0 }

variable (c : Sizes) (h : MediumHeap)

def setLinks (links : (Ref → Ref) × (Ref → Ref)) : MediumHeap := { h with next := links.1, prev := links.2 }

def removeLink (block : Ref) : MediumHeap := h.setLinks (LinkRing.removeLink h.next h.prev block)
def insertAfter (block after : Ref) : MediumHeap := h.setLinks (LinkRing.insertAfter h.next h.prev block after)
def insertBefore (block before : Ref) : MediumHeap := h.setLinks (LinkRing.insertBefore h.next h.prev block before)

def setFreeLinks (links : (Ref → Ref) × (Ref → Ref)) : MediumHeap := { h with nextFree := links.1, prevFree := links.2 }

/-- `dummy_block` has no free links. -/
def removeFreeLink (block : Ref) : Option MediumHeap :=
  if block = .dummyBlock then none else some (h.setFreeLinks (LinkRing.removeLink h.nextFree h.prevFree block))

def insertBeforeFreeLink (block before : Ref) : MediumHeap :=
  h.setFreeLinks (LinkRing.insertBefore h.nextFree h.prevFree block before)

def setSize (block : Ref) (size : Nat) : MediumHeap := { h with size := Function.update h.size block size }
def setIsFree (block : Ref) (isFree : Bool) : MediumHeap := { h with isFree := Function.update h.isFree block isFree }
def setPage (block : Ref) (page : Nat) : MediumHeap := { h with page := Function.update h.page block page }

/-- A bound on the number of blocks, for the loops along the free list. -/
def fuel : Nat := h.pages.length * c.pageSize + 1

/-- Five whole pages in a row at a block of the free list that was just put before `cur`, of which `cur` has one block. -/
def surplus (block cur : Ref) : Bool :=
  h.size block == c.pageSize && h.size cur == c.pageSize && h.size (h.nextFree cur) == c.pageSize &&
    h.size (h.nextFree (h.nextFree cur)) == c.pageSize && h.size (h.nextFree (h.nextFree (h.nextFree cur))) == c.pageSize &&
    h.page cur != h.page (h.next cur) && h.page cur != h.page (h.prev cur)

/-- `STD_FREE` of a page: only what the system gave. -/
def stdFree (block : Ref) : Option MediumHeap :=
  match block with
  | .at addr => if addr ∈ h.pages then some { h with pages := h.pages.erase addr } else none
  | _ => none

/-- What `FREE_FREEPAGES` adds: a whole page too many goes back to the system. -/
def releaseSurplus (block cur : Ref) : Option MediumHeap :=
  if h.surplus c block cur then
    match h.removeFreeLink cur with
    | none => none
    | some h => (h.removeLink cur).stdFree cur
  else some h

/-- The loop of `insertFreeBlock` from `cur`. -/
def insertFreeBlockFrom (block : Ref) : Nat → Ref → Option MediumHeap
  | 0, _ => none
  | fuel + 1, cur =>
    if h.size cur ≤ h.size block then (h.insertBeforeFreeLink block cur).releaseSurplus c block cur
    else insertFreeBlockFrom block fuel (h.nextFree cur)

def insertFreeBlock (block : Ref) : Option MediumHeap := h.insertFreeBlockFrom c block (h.fuel c) (h.nextFree .dummyFree)

/-- A free block that loses its end goes to its place in the free list. -/
def shrinkFree (block : Ref) (rest : Nat) : Option MediumHeap :=
  let h := h.setSize block rest
  if rest < h.size (h.nextFree block) then
    match h.removeFreeLink block with
    | none => none
    | some h => h.insertFreeBlock c block
  else some h

/-- The last block along the free list that is large enough. -/
def findBestFreeBlock (size : Nat) : Nat → Ref → Option Ref
  | 0, _ => none
  | fuel + 1, block =>
    let next := h.nextFree block
    if size ≤ h.size next then findBestFreeBlock size fuel next else some block

def newPage (addr : Nat) : MediumHeap :=
  let block := Ref.at addr
  let h := { h with nextPage := (h.nextPage + 1) % 65536, pages := addr :: h.pages, taken := h.taken + 1,
                    page := Function.update h.page block h.nextPage }
  let h := (h.setSize block c.pageSize).setIsFree block true
  let h := h.insertBefore block (h.next .dummyBlock)
  h.insertBeforeFreeLink block (h.nextFree .dummyFree)

theorem newPage_size_of_ne {addr : Nat} {r : Ref} (hr : r ≠ .at addr) : (h.newPage c addr).size r = h.size r :=
  show Function.update h.size (.at addr) c.pageSize r = h.size r from Function.update_of_ne hr ..

theorem newPage_page_of_ne {addr : Nat} {r : Ref} (hr : r ≠ .at addr) : (h.newPage c addr).page r = h.page r :=
  show Function.update h.page (.at addr) h.nextPage r = h.page r from Function.update_of_ne hr ..

theorem newPage_isFree_of_ne {addr : Nat} {r : Ref} (hr : r ≠ .at addr) : (h.newPage c addr).isFree r = h.isFree r :=
  show Function.update h.isFree (.at addr) true r = h.isFree r from Function.update_of_ne hr ..

/-- The second half of `allocMedium`: `size` bytes of a free block. -/
def takeFrom (block : Ref) (size : Nat) : Option (MediumHeap × Answer) :=
  match block with
  | .at addr =>
    let rest := h.size block - size
    if rest < c.maxSmallSize ∧ (rest < c.maxSmallSize / 2 ∨ h.page (h.next block) ≠ h.page block) then
      match h.removeFreeLink block with
      | none => none
      | some h => some (h.setIsFree block false, .medium addr)
    else
      match h.shrinkFree c block rest with
      | none => none
      | some h =>
        let newBlock := Ref.at (addr + rest)
        let h := (h.setPage newBlock (h.page block)).setSize newBlock size
        let h := h.insertAfter newBlock block
        some (h.setIsFree newBlock false, .medium (addr + rest))
  | _ => none

/-- `allocLarge`: memory of its own. -/
def allocLarge (system : Option Nat) : MediumHeap × Answer :=
  match system with
  | none => (h, .null)
  | some block => (h, .large block)

/-- `allocMedium`, with what the system answers when it is asked for memory. -/
def allocMedium (size : Nat) (system : Option Nat) : Option (MediumHeap × Answer) :=
  let size := c.blockSize size
  let block := h.nextFree .dummyFree
  if h.size block < size then
    if c.pageSize / 2 < size then some (h.allocLarge system)
    else
      match system with
      | none => some (h, .null)
      | some page => (h.newPage c page).takeFrom c (.at page) size
  else
    match h.findBestFreeBlock size (h.fuel c) block with
    | none => none
    | some block => h.takeFrom c block size

/-- `freeMedium`: the block joins the one before it. -/
def joinPrev (block : Ref) : Option (MediumHeap × Ref) :=
  let prev := h.prev block
  if h.isFree prev ∧ h.page prev = h.page block then
    let h := h.setSize prev (h.size prev + h.size block)
    match h.removeFreeLink prev with
    | none => none
    | some h => some (h.removeLink block, prev)
  else some (h, block)

/-- `freeMedium`: the one behind joins the block. -/
def joinNext (block : Ref) : Option MediumHeap :=
  let next := h.next block
  if h.isFree next ∧ h.page next = h.page block then
    let h := h.setSize block (h.size block + h.size next)
    match h.removeFreeLink next with
    | none => none
    | some h => some (h.removeLink next)
  else some h

/-- `freeMedium` of a block in use. -/
def freeMedium (block : Nat) : Option MediumHeap :=
  if h.isFree (.at block) then none
  else
    match h.joinPrev (.at block) with
    | none => none
    | some (h, block) =>
      match h.joinNext block with
      | none => none
      | some h => (h.setIsFree block true).insertFreeBlock c block

/-- `malloc`; `size & ~medium_size_mask` tells half a page, a power of two, from less. -/
def malloc (size : Nat) (system : Option Nat) : Option (MediumHeap × Answer) :=
  if size = 0 then some (h, .null)
  else if size < c.maxSmallSize then some (h, .small)
  else if size < c.pageSize / 2 then h.allocMedium c size system
  else some (h.allocLarge system)

end MediumHeap
end Heap
end ObjectScript
