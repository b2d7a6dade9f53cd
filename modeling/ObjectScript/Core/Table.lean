import ObjectScript.Lib.Links
import ObjectScript.Core.Value
import ObjectScript.Core.Qsort
/-!
# Tables

A `Table` keeps its properties twice: in a doubly linked list (`prev`, `next`) from `first` to `last`, and in hash
chains (`hash_next`) from the buckets `heads`, which are not there before the first property is added.  The properties
are cells of a memory: a pointer field has a value for every address, and `prop` tells which addresses are allocated
and holds their `index` and `value`.  An operation has no result when it reads a property that is not allocated,
follows a null pointer or reads a bucket array that is not there.

Reference counting, which these operations also do, has no influence on the tables and is left out.
-/
namespace ObjectScript
namespace Core

open Links

variable {N : Type}

/-- The properties allocated, and the next address to be handed out. -/
structure Memory (N : Type) where
  prop : Ref → Option (Value N × Value N)
  hashNext : LinkField Ref
  prev : LinkField Ref
  next : LinkField Ref
  fresh : Ref

def content (m : Memory N) (c : Ref) : Value N × Value N := (m.prop c).getD (.null, .null)

structure IteratorState where
  prop : Option Ref
  ascending : Bool
deriving DecidableEq, Repr

structure Table where
  heads : Option (List (Option Ref))
  headMask : Nat
  count : Nat
  nextIndex : Int
  first : Option Ref
  last : Option Ref
  iterators : List IteratorState
deriving DecidableEq, Repr

namespace Table

def new : Table :=
  { heads := none, headMask := 0, count := 0, nextIndex := 0, first := none, last := none, iterators := [] }

end Table

namespace Memory

def empty : Memory N :=
  { prop := fun _ => none, hashNext := fun _ => none, prev := fun _ => none, next := fun _ => none, fresh := 0 }

/-- `r->next = v` -/
def setNext (m : Memory N) (r : Ref) (v : Option Ref) : Option (Memory N) :=
  if (m.prop r).isSome then some { m with next := Function.update m.next r v } else none

/-- `r->prev = v` -/
def setPrev (m : Memory N) (r : Ref) (v : Option Ref) : Option (Memory N) :=
  if (m.prop r).isSome then some { m with prev := Function.update m.prev r v } else none

/-- `r->hash_next = v` -/
def setHashNext (m : Memory N) (r : Ref) (v : Option Ref) : Option (Memory N) :=
  if (m.prop r).isSome then some { m with hashNext := Function.update m.hashNext r v } else none

/-- `r->index = index`, or `r->value = value`. -/
def setProp (m : Memory N) (r : Ref) (f : Value N × Value N → Value N × Value N) : Option (Memory N) :=
  (m.prop r).map fun p => { m with prop := Function.update m.prop r (some (f p)) }

/-- `new Property(index, value)` -/
def newProperty (m : Memory N) (index value : Value N) : Memory N × Ref :=
  ({ prop := Function.update m.prop m.fresh (some (index, value))
     hashNext := Function.update m.hashNext m.fresh none
     prev := Function.update m.prev m.fresh none
     next := Function.update m.next m.fresh none
     fresh := m.fresh + 1 }, m.fresh)

def freeProperty (m : Memory N) (r : Ref) : Option (Memory N) :=
  if (m.prop r).isSome then
    some { prop := Function.update m.prop r none
           hashNext := Function.update m.hashNext r none
           prev := Function.update m.prev r none
           next := Function.update m.next r none
           fresh := m.fresh }
  else none

end Memory

section Model

variable [Number N] [ValueHash N]

open ValueHash Memory

/-- `getValueHash(index, type) & head_mask` -/
def slot (headMask : Nat) (index : Value N) : Nat := getValueHash index &&& headMask

/-- `OS_EQUAL_EXACTLY_BY_SAVED_TYPE(type, index, cur->index)` -/
def sameIndex (m : Memory N) (index : Value N) (cur : Ref) : Option Bool :=
  (m.prop cur).map fun p => index.equalExactly p.1

def get (m : Memory N) (table : Table) (index : Value N) : Option (Option Ref) :=
  match table.heads with
  | none => some none
  | some heads => do
    let head ← heads[slot table.headMask index]?
    let found ← walk m.hashNext (sameIndex m index) (m.fresh + 1) none head
    return found.2

/-- The loop of `addTableProperty` that puts every property into the new buckets. -/
def rehash (headMask : Nat) : Nat → Memory N → List (Option Ref) → Option Ref →
    Option (Memory N × List (Option Ref))
  | 0, _, _, _ => none
  | _ + 1, m, heads, none => some (m, heads)
  | n + 1, m, heads, some cur => do
    let p ← m.prop cur
    let head ← heads[slot headMask p.1]?
    let m ← m.setHashNext cur head
    rehash headMask n m (heads.set (slot headMask p.1) (some cur)) (m.next cur)

def hashGrowShift : Nat := 0

def newSize (table : Table) : Nat := if table.heads.isSome then (table.headMask + 1) * 2 else 4

/-- The buckets are doubled, or allocated, when there are as many properties. -/
def growHeads (m : Memory N) (table : Table) : Option (Memory N × Table) :=
  if table.count >>> hashGrowShift ≥ table.headMask then do
    let (m, heads) ← rehash (newSize table - 1) (m.fresh + 1) m (List.replicate (newSize table) none) table.first
    return (m, { table with heads := some heads, headMask := newSize table - 1 })
  else some (m, table)

/-- `next_index` when a property with this index is put in. -/
def bumpNextIndex (nextIndex : Int) : Value N → Int
  | .number x => if Number.lessEqual (Number.ofInt nextIndex) x then Number.toInt x + 1 else nextIndex
  | _ => nextIndex

/-- A new property goes to the end of the list. -/
def linkLast (m : Memory N) (table : Table) (prop : Ref) : Option (Memory N × Table) :=
  match table.first with
  | none => some (m, { table with first := some prop })
  | some _ => do
    let last ← table.last
    let m ← m.setNext last (some prop)
    let m ← m.setPrev prop (some last)
    return (m, table)

def addTableProperty (m : Memory N) (table : Table) (index value : Value N) : Option (Memory N × Table × Ref) := do
  let (m, prop) := m.newProperty index value
  let (m, table) ← growHeads m table
  let heads ← table.heads
  let head ← heads[slot table.headMask index]?
  let m ← m.setHashNext prop head
  let table := { table with heads := some (heads.set (slot table.headMask index) (some prop)) }
  let (m, table) ← linkLast m table prop
  return (m, { table with
    last := some prop
    nextIndex := bumpNextIndex table.nextIndex index
    count := table.count + 1 }, prop)

def setTableValue (m : Memory N) (table : Table) (index value : Value N) : Option (Memory N × Table × Ref) := do
  match ← get m table index with
  | some prop => do
    let m ← m.setProp prop fun p => (p.1, value)
    return (m, table, prop)
  | none => addTableProperty m table index value

/-- `cur` leaves the list: what was before it, `first` or a property, skips it. -/
def unlinkBefore (m : Memory N) (table : Table) (cur : Ref) : Option (Memory N × Table) :=
  if table.first = some cur then
    match m.next cur with
    | none => some (m, { table with first := none })
    | some first => do
      let m ← m.setPrev first none
      return (m, { table with first := some first })
  else do
    let prev ← m.prev cur
    let m ← m.setNext prev (m.next cur)
    return (m, table)

def unlinkAfter (m : Memory N) (table : Table) (cur : Ref) : Option (Memory N × Table) :=
  if table.last = some cur then
    match m.prev cur with
    | none => some (m, { table with last := none })
    | some last => do
      let m ← m.setNext last none
      return (m, { table with last := some last })
  else do
    let next ← m.next cur
    let m ← m.setPrev next (m.prev cur)
    return (m, table)

/-- `cur` leaves the chain of the slot `i`. -/
def unlinkChain (m : Memory N) (table : Table) (i : Nat) (chainPrev : Option Ref) (cur : Ref) :
    Option (Memory N × Table) :=
  match chainPrev with
  | some chainPrev => do
    let m ← m.setHashNext chainPrev (m.hashNext cur)
    return (m, table)
  | none => do
    let heads ← table.heads
    return (m, { table with heads := some (heads.set i (m.hashNext cur)) })

/-- An iterator at `cur` goes on to the property it would have met next. -/
def skipProperty (m : Memory N) (cur : Ref) (iter : IteratorState) : IteratorState :=
  if iter.prop = some cur then { iter with prop := if iter.ascending then m.next cur else m.prev cur } else iter

/-- `deleteTableProperty`: the buckets are read whether they are there or not. -/
def deleteTableProperty (m : Memory N) (table : Table) (index : Value N) : Option (Memory N × Table × Bool) := do
  let heads ← table.heads
  let head ← heads[slot table.headMask index]?
  let (chainPrev, cur) ← walk m.hashNext (sameIndex m index) (m.fresh + 1) none head
  match cur with
  | none => return (m, table, false)
  | some cur => do
    let (m, table) ← unlinkBefore m table cur
    let (m, table) ← unlinkAfter m table cur
    let (m, table) ← unlinkChain m table (slot table.headMask index) chainPrev cur
    let iterators := table.iterators.map (skipProperty m cur)
    let m ← m.freeProperty cur
    return (m, { table with iterators := iterators, count := table.count - 1 }, true)

/-- The loop of `clearTable`, from the last property to the first. -/
def freeProperties : Nat → Memory N → Option Ref → Option (Memory N)
  | 0, _, _ => none
  | _ + 1, m, none => some m
  | n + 1, m, some prop => do
    let prev := m.prev prop
    let m ← m.freeProperty prop
    freeProperties n m prev

def clearTable (m : Memory N) (table : Table) : Option (Memory N × Table) := do
  let m ← freeProperties (m.fresh + 1) m table.last
  return (m, Table.new)

/-- `copyTableProperties`, from a property of the source on. -/
def copyFrom : Nat → Memory N → Table → Option Ref → Option (Memory N × Table)
  | 0, _, _, _ => none
  | _ + 1, m, dst, none => some (m, dst)
  | n + 1, m, dst, some prop => do
    let p ← m.prop prop
    let (m, dst, _) ← setTableValue m dst p.1 p.2
    copyFrom n m dst (m.next prop)

def copyTableProperties (m : Memory N) (dst src : Table) : Option (Memory N × Table) :=
  copyFrom (m.fresh + 1) m dst src.first

/-! ## sortTable -/

/-- The properties of a table, from one of them on. -/
def collectProps (m : Memory N) : Nat → Option Ref → Option (List Ref)
  | 0, _ => none
  | _ + 1, none => some []
  | n + 1, some cur => do
    let _ ← m.prop cur
    let props ← collectProps m n (m.next cur)
    return cur :: props

/-- The list is linked again in the order of `props`: from `prop` on, with the last one. -/
def relink : Memory N → Ref → List Ref → Option (Memory N × Ref)
  | m, prop, [] => do
    let m ← m.setNext prop none
    return (m, prop)
  | m, prop, cur :: props => do
    let m ← m.setNext prop (some cur)
    let m ← m.setPrev cur (some prop)
    relink m cur props

/-- The properties get the indexes from `i` on, and new chains. -/
def reorderKeys (headMask : Nat) : Memory N → List (Option Ref) → Nat → List Ref →
    Option (Memory N × List (Option Ref))
  | m, heads, _, [] => some (m, heads)
  | m, heads, i, cur :: props => do
    let index : Value N := .number (Number.ofInt i)
    let m ← m.setProp cur fun p => (index, p.2)
    let head ← heads[slot headMask index]?
    let m ← m.setHashNext cur head
    reorderKeys headMask m (heads.set (slot headMask index) (some cur)) (i + 1) props

def sortTable {σ : Type} (m : Memory N) (table : Table) (comp : Comparator σ (Value N × Value N)) (s : σ)
    (reorder : Bool) : Option (Memory N × Table × σ) :=
  if table.count > 1 then do
    let props ← collectProps m (table.count + 1) table.first
    -- the comparator sees index and value of two properties
    let (props, s) ← qsort (comparing (content m) comp) s props
    match props with
    | [] => none
    | prop :: rest => do
      let m ← m.setPrev prop none
      let (m, last) ← relink m prop rest
      let table := { table with first := some prop, last := some last }
      if reorder then do
        let heads ← table.heads
        let (m, heads) ← reorderKeys table.headMask m (heads.map fun _ => none) 0 (prop :: rest)
        return (m, { table with heads := some heads, nextIndex := table.count }, s)
      else return (m, table, s)
  else some (m, table, s)

end Model

end Core
end ObjectScript
