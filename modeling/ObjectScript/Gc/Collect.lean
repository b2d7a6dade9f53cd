import ObjectScript.Gc.State
/-!
# gcFreeCandidateValues

A collection first walks the candidates, values whose count went down to zero at some time, and frees those that are
neither counted nor on the stack.  When it is full, or too many bytes are in use, it then marks from the roots and
sweeps the table of all values.  How many bytes are in use is up to the allocator, so it is an argument here.

The candidate loop takes the function that unlinks a candidate as a parameter.  The code's is `unlink`.  `unlinkHead`
asks whether a candidate without a predecessor still is the head of its chain, and `unlinkIdle` whether one that is to be
freed is a function that runs: the loop asks neither.
-/
namespace ObjectScript
namespace Gc

open Links Marking
open ObjectScript.Core (Ref)

abbrev Unlink := State → Nat → Option Ref → Ref → Option FreeCandidateValues

/-- What `mark` goes on to from a value, in its order. -/
def GCValue.fields (g : GCValue) : List Obj :=
  holding g.prototype ++ holding g.name ++ g.table.flatMap (fun p => holding p.1 ++ holding p.2) ++
    match g.payload with
    | .array values => holdingAll values
    | .function _ _ env self locals => holding env ++ holding self ++ locals.toList.map .locals
    | .cfunction values => holdingAll values
    | _ => []

def Locals.fields (l : Locals) : List Obj := holdingAll l.heapValues ++ l.parents.map .locals

def StackFunction.fields (f : StackFunction) : List Obj :=
  .value f.func :: (holding f.selfForProto ++ holding f.arguments ++ holding f.restArguments ++ [.locals f.locals] ++
    holdingAll f.subFuncs)

namespace State

def unlink : Unlink := fun s i prev candidate => s.candidates.unlink i prev candidate

/-- A candidate without a predecessor is unlinked only from the head of its chain. -/
def unlinkHead : Unlink := fun s i prev candidate =>
  if prev = none ∧ (s.candidates.heads.getD [])[i]? ≠ some (some candidate) then none else s.unlink i prev candidate

/-- A candidate that is not counted, and so is to be freed, is unlinked only if no call runs it. -/
def unlinkIdle : Unlink := fun s i prev candidate =>
  if (s.refCount (.value candidate) = 0 ∧ s.refCount (.external candidate) = 0) ∧ s.callStack.any (·.func == candidate) then none
  else s.unlink i prev candidate

/-- The candidates on the stack get the mark of this collection. -/
def markStackCandidate (s : State) (v : Slot) : Option State :=
  match v with
  | none => some s
  | some r =>
    if (s.value r).isSome then do
      match ← s.candidates.get r with
      | none => return s
      | some candidate => return { s with gcStep := Function.update s.gcStep (.value candidate) s.gcStepType }
    else none

/-- The candidate loop along one chain; a bucket array that has grown ends it. -/
def candidateChain (unlink : Unlink) (i : Nat) : Nat → State → Option Ref → Option Ref → Option State
  | 0, _, _, _ => none
  | _ + 1, s, _, none => some s
  | n + 1, s, prev, some candidate => do
    let next := s.candidates.hashNext candidate
    if s.refCount (.value candidate) ≠ 0 ∨ s.refCount (.external candidate) ≠ 0 then do
      let c ← unlink s i prev candidate
      candidateChain unlink i n { s with candidates := c } prev next
    else if s.gcStep (.value candidate) = s.gcStepType then candidateChain unlink i n s (some candidate) next
    else do
      let headMask := s.candidates.headMask
      let c ← unlink s i prev candidate
      let s ← clearValue { s with candidates := c } candidate
      let s := s.deleteValue candidate
      if headMask ≠ s.candidates.headMask then return s else candidateChain unlink i n s prev next

/-- The chains from `i` on. -/
def candidateLoop (unlink : Unlink) : Nat → Nat → State → Option State
  | 0, _, _ => none
  | n + 1, i, s =>
    if i ≤ s.candidates.headMask then do
      let heads ← s.candidates.heads
      let head ← heads[i]?
      let s ← candidateChain unlink i (s.candidates.count + 1) s none head
      candidateLoop unlink n (i + 1) s
    else some s

def valueWeight (refCount : Obj → Int) (r : Ref) : Nat := (refCount (.value r)).toNat + (refCount (.external r)).toNat

/-- The references counted down at most in the candidate loop. -/
def weight (s : State) : Nat := ((List.range s.values.nextId).map (valueWeight s.refCount)).sum

/-- The bucket array has at most this many slots when the candidate loop ends. -/
def loopBound (s : State) : Nat := s.candidates.headMask + 2 * (s.candidates.count + s.weight) + 34

/-- The first part of `gcFreeCandidateValues`. -/
def freeCandidates (unlink : Unlink) (s : State) : Option State := do
  let s ← s.stack.foldlM markStackCandidate { s with gcStepType := s.gcStepType + 1 }
  s.candidateLoop unlink s.loopBound 0

/-! ## Marking -/

/-- What `mark` goes on to, from a value or from locals. -/
def fields (s : State) : Obj → Option (List Obj)
  | .value r => (s.value r).map GCValue.fields
  | .locals l => (s.locals l).map Locals.fields
  | _ => some []

def chainCells (hashNext : LinkField Ref) : Nat → Option Ref → Option (List Ref)
  | 0, _ => none
  | _ + 1, none => some []
  | n + 1, some candidate => do
    let cells ← chainCells hashNext n (hashNext candidate)
    return candidate :: cells

def candidateCells (s : State) : Option (List Ref) := do
  let heads ← s.candidates.heads
  let cells ← heads.mapM (chainCells s.candidates.hashNext (s.candidates.count + 1))
  return cells.flatten

/-- Where `mark` starts, in the order of the code, the candidates last. -/
def markRoots (s : State) (candidates : List Ref) : List Obj :=
  Root.all.flatMap (fun i => holding (s.root i)) ++ holdingAll s.stack ++ s.callStack.flatMap StackFunction.fields ++
    candidates.map .value

def markAll (s : State) (candidates : List Ref) : Option State := do
  let s := { s with gcStepType := s.gcStepType + 1 }
  let gcStep ← Marking.markAll s.fields s.gcStepType (s.objects.length + 1) s.gcStep (s.markRoots candidates)
  return { s with gcStep := gcStep }

/-! ## Sweeping -/

/-- One value of the sweep; a value that is not marked and has no external reference goes to the destroy list. -/
def sweepValue (st : State × List Ref) (value : Ref) : Option (State × List Ref) :=
  let (s, destroyList) := st
  if s.gcStep (.value value) = s.gcStepType then some (s, destroyList)
  else if 0 < s.refCount (.external value) then
    some ({ s with gcStep := Function.update s.gcStep (.value value) s.gcStepType }, destroyList)
  else do
    let s ← s.clearValue value
    return ({ s with values := s.values.unregister value }, value :: destroyList)

def destroyValue (s : State) (value : Ref) : Option State := do
  let c ← s.candidates.unregister value
  return { s with candidates := c }.setValueAt value none

def sweep (s : State) : Option State := do
  let (s, destroyList) ← s.values.order.foldlM sweepValue ({ s with gcFixInProgress := true }, [])
  let s ← destroyList.foldlM destroyValue s
  return { s with gcFixInProgress := false }

/-- The second part of `gcFreeCandidateValues`. -/
def markAndSweep (s : State) : Option State := do
  let candidates ← s.candidateCells
  let s ← s.markAll candidates
  s.sweep

/-- `gcFreeCandidateValues(full)`, where `limit` says that `used_bytes >= gc_next_when_used_bytes`. -/
def gcFreeCandidateValues (s : State) (full limit : Bool) : Option State :=
  if !full && (s.numCreatedValues + 1) &&& 255 != 0 then some s
  else do
    let s ← s.freeCandidates unlink
    if full || limit then s.markAndSweep else some s

end State

end Gc
end ObjectScript
