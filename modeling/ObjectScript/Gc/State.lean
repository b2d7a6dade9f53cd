import ObjectScript.Lib.Links
import ObjectScript.Lib.Marking
import ObjectScript.Lib.Tally
import ObjectScript.Core.Value
/-!
# The collected heap

What the collector sees of a core: the values with the slots they own, the locals and programs that are counted beside
them, the stack, the call frames and the roots.  A value is known by its `value_id`; ids are handed out once, so a
pointer to a freed value is one whose id no longer has a value.  Reading or counting such a value has no result.

A counter is kept for each `Obj`: the `ref_count` of a value, of locals and of a program, and the
`external_ref_count` of a value.  The counters and the marks are maps beside the contents, so that what an operation
leaves alone is visible in its definition.
-/
namespace ObjectScript
namespace Gc

open Links
open ObjectScript.Core (Ref)

/-- The pointer of a `Value`; nothing when the value is null, a boolean or a number (`getGCValue`). -/
abbrev Slot := Option Ref

abbrev LocalsRef := Nat

abbrev ProgramRef := Nat

inductive Obj where
  | value (r : Ref)
  | external (r : Ref)
  | locals (l : LocalsRef)
  | program (p : ProgramRef)
deriving DecidableEq, Repr

/-- What a value has by its type.  `null` is a cleared value; the destructor of userdata gives back the strings its
C++ object holds. -/
inductive Payload where
  | null
  | string
  | object
  | userdata (strings : List Ref)
  | array (values : List Slot)
  | function (prog : ProgramRef) (upvalue : List Bool) (env self : Slot) (locals : Option LocalsRef)
  | cfunction (closureValues : List Slot)
deriving DecidableEq, Repr

structure GCValue where
  prototype : Slot
  name : Slot
  /-- Index and value of the properties, in insertion order. -/
  table : List (Slot × Slot)
  payload : Payload
deriving DecidableEq, Repr

inductive LocalValues where
  /-- In the stack from this position on (`is_stack_locals`). -/
  | stack (pos : Nat)
  | heap (values : List Slot)
  | none
deriving DecidableEq, Repr

structure Locals where
  prog : ProgramRef
  /-- `func_decl->locals[i].upvalue` -/
  upvalue : List Bool
  values : LocalValues
  parents : List LocalsRef
deriving DecidableEq, Repr

structure StackFunction where
  func : Ref
  locals : LocalsRef
  arguments : Slot
  restArguments : Slot
  selfForProto : Slot
  subFuncs : List Slot
deriving DecidableEq, Repr

inductive Prototype where
  | bool | number | string | object | array | function | userdata
deriving DecidableEq, Repr

inductive Root where
  | globalVars | userPool | retainPool | checkGetRecursion | checkSetRecursion | checkValueofRecursion
  | prototype (p : Prototype)
  | terminatedException
deriving DecidableEq, Repr

def Root.all : List Root :=
  [.globalVars, .userPool, .retainPool, .checkGetRecursion, .checkSetRecursion, .checkValueofRecursion,
    .prototype .bool, .prototype .number, .prototype .string, .prototype .object, .prototype .array,
    .prototype .function, .prototype .userdata, .terminatedException]

/-! ## What is owned -/

def holding (v : Slot) : List Obj := v.toList.map .value

def holdingAll (vs : List Slot) : List Obj := vs.flatMap holding

/-- A table gives back its properties from the last to the first. -/
def tableHeld (table : List (Slot × Slot)) : List Obj := table.reverse.flatMap fun p => holding p.1 ++ holding p.2

/-- The references of a value, in the order `clearValue` gives them back. -/
def GCValue.held (g : GCValue) : List Obj :=
  match g.payload with
  | .function prog _ env self locals =>
    locals.toList.map .locals ++ holding env ++ holding self ++ holding g.name ++ holding g.prototype ++ [.program prog] ++
      tableHeld g.table
  | .userdata strings => strings.map .external ++ tableHeld g.table ++ holding g.name ++ holding g.prototype
  | .array values => holdingAll values ++ tableHeld g.table ++ holding g.name ++ holding g.prototype
  | .cfunction values => holdingAll values ++ tableHeld g.table ++ holding g.name ++ holding g.prototype
  | _ => tableHeld g.table ++ holding g.name ++ holding g.prototype

/-- A value after `clearValue`. -/
def GCValue.cleared : GCValue := { prototype := none, name := none, table := [], payload := .null }

def Locals.heapValues (l : Locals) : List Slot :=
  match l.values with
  | .heap values => values
  | _ => []

/-- Only the first parent is counted: it keeps the others. -/
def Locals.held (l : Locals) : List Obj :=
  .program l.prog :: (l.parents.head?.toList.map .locals ++ holdingAll l.heapValues)

def StackFunction.held (f : StackFunction) : List Obj :=
  .locals f.locals :: (holding f.arguments ++ holding f.restArguments ++ holding f.selfForProto ++ holdingAll f.subFuncs)

/-! ## States -/

structure FreeCandidateValues where
  heads : Option (List (Option Ref))
  headMask : Nat
  count : Nat
  /-- `hash_next_free_candidate` -/
  hashNext : LinkField Ref

/-- The table of all values; nothing reads its chains out of order, so they are lists. -/
structure Values where
  chains : List (List Ref)
  headMask : Nat
  count : Nat
  nextId : Nat
deriving DecidableEq, Repr

structure State where
  value : Ref → Option GCValue
  locals : LocalsRef → Option Locals
  /-- The strings among the constants of a program. -/
  program : ProgramRef → Option (List Ref)
  refCount : Obj → Int
  gcStep : Obj → Nat
  values : Values
  candidates : FreeCandidateValues
  nextLocals : Nat
  nextProgram : Nat
  numCreatedValues : Nat
  gcStepType : Nat
  gcFixInProgress : Bool
  stack : List Slot
  callStack : List StackFunction
  root : Root → Slot
  /-- Strings and programs that host code holds. -/
  host : List Obj

namespace State

def holds (s : State) : Obj → List Obj
  | .value r => (s.value r).elim [] GCValue.held
  | .external _ => []
  | .locals l => (s.locals l).elim [] Locals.held
  | .program p => (s.program p).elim [] fun strings => strings.map .external

def objects (s : State) : List Obj :=
  (List.range s.values.nextId).map .value ++ (List.range s.nextLocals).map .locals ++
    (List.range s.nextProgram).map .program

/-- The references held from outside the heap.  Stack slots are not counted. -/
def outside (s : State) : List Obj :=
  Root.all.flatMap (fun i => holding (s.root i)) ++ s.callStack.flatMap StackFunction.held ++ s.host

/-- **How many owning references there are to `o`.** -/
def owned (s : State) (o : Obj) : Nat := Tally.tally s.objects s.holds o + s.outside.count o

def Live (s : State) : Obj → Prop
  | .value r => (s.value r).isSome
  | .external r => (s.value r).isSome
  | .locals l => (s.locals l).isSome
  | .program p => (s.program p).isSome

instance (s : State) : DecidablePred s.Live := fun o => by cases o <;> unfold Live <;> infer_instance

def decr (s : State) (o : Obj) : State := { s with refCount := Function.update s.refCount o (s.refCount o - 1) }

def incr (s : State) (o : Obj) : State := { s with refCount := Function.update s.refCount o (s.refCount o + 1) }

def setValueAt (s : State) (r : Ref) (g : Option GCValue) : State := { s with value := Function.update s.value r g }

def setLocalsAt (s : State) (l : LocalsRef) (loc : Option Locals) : State :=
  { s with locals := Function.update s.locals l loc }

def setProgramAt (s : State) (p : ProgramRef) (strings : Option (List Ref)) : State :=
  { s with program := Function.update s.program p strings }

theorem live_value {s : State} {r : Ref} : s.Live (.value r) ↔ (s.value r).isSome := Iff.rfl

theorem live_external {s : State} {r : Ref} : s.Live (.external r) ↔ (s.value r).isSome := Iff.rfl

theorem live_locals {s : State} {l : LocalsRef} : s.Live (.locals l) ↔ (s.locals l).isSome := Iff.rfl

theorem live_program {s : State} {p : ProgramRef} : s.Live (.program p) ↔ (s.program p).isSome := Iff.rfl

end State

/-! ## The candidates -/

namespace FreeCandidateValues

def new : FreeCandidateValues := { heads := none, headMask := 0, count := 0, hashNext := fun _ => none }

def get (c : FreeCandidateValues) (valueId : Ref) : Option (Option Ref) :=
  match c.heads with
  | none => some none
  | some heads => do
    let head ← heads[valueId &&& c.headMask]?
    let found ← walk c.hashNext (fun candidate => some (candidate == valueId)) (c.count + 1) none head
    return found.2

/-- One chain of the old buckets goes into the new ones. -/
def rehashChain (headMask : Nat) : Nat → List (Option Ref) × LinkField Ref → Option Ref →
    Option (List (Option Ref) × LinkField Ref)
  | 0, _, _ => none
  | _ + 1, st, none => some st
  | n + 1, (heads, hashNext), some value => do
    let next := hashNext value
    let head ← heads[value &&& headMask]?
    rehashChain headMask n (heads.set (value &&& headMask) (some value), Function.update hashNext value head) next

def hashGrowShift : Nat := 0

def newSize (c : FreeCandidateValues) : Nat := if c.heads.isSome then (c.headMask + 1) * 2 else 32

def grow (c : FreeCandidateValues) : Option FreeCandidateValues :=
  if c.count >>> hashGrowShift ≥ c.headMask then do
    let newMask := c.newSize - 1
    let (heads, hashNext) ← (c.heads.getD []).foldlM (rehashChain newMask (c.count + 1))
      (List.replicate c.newSize none, c.hashNext)
    return { c with heads := some heads, headMask := newMask, hashNext := hashNext }
  else some c

/-- `value` goes in front of the chain of its slot. -/
def push (c : FreeCandidateValues) (value : Ref) : Option FreeCandidateValues := do
  let heads ← c.heads
  let head ← heads[value &&& c.headMask]?
  return { c with
    hashNext := Function.update c.hashNext value head
    heads := some (heads.set (value &&& c.headMask) (some value))
    count := c.count + 1 }

/-- A candidate leaves its chain: what is after it goes to the one before it, or to the head of the chain. -/
def unlink (c : FreeCandidateValues) (i : Nat) (prev : Option Ref) (candidate : Ref) : Option FreeCandidateValues :=
  match prev with
  | some prev =>
    some { c with
      hashNext := Function.update (Function.update c.hashNext prev (c.hashNext candidate)) candidate none
      count := c.count - 1 }
  | none => do
    let heads ← c.heads
    return { c with
      heads := some (heads.set i (c.hashNext candidate))
      hashNext := Function.update c.hashNext candidate none
      count := c.count - 1 }

/-- The part of `unregisterFreeCandidateValue` about the table. -/
def unregister (c : FreeCandidateValues) (value : Ref) : Option FreeCandidateValues := do
  let heads ← c.heads
  let head ← heads[value &&& c.headMask]?
  let (prev, candidate) ← walk c.hashNext (fun candidate => some (candidate == value)) (c.count + 1) none head
  match candidate with
  | none => return c
  | some candidate => c.unlink (value &&& c.headMask) prev candidate

end FreeCandidateValues

/-! ## The values -/

namespace Values

def new : Values := { chains := [], headMask := 0, count := 0, nextId := 1 }

def pushFront (headMask : Nat) (chains : List (List Ref)) (r : Ref) : List (List Ref) :=
  chains.modify (r &&& headMask) (r :: ·)

def newSize (t : Values) : Nat := if t.chains.isEmpty then 32 else (t.headMask + 1) * 2

def grow (t : Values) : Values :=
  if t.count >>> FreeCandidateValues.hashGrowShift ≥ t.headMask then
    { t with
      chains := t.chains.flatten.foldl (pushFront (t.newSize - 1)) (List.replicate t.newSize [])
      headMask := t.newSize - 1 }
  else t

/-- The part of `registerValueAndPush` about the table: the value gets the next id. -/
def register (t : Values) : Values :=
  let t' := t.grow
  { t' with chains := pushFront t'.headMask t'.chains t.nextId, count := t.count + 1, nextId := t.nextId + 1 }

/-- `unregisterValue`: the value leaves its chain. -/
def unregister (t : Values) (r : Ref) : Values := { t with chains := t.chains.map (·.erase r), count := t.count - 1 }

/-- The values as the chains give them, slot after slot. -/
def order (t : Values) : List Ref := t.chains.flatten

end Values

/-! ## Counting -/

namespace State

variable (s : State)

def registerFreeCandidateValue (r : Ref) : Option State := do
  let c ← s.candidates.grow
  let c ← c.push r
  return { s with candidates := c, gcStep := Function.update s.gcStep (.value r) s.gcStepType }

def addFreeCandidateValue (r : Ref) : Option State := do
  match ← s.candidates.get r with
  | none => s.registerFreeCandidateValue r
  | some _ => return s

def retainValue (r : Ref) : Option State :=
  if (s.value r).isSome then some (s.incr (.value r)) else none

/-- While a sweep is in progress, a value that was not marked is not counted down. -/
def skips (r : Ref) : Bool := s.gcFixInProgress && s.gcStep (.value r) != s.gcStepType

def releaseValue (r : Ref) : Option State :=
  if (s.value r).isSome then
    if s.skips r then some s
    else if (s.decr (.value r)).refCount (.value r) = 0 then (s.decr (.value r)).addFreeCandidateValue r
    else some (s.decr (.value r))
  else none

/-- `~String` -/
def releaseExternal (r : Ref) : Option State :=
  if (s.value r).isSome then
    if (s.decr (.external r)).refCount (.external r) = 0 ∧ s.refCount (.value r) = 0 then
      (s.decr (.external r)).addFreeCandidateValue r
    else some (s.decr (.external r))
  else none

/-- `Program::release` -/
def releaseProgram (p : ProgramRef) : Option State := do
  let strings ← s.program p
  let s := s.decr (.program p)
  if 0 < s.refCount (.program p) then return s
  else strings.foldlM releaseExternal (s.setProgramAt p none)

def releaseSlot (v : Slot) : Option State :=
  match v with
  | none => some s
  | some r => s.releaseValue r

end State

/-- `releaseLocals`, with `deleteLocals` when nothing holds the locals any more.  What a release does does not depend on
the slots of the locals, so these are freed first.  `n` bounds the number of parents. -/
def State.releaseLocals : Nat → State → LocalsRef → Option State
  | 0, _, _ => none
  | n + 1, s, l => do
    let loc ← s.locals l
    let s := s.decr (.locals l)
    if 0 < s.refCount (.locals l) then return s
    else do
      let s ← (s.setLocalsAt l none).releaseProgram loc.prog
      let s ← match loc.parents with
        | [] => some s
        | p :: _ => releaseLocals n s p
      loc.heapValues.foldlM State.releaseSlot s

namespace State

def depth (s : State) (l : LocalsRef) : Nat := (s.locals l).elim 0 fun loc => loc.parents.length

def release (s : State) : Obj → Option State
  | .value r => s.releaseValue r
  | .external r => s.releaseExternal r
  | .locals l => s.releaseLocals (s.depth l + 1) l
  | .program p => s.releaseProgram p

def retain (s : State) (o : Obj) : Option State := if s.Live o then some (s.incr o) else none

/-- `clearValue`.  What a release does does not depend on the slots of the value, so these are taken out first. -/
def clearValue (s : State) (r : Ref) : Option State := do
  let g ← s.value r
  g.held.foldlM release (s.setValueAt r (some .cleared))

/-- `unregisterValue` and `deleteValue`. -/
def deleteValue (s : State) (r : Ref) : State := { s.setValueAt r none with values := s.values.unregister r }

end State

end Gc
end ObjectScript
