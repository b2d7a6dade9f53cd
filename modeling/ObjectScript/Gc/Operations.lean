import ObjectScript.Gc.Collect
/-!
# The operations of a core

What changes the collected heap between two collections: storing a value in a place (`setValue`), the property and
element operations, creating a value, entering and leaving a function, and the strings and programs that host code
holds.  Writing a stack slot counts nothing, so every change of the stack is one operation.

An operation has no result when it is not possible, in particular when it would count a value that is not there.
-/
namespace ObjectScript
namespace Gc

open ObjectScript.Core (Ref)

/-! ## Places -/

inductive ValueField where
  | prototype
  | name
  /-- The index of a property. -/
  | index (i : Nat)
  /-- The value of a property. -/
  | property (i : Nat)
  | element (i : Nat)
  | closureValue (i : Nat)
deriving DecidableEq, Repr

inductive FrameField where
  | arguments
  | restArguments
  | selfForProto
  | subFunc (i : Nat)
deriving DecidableEq, Repr

inductive Place where
  | root (i : Root)
  | value (r : Ref) (f : ValueField)
  /-- A local of a function that has returned. -/
  | upvalue (l : LocalsRef) (i : Nat)
  | frame (k : Nat) (f : FrameField)
deriving DecidableEq, Repr

def GCValue.get (g : GCValue) : ValueField → Option Slot
  | .prototype => some g.prototype
  | .name => some g.name
  | .index i => g.table[i]?.map Prod.fst
  | .property i => g.table[i]?.map Prod.snd
  | .element i =>
    match g.payload with
    | .array values => values[i]?
    | _ => none
  | .closureValue i =>
    match g.payload with
    | .cfunction values => values[i]?
    | _ => none

def GCValue.put (g : GCValue) (v : Slot) : ValueField → GCValue
  | .prototype => { g with prototype := v }
  | .name => { g with name := v }
  | .index i => { g with table := g.table.modify i fun p => (v, p.2) }
  | .property i => { g with table := g.table.modify i fun p => (p.1, v) }
  | .element i =>
    match g.payload with
    | .array values => { g with payload := .array (values.set i v) }
    | _ => g
  | .closureValue i =>
    match g.payload with
    | .cfunction values => { g with payload := .cfunction (values.set i v) }
    | _ => g

def StackFunction.get (f : StackFunction) : FrameField → Option Slot
  | .arguments => some f.arguments
  | .restArguments => some f.restArguments
  | .selfForProto => some f.selfForProto
  | .subFunc i => f.subFuncs[i]?

def StackFunction.put (f : StackFunction) (v : Slot) : FrameField → StackFunction
  | .arguments => { f with arguments := v }
  | .restArguments => { f with restArguments := v }
  | .selfForProto => { f with selfForProto := v }
  | .subFunc i => { f with subFuncs := f.subFuncs.set i v }

def Locals.put (l : Locals) (v : Slot) (i : Nat) : Locals := { l with values := .heap (l.heapValues.set i v) }

namespace State

variable (s : State)

def getPlace : Place → Option Slot
  | .root i => some (s.root i)
  | .value r f => do
    let g ← s.value r
    g.get f
  | .upvalue l i => do
    let loc ← s.locals l
    loc.heapValues[i]?
  | .frame k f => do
    let func ← s.callStack[k]?
    func.get f

def putPlace (v : Slot) : Place → State
  | .root i => { s with root := Function.update s.root i v }
  | .value r f => s.setValueAt r ((s.value r).map fun g => g.put v f)
  | .upvalue l i => s.setLocalsAt l ((s.locals l).map fun loc => loc.put v i)
  | .frame k f => { s with callStack := s.callStack.modify k fun func => func.put v f }

def retainSlot (v : Slot) : Option State :=
  match v with
  | none => some s
  | some r => s.retainValue r

/-- `setValue`.  What releasing does not depend on the place, so the old value is taken out first. -/
def setValue (place : Place) (b : Slot) : Option State := do
  let out ← s.getPlace place
  if out = b then return s
  else do
    let s ← (s.putPlace none place).releaseSlot out
    let s ← s.retainSlot b
    return s.putPlace b place

/-! ## Properties and elements -/

def setTable (r : Ref) (table : List (Slot × Slot)) : State :=
  s.setValueAt r ((s.value r).map fun g => { g with table := table })

def setElements (r : Ref) (values : List Slot) : State :=
  s.setValueAt r ((s.value r).map fun g => { g with payload := .array values })

def elements (r : Ref) : Option (List Slot) := do
  let g ← s.value r
  match g.payload with
  | .array values => some values
  | _ => none

def addTableProperty (r : Ref) (index value : Slot) : Option State := do
  let s ← s.retainSlot index
  let s ← s.retainSlot value
  let g ← s.value r
  return s.setTable r (g.table ++ [(index, value)])

def deleteTableProperty (r : Ref) (i : Nat) : Option State := do
  let g ← s.value r
  let prop ← g.table[i]?
  let s ← (s.setTable r (g.table.eraseIdx i)).releaseSlot prop.1
  s.releaseSlot prop.2

def clearTable (r : Ref) : Option State := do
  let g ← s.value r
  (tableHeld g.table).foldlM release (s.setTable r [])

/-- `sortTable`: the properties in another order. -/
def sortTable (r : Ref) (table : List (Slot × Slot)) : Option State := do
  let g ← s.value r
  if g.table.isPerm table then return s.setTable r table else none

/-- The elements of an array in another order (`sort`, `reverse`). -/
def sortElements (r : Ref) (values : List Slot) : Option State := do
  let old ← s.elements r
  if old.isPerm values then return s.setElements r values else none

/-- `retainValue` and `vectorInsertAtIndex`, or `vectorAddItem` at the end. -/
def insertElement (r : Ref) (i : Nat) (v : Slot) : Option State := do
  let s ← s.retainSlot v
  let values ← s.elements r
  if i ≤ values.length then return s.setElements r (values.insertIdx i v) else none

/-- `releaseValue` and `vectorRemoveAtIndex`. -/
def removeElement (r : Ref) (i : Nat) : Option State := do
  let values ← s.elements r
  let v ← values[i]?
  (s.setElements r (values.eraseIdx i)).releaseSlot v

/-! ## Creating values -/

/-- `registerValueAndPush`, with what the constructor before it has retained. -/
def registerValueAndPush (g : GCValue) : Option State := do
  let s ← g.held.foldlM retain s
  let r := s.values.nextId
  registerFreeCandidateValue { s.setValueAt r (some g) with
    refCount := Function.update (Function.update s.refCount (.value r) 0) (.external r) 0
    values := s.values.register
    stack := s.stack ++ [some r]
    numCreatedValues := s.numCreatedValues + 1 } r

/-! ## The stack and the calls -/

def liveSlot (v : Slot) : Bool := v.all fun r => (s.value r).isSome

/-- The stack as an instruction leaves it.  It need not keep the function that runs: local 0 of a call is its function,
and a script may write to it (`_F = x`). -/
def setStack (stack : List Slot) : Option State :=
  if stack.all s.liveSlot then some { s with stack := stack } else none

def parentsOf (locals : Option LocalsRef) : Option (List LocalsRef) :=
  match locals with
  | none => some []
  | some l => do
    let loc ← s.locals l
    return l :: loc.parents

/-- The frame that `callFT` makes for the function at `startPos`. -/
def enterFunction (startPos : Nat) (restArguments selfForProto : Slot) : Option State := do
  let func ← (← s.stack[startPos]?)
  let g ← s.value func
  match g.payload with
  | .function prog upvalue _ _ locals => do
    let s ← s.retainSlot restArguments
    let s ← s.retain (.program prog)
    let parents ← s.parentsOf locals
    let s ← (locals.toList.map Obj.locals).foldlM retain s
    let s ← s.retainSlot selfForProto
    let l := s.nextLocals
    let loc : Locals := { prog := prog, upvalue := upvalue, values := .stack startPos, parents := parents }
    let f : StackFunction := { func := func, locals := l, arguments := none, restArguments := restArguments,
                               selfForProto := selfForProto, subFuncs := [] }
    return { s.setLocalsAt l (some loc) with
      refCount := Function.update s.refCount (.locals l) 1
      nextLocals := l + 1
      callStack := s.callStack ++ [f] }
  | _ => none

/-- A place for the closure of one more sub function (`OP_NEW_FUNCTION`). -/
def addSubFunc (k : Nat) : State :=
  { s with callStack := s.callStack.modify k fun f => { f with subFuncs := f.subFuncs ++ [none] } }

/-- What locals at `pos` keep of the stack when other functions still refer to them. -/
def captured (stack : List Slot) (pos : Nat) (upvalue : List Bool) : List Slot :=
  upvalue.zipIdx.map fun p => if p.1 then (stack[pos + p.2]?).join else none

/-- The locals of a function that runs are on the stack. -/
def captureLocals (stack : List Slot) (l : LocalsRef) : Option State := do
  match s.locals l with
  | none => return s
  | some loc =>
    match loc.values with
    | .stack pos => do
      let values := captured stack pos loc.upvalue
      let s ← values.foldlM retainSlot s
      return s.setLocalsAt l (some { loc with values := if loc.upvalue.any id then .heap values else .none })
    | _ => none

/-- `clearStackFunction`, with the stack as the returning instruction has written it. -/
def clearStackFunction (stack : List Slot) (f : StackFunction) : Option State := do
  let s ← s.release (.locals f.locals)
  let s ← s.captureLocals stack f.locals
  let s ← s.releaseSlot f.arguments
  let s ← s.releaseSlot f.restArguments
  let s ← s.releaseSlot f.selfForProto
  f.subFuncs.foldlM releaseSlot s

/-- The last frame goes; `written` is the stack with the results in it, and `stack` what is left of it. -/
def leaveFunction (written stack : List Slot) : Option State := do
  let f ← s.callStack.getLast?
  if written.all s.liveSlot then do
    let s ← clearStackFunction { s with callStack := s.callStack.dropLast } written f
    s.setStack stack
  else none

/-! ## The host -/

/-- A `String` of the host. -/
def retainString (r : Ref) : Option State := do
  let s ← s.retain (.external r)
  return { s with host := .external r :: s.host }

def compile (strings : List Ref) : Option State := do
  let s ← (strings.map Obj.external).foldlM retain s
  let p := s.nextProgram
  return { s.setProgramAt p (some strings) with
    refCount := Function.update s.refCount (.program p) 1
    nextProgram := p + 1
    host := .program p :: s.host }

def releaseHost (o : Obj) : Option State :=
  if o ∈ s.host then release { s with host := s.host.erase o } o else none

end State

/-! ## Runs -/

inductive Op where
  | setStack (stack : List Slot)
  | setValue (place : Place) (b : Slot)
  | addTableProperty (r : Ref) (index value : Slot)
  | deleteTableProperty (r : Ref) (i : Nat)
  | clearTable (r : Ref)
  | sortTable (r : Ref) (table : List (Slot × Slot))
  | sortElements (r : Ref) (values : List Slot)
  | insertElement (r : Ref) (i : Nat) (v : Slot)
  | removeElement (r : Ref) (i : Nat)
  | registerValueAndPush (g : GCValue)
  | enterFunction (startPos : Nat) (restArguments selfForProto : Slot)
  | addSubFunc (k : Nat)
  | leaveFunction (written stack : List Slot)
  | retainString (r : Ref)
  | compile (strings : List Ref)
  | releaseHost (o : Obj)
  | gcFreeCandidateValues (full limit : Bool)
deriving DecidableEq, Repr

namespace State

def step (s : State) : Op → Option State
  | .setStack stack => s.setStack stack
  | .setValue place b => s.setValue place b
  | .addTableProperty r index value => s.addTableProperty r index value
  | .deleteTableProperty r i => s.deleteTableProperty r i
  | .clearTable r => s.clearTable r
  | .sortTable r table => s.sortTable r table
  | .sortElements r values => s.sortElements r values
  | .insertElement r i v => s.insertElement r i v
  | .removeElement r i => s.removeElement r i
  | .registerValueAndPush g => s.registerValueAndPush g
  | .enterFunction startPos restArguments selfForProto => s.enterFunction startPos restArguments selfForProto
  | .addSubFunc k => some (s.addSubFunc k)
  | .leaveFunction written stack => s.leaveFunction written stack
  | .retainString r => s.retainString r
  | .compile strings => s.compile strings
  | .releaseHost o => s.releaseHost o
  | .gcFreeCandidateValues full limit => s.gcFreeCandidateValues full limit

/-- **A run of operations.** -/
def run (s : State) (ops : List Op) : Option State := ops.foldlM step s

def start : State where
  value _ := none
  locals _ := none
  program _ := none
  refCount _ := 0
  gcStep _ := 0
  values := .new
  candidates := .new
  nextLocals := 0
  nextProgram := 0
  numCreatedValues := 0
  gcStepType := 0
  gcFixInProgress := false
  stack := []
  callStack := []
  root _ := none
  host := []

end State

end Gc
end ObjectScript
