import ObjectScript.Core.Value
import ObjectScript.Core.Vector
import ObjectScript.Lib.Chain
/-!
# Prototype chains

A property that an object does not have is looked for in its prototype, the prototype of that, and so on; deletion and
`isValueOf` follow the same chain.  None of these loops has a bound, and none of the operations that write a prototype looks
at the chain they make: `setPrototypeValue`, the key `prototype`, `extends` and the copy of an array write what they are
given, and a new object is created under any object there is.

So the chains stay without cycles exactly as long as no value is given a prototype on whose chain it already is
(`step_acyclic`), and then all three loops end (`terminates`).
-/
namespace ObjectScript
namespace Core

open Chain

inductive Prototype where
  | bool | number | string | object | array | function | userdata
deriving DecidableEq, Repr

/-- What the operations on prototypes see of a collected value. -/
structure Object (N : Type) where
  type : GCType
  prototype : Option Ref
  /-- Index and value, in insertion order. -/
  table : Option (List (Value N × Value N))
  /-- The elements of an array. -/
  values : ValueVector (Value N)
  /-- Of userdata. -/
  crc : Int

structure Heap (N : Type) where
  object : Ref → Option (Object N)
  nextId : Nat
  /-- `prototypes`, made by `init` and kept. -/
  prototypes : Prototype → Ref
  /-- `strings->syntax_prototype` -/
  syntaxPrototype : Ref
  /-- `strings->__instantiable` -/
  instantiable : Ref

variable {N : Type}

def Value.getGCValue : Value N → Option Ref
  | gc _ r => some r
  | _ => none

namespace Object

variable [Number N]

/-- `table->get` -/
def get (o : Object N) (index : Value N) : Option (Value N) :=
  o.table.bind fun table => (table.find? fun p => p.1.equalExactly index).map Prod.snd

/-- The position of an index in an array; a negative one counts from the end. -/
def position (o : Object N) (x : N) : Option Nat :=
  let i := Number.toInt x
  if 0 ≤ i then some i.toNat
  else if 0 ≤ i + o.values.items.length then some (i + o.values.items.length).toNat
  else none

def element (o : Object N) (index : Value N) : Option (Value N) :=
  match o.type, index with
  | .array, .number x => some ((o.position x).elim .null fun i => o.values.items.getD i .null)
  | _, _ => none

/-- `deleteTableProperty`, when there is a property. -/
def deleteProperty (o : Object N) (index : Value N) : Object N :=
  { o with table := o.table.map fun table => table.eraseP fun p => p.1.equalExactly index }

/-- A property in a table that may have to be made. -/
def addProperty (o : Object N) (index value : Value N) : Object N :=
  { o with table := some (o.table.getD [] ++ [(index, value)]) }

/-- `setValue` of the property there is. -/
def setProperty (o : Object N) (index value : Value N) : Object N :=
  { o with table := o.table.map fun table =>
      table.map fun p => if p.1.equalExactly index then (p.1, value) else p }

/-- The element of an array at a number is set, behind null elements when it is beyond the end; none when there is no room. -/
def setElement (o : Object N) (x : N) (value : Value N) : Option (Object N) :=
  match o.position x with
  | none => some o
  | some i => (o.values.store .null i value).map fun values => { o with values }

theorem setElement_prototype {o o' : Object N} {x : N} {value : Value N} (h : o.setElement x value = some o') :
    o'.prototype = o.prototype := by
  rw [setElement] at h
  split at h
  · cases h
    rfl
  · obtain ⟨values, -, rfl⟩ := Option.map_eq_some_iff.1 h
    rfl

end Object

namespace Heap

def prototypeOf (h : Heap N) (r : Ref) : Option Ref := (h.object r).bind Object.prototype

def set (h : Heap N) (r : Ref) (o : Object N) : Heap N := { h with object := Function.update h.object r (some o) }

def valueOf (h : Heap N) (r : Ref) : Option (Value N) := (h.object r).map fun o => .gc o.type r

section

variable [Number N] (h : Heap N)

/-! ## The loops -/

/-- `getPropertyValue`: the property, if there is one.  No result when the loop takes more than `fuel` steps. -/
def getPropertyValue (fuel : Nat) (tableValue : Ref) (index : Value N) (prototypeEnabled : Bool) :
    Option (Option (Value N)) := do
  let o ← h.object tableValue
  match o.element index with
  | some v => some (some v)
  | none =>
    match o.get index with
    | some v => some (some v)
    | none =>
      let found ← match prototypeEnabled, o.prototype with
        | true, some p => walk h.prototypeOf (fun r => (h.object r).bind fun o => o.get index) fuel p
        | _, _ => some none
      match found with
      | some v => some (some v)
      | none =>
        if index.equalExactly (.gc .string h.syntaxPrototype) then some ((o.prototype.bind h.valueOf).getD .null)
        else some none

/-- `getPropertyValue` of any value, its prototypes left out. -/
def ownProperty (value index : Value N) : Option (Option (Value N)) :=
  match value with
  | .gc .string _ => some none
  | .gc _ r => h.getPropertyValue 0 r index false
  | _ => some none

/-- `deleteValueProperty`, and whether it goes on to the accessors of the value (which it finds by `getPropertyValue`). -/
def deleteValueProperty (fuel : Nat) (tableValue : Ref) (index : Value N) (prototypeEnabled : Bool) :
    Option (Heap N × Bool) := do
  let o ← h.object tableValue
  match o.type, index with
  | .array, .number x =>
    match o.position x with
    | some i => some (h.set tableValue { o with values := o.values.removeAtIndex i }, false)
    | none => some (h, false)
  | _, _ =>
    if (o.get index).isSome then some (h.set tableValue (o.deleteProperty index), false)
    else
      let found ← match o.prototype with
        | some p => walk h.prototypeOf (fun r => (h.object r).bind fun o => (o.get index).map fun _ => (r, o)) fuel p
        | none => some none
      match found with
      | some (r, o) => some (if prototypeEnabled then h.set r (o.deleteProperty index) else h, false)
      | none => some (h, !index.equalExactly (.gc .string h.syntaxPrototype))

def isValueOf (fuel : Nat) (val prototypeVal : Ref) : Option Bool :=
  (walk h.prototypeOf (fun r => if r = prototypeVal then some () else none) fuel val).map Option.isSome

def isValueOfUserdata (fuel : Nat) (val : Ref) (prototypeCrc : Int) : Option Bool :=
  (walk h.prototypeOf (fun r => (h.object r).bind fun o =>
    if (o.type = .userdata ∨ o.type = .userptr) ∧ o.crc = prototypeCrc then some () else none) fuel val).map Option.isSome

/-! ## The operations that write a prototype -/

/-- Writes the prototype of a value; a value that is not collected makes it null. -/
def writePrototype (r : Ref) (o : Object N) (proto : Value N) : Heap N := h.set r { o with prototype := proto.getGCValue }

/-- `setPrototypeValue`; with a `userdata_crc`, userdata of another kind is left alone. -/
def setPrototypeValue (val proto : Value N) (userdataCrc : Option Int) : Option (Heap N) :=
  match val with
  | .gc .string _ => some h
  | .gc _ r => do
    let o ← h.object r
    if (o.type = .userdata ∨ o.type = .userptr) ∧ userdataCrc.any (fun crc => !(o.crc == crc)) then some h
    else some (h.writePrototype r o proto)
  | _ => some h

/-- `setPropertyValue` of a collected value.  `setter` is whether an accessor takes the value instead, or refuses it; what
the accessor does is operations of its own. -/
def setPropertyValue (tableValue : Ref) (index value : Value N) (setter : Bool) : Option (Heap N) := do
  let o ← h.object tableValue
  match o.type, index with
  | .string, _ => some h
  | .array, .number x => (o.setElement x value).map fun o => h.set tableValue o
  | _, _ =>
    if (o.get index).isSome then some (h.set tableValue (o.setProperty index value))
    else if index.equalExactly (.gc .string h.syntaxPrototype) then
      (h.valueOf tableValue).bind fun v => h.setPrototypeValue v value none
    else if setter then some h
    else some (h.set tableValue (o.addProperty index value))

/-- `extends`: the right operand gets the left one as its prototype, and its own property `__instantiable`. -/
def extends_ (classValue rightValue : Value N) : Option (Heap N) :=
  match rightValue with
  | .gc .string _ | .gc .function _ | .gc .cfunction _ => some h
  | .gc _ r => do
    let o ← h.object r
    let h := h.writePrototype r o classValue
    match ← h.ownProperty classValue (.gc .string h.instantiable) with
    | some v => h.setPropertyValue r (.gc .string h.instantiable) v false
    | none => some h
  | _ => some h

/-- A new value of this type and with this prototype. -/
def pushNew (type : GCType) (prototype : Option Ref) (crc : Int) : Heap N :=
  { h with
    object := Function.update h.object h.nextId (some ⟨type, prototype, none, .empty, crc⟩)
    nextId := h.nextId + 1 }

end

end Heap

/-- The operations that make a value or write a prototype. -/
inductive PrototypeOp (N : Type) where
  | setPrototypeValue (val proto : Value N)
  /-- `OS::setPrototype` -/
  | setPrototype (val proto : Value N) (userdataCrc : Int)
  | setPropertyValue (tableValue : Ref) (index value : Value N) (setter : Bool)
  | extends_ (classValue rightValue : Value N)
  /-- Under the object prototype, or as a copy of an object under the prototype of that. -/
  | pushObjectValue (prototype : Option Ref)
  | pushArrayValue
  | pushStringValue
  | pushUserdataValue (crc : Int)
  | pushUserPointerValue (crc : Int)
  | pushCFunctionValue
  /-- The function and the object that is its prototype. -/
  | pushFunctionValue
  /-- The `clone` of an array. -/
  | cloneArray (r : Ref)

namespace Heap

section

variable [Number N] (h : Heap N)

/-- The value is there, when it is a collected one. -/
def there : Value N → Bool
  | .gc type r => (h.object r).any fun o => o.type == type
  | _ => true

def step (op : PrototypeOp N) : Option (Heap N) :=
  match op with
  | .setPrototypeValue val proto => if h.there val && h.there proto then h.setPrototypeValue val proto none else none
  | .setPrototype val proto crc => if h.there val && h.there proto then h.setPrototypeValue val proto (some crc) else none
  | .setPropertyValue tableValue index value setter =>
    if h.there index && h.there value then h.setPropertyValue tableValue index value setter else none
  | .extends_ classValue rightValue =>
    if h.there classValue && h.there rightValue then h.extends_ classValue rightValue else none
  | .pushObjectValue prototype => if prototype.all fun r => (h.object r).isSome then some (h.pushNew .object prototype 0) else none
  | .pushArrayValue => some (h.pushNew .array (some (h.prototypes .array)) 0)
  | .pushStringValue => some (h.pushNew .string (some (h.prototypes .string)) 0)
  | .pushUserdataValue crc => some (h.pushNew .userdata (some (h.prototypes .userdata)) crc)
  | .pushUserPointerValue crc => some (h.pushNew .userptr (some (h.prototypes .userdata)) crc)
  | .pushCFunctionValue => some (h.pushNew .cfunction (some (h.prototypes .function)) 0)
  | .pushFunctionValue =>
    let h' := h.pushNew .object (some (h.prototypes .function)) 0
    some (h'.pushNew .function (some h.nextId) 0)
  | .cloneArray r => do
    let o ← h.object r
    let h' := h.pushNew .array (some (h.prototypes .array)) 0
    let new ← h'.object h.nextId
    some (h'.set h.nextId { new with prototype := o.prototype, values := o.values.copy })

def run : Heap N → List (PrototypeOp N) → Option (Heap N)
  | h, [] => some h
  | h, op :: ops => (h.step op).bind fun h' => run h' ops

end

/-- What `init` makes: the prototypes, the five objects of the core, and the strings the operations know. -/
def start : Heap N where
  object r :=
    if r = 3 then some ⟨.object, none, none, .empty, 0⟩
    else if r < 12 then some ⟨.object, some 3, none, .empty, 0⟩
    else if r < 14 then some ⟨.string, some 2, none, .empty, 0⟩
    else none
  nextId := 14
  prototypes
    | .bool => 0
    | .number => 1
    | .string => 2
    | .object => 3
    | .array => 4
    | .function => 5
    | .userdata => 6
  syntaxPrototype := 12
  instantiable := 13

/-! ## What an operation does to the links -/

def Live (h : Heap N) (r : Ref) : Prop := (h.object r).isSome

/-- Every prototype is there, and so are the ones of the core. -/
structure Valid (h : Heap N) : Prop where
  old : ∀ r, h.Live r → r < h.nextId
  linked : ∀ r p, h.prototypeOf r = some p → h.Live p
  prototypes : ∀ k, h.Live (h.prototypes k)
  names : h.instantiable ≠ h.syntaxPrototype

structure Written (h h' : Heap N) : Prop where
  nextId : h'.nextId = h.nextId
  prototypes : h'.prototypes = h.prototypes
  syntaxPrototype : h'.syntaxPrototype = h.syntaxPrototype
  instantiable : h'.instantiable = h.instantiable
  live : ∀ r, h'.Live r ↔ h.Live r

/-- Something was made: it is linked to what was there before it. -/
structure Grown (h h' : Heap N) : Prop where
  nextId : h.nextId ≤ h'.nextId
  prototypes : h'.prototypes = h.prototypes
  syntaxPrototype : h'.syntaxPrototype = h.syntaxPrototype
  instantiable : h'.instantiable = h.instantiable
  live : ∀ r, h'.Live r ↔ h.Live r ∨ h.nextId ≤ r ∧ r < h'.nextId
  same : ∀ r, r < h.nextId → h'.prototypeOf r = h.prototypeOf r
  linked : ∀ r p, h.nextId ≤ r → h'.prototypeOf r = some p → p < r ∧ h'.Live p

theorem Written.refl (h : Heap N) : Written h h := ⟨rfl, rfl, rfl, rfl, fun _ => Iff.rfl⟩

theorem Written.trans {h h' h'' : Heap N} (a : Written h h') (b : Written h' h'') : Written h h'' :=
  ⟨b.nextId.trans a.nextId, b.prototypes.trans a.prototypes, b.syntaxPrototype.trans a.syntaxPrototype,
    b.instantiable.trans a.instantiable, fun r => (b.live r).trans (a.live r)⟩

theorem prototypeOf_eq_some {h : Heap N} {r p : Ref} :
    h.prototypeOf r = some p ↔ ∃ o, h.object r = some o ∧ o.prototype = some p := Option.bind_eq_some_iff

theorem prototypeOf_set (h : Heap N) (r : Ref) (o : Object N) :
    (h.set r o).prototypeOf = Function.update h.prototypeOf r o.prototype := by
  funext x
  by_cases hx : x = r
  · subst hx
    simp [prototypeOf, set]
  · simp [prototypeOf, set, Function.update_of_ne hx]

theorem set_written {h : Heap N} {r : Ref} (hr : h.Live r) (o : Object N) : Written h (h.set r o) := by
  refine ⟨rfl, rfl, rfl, rfl, fun x => ?_⟩
  by_cases hx : x = r
  · subst hx
    simp only [Live, set, Function.update_self, Option.isSome_some, true_iff]
    exact hr
  · simp only [Live, set, Function.update_of_ne hx]

/-- A value replaced under its old prototype leaves the links alone. -/
theorem set_same {h : Heap N} {r : Ref} {o o' : Object N} (hr : h.object r = some o) (ho : o'.prototype = o.prototype) :
    Written h (h.set r o') ∧ (h.set r o').prototypeOf = h.prototypeOf := by
  refine ⟨set_written (Option.isSome_of_eq_some hr) o', ?_⟩
  rw [prototypeOf_set, ho]
  have hlink : h.prototypeOf r = o.prototype := by simp [prototypeOf, hr]
  rw [← hlink]
  exact Function.update_eq_self r h.prototypeOf

theorem live_of_there {h : Heap N} {v : Value N} {r : Ref} (hv : h.there v = true) (hr : v.getGCValue = some r) : h.Live r := by
  cases v with
  | gc type x =>
    cases hr
    obtain ⟨hlive, -⟩ := (Option.any_eq_true_iff_get _ _).1 hv
    exact hlive
  | _ => cases hr

/-- What an operation that makes nothing does to the links: one of them is written, or none. -/
def WritesLink (h h' : Heap N) (proto : Option Ref) : Prop :=
  Written h h' ∧ (h'.prototypeOf = h.prototypeOf ∨
    ∃ r, h.Live r ∧ h'.prototypeOf = Function.update h.prototypeOf r proto)

section

variable {h h' : Heap N}

theorem setPrototypeValue_writes {val proto : Value N} {crc : Option Int}
    (hs : h.setPrototypeValue val proto crc = some h') : WritesLink h h' proto.getGCValue := by
  have hsame : some h = some h' → WritesLink h h' proto.getGCValue := by
    intro heq
    cases heq
    exact ⟨Written.refl h, .inl rfl⟩
  unfold setPrototypeValue at hs
  split at hs
  · exact hsame hs
  · obtain ⟨o, ho, hs⟩ := Option.bind_eq_some_iff.1 hs
    split at hs
    · exact hsame hs
    · cases hs
      have hlive := Option.isSome_of_eq_some ho
      exact ⟨set_written hlive _, .inr ⟨_, hlive, prototypeOf_set h _ _⟩⟩
  · exact hsame hs

variable [Number N]

/-- Only the key `prototype` writes a link. -/
theorem setPropertyValue_writes {tableValue : Ref} {index value : Value N} {setter : Bool}
    (hs : h.setPropertyValue tableValue index value setter = some h') :
    WritesLink h h' value.getGCValue ∧
      (index.equalExactly (.gc .string h.syntaxPrototype) = false → h'.prototypeOf = h.prototypeOf) := by
  have hsame : some h = some h' → WritesLink h h' value.getGCValue ∧
      (index.equalExactly (.gc .string h.syntaxPrototype) = false → h'.prototypeOf = h.prototypeOf) := by
    intro heq
    cases heq
    exact ⟨⟨Written.refl h, .inl rfl⟩, fun _ => rfl⟩
  unfold setPropertyValue at hs
  obtain ⟨o, ho, hs⟩ := Option.bind_eq_some_iff.1 hs
  have hkeep : ∀ o' : Object N, o'.prototype = o.prototype → some (h.set tableValue o') = some h' →
      WritesLink h h' value.getGCValue ∧
        (index.equalExactly (.gc .string h.syntaxPrototype) = false → h'.prototypeOf = h.prototypeOf) := by
    intro o' hp heq
    cases heq
    obtain ⟨hw, hl⟩ := set_same ho hp
    exact ⟨⟨hw, .inl hl⟩, fun _ => hl⟩
  split at hs
  · exact hsame hs
  · obtain ⟨o', ho', heq⟩ := Option.map_eq_some_iff.1 hs
    exact hkeep o' (Object.setElement_prototype ho') (congrArg some heq)
  · split at hs
    · refine hkeep _ ?_ hs
      rfl
    · split at hs
      · rename_i hkey
        obtain ⟨v, -, hs⟩ := Option.bind_eq_some_iff.1 hs
        refine ⟨setPrototypeValue_writes hs, fun hne => ?_⟩
        rw [hkey] at hne
        cases hne
      · split at hs
        · exact hsame hs
        · refine hkeep _ ?_ hs
          rfl

theorem extends_writes {classValue rightValue : Value N} (hv : Valid h)
    (hs : h.extends_ classValue rightValue = some h') : WritesLink h h' classValue.getGCValue := by
  have hsame : some h = some h' → WritesLink h h' classValue.getGCValue := by
    intro heq
    cases heq
    exact ⟨Written.refl h, .inl rfl⟩
  unfold extends_ at hs
  split at hs
  case h_4 t r _ _ _ =>
    obtain ⟨o, ho, hs⟩ := Option.bind_eq_some_iff.1 hs
    have hlive := Option.isSome_of_eq_some ho
    have hwrite : Written h (h.writePrototype r o classValue) := set_written hlive _
    have hlink : (h.writePrototype r o classValue).prototypeOf = Function.update h.prototypeOf r classValue.getGCValue :=
      prototypeOf_set h r _
    have hdone : some (h.writePrototype r o classValue) = some h' → WritesLink h h' classValue.getGCValue := by
      intro heq
      cases heq
      exact ⟨hwrite, .inr ⟨r, hlive, hlink⟩⟩
    obtain ⟨found, -, hs⟩ := Option.bind_eq_some_iff.1 hs
    split at hs
    · obtain ⟨⟨hw, -⟩, hkey⟩ := setPropertyValue_writes hs
      have hne : (Value.gc .string h.instantiable : Value N).equalExactly
          (.gc .string (h.writePrototype r o classValue).syntaxPrototype) = false := by
        simp [Value.equalExactly, hwrite.syntaxPrototype, hv.names]
      exact ⟨hwrite.trans hw, .inr ⟨r, hlive, (hkey hne).trans hlink⟩⟩
    · exact hdone hs
  all_goals exact hsame hs

end

theorem pushNew_grown {h : Heap N} (hv : Valid h) (type : GCType) {prototype : Option Ref} (crc : Int)
    (hp : ∀ p, prototype = some p → h.Live p) : Grown h (h.pushNew type prototype crc) := by
  have hnew : ¬ h.Live h.nextId := fun hl => Nat.lt_irrefl _ (hv.old _ hl)
  have hlink : ∀ r, r ≠ h.nextId → (h.pushNew type prototype crc).prototypeOf r = h.prototypeOf r := by
    intro r hr
    simp [prototypeOf, pushNew, Function.update_of_ne hr]
  have hlive : ∀ r, (h.pushNew type prototype crc).Live r ↔ h.Live r ∨ h.nextId ≤ r ∧ r < h.nextId + 1 := by
    intro r
    by_cases hr : r = h.nextId
    · subst hr
      simp [Live, pushNew]
    · have hrange : ¬ (h.nextId ≤ r ∧ r < h.nextId + 1) := fun hh => hr (Nat.le_antisymm (Nat.le_of_lt_succ hh.2) hh.1)
      simp only [Live, pushNew, Function.update_of_ne hr, hrange, or_false]
  refine ⟨Nat.le_succ _, rfl, rfl, rfl, hlive, fun r hr => hlink r (Nat.ne_of_lt hr), fun r p hr hrp => ?_⟩
  by_cases hnext : r = h.nextId
  · subst hnext
    have hproto : prototype = some p := by simpa [prototypeOf, pushNew] using hrp
    exact ⟨hv.old p (hp p hproto), (hlive p).2 (.inl (hp p hproto))⟩
  · rw [hlink r hnext] at hrp
    obtain ⟨o, ho, -⟩ := prototypeOf_eq_some.1 hrp
    exact absurd (hv.old r (Option.isSome_of_eq_some ho)) (Nat.not_lt.2 hr)

theorem Grown.valid {h h' : Heap N} (hv : Valid h) (g : Grown h h') : Valid h' where
  old r hr := by
    rcases (g.live r).1 hr with hold | ⟨-, hnew⟩
    · exact Nat.lt_of_lt_of_le (hv.old r hold) g.nextId
    · exact hnew
  linked r p hrp := by
    rcases Nat.lt_or_ge r h.nextId with hr | hr
    · rw [g.same r hr] at hrp
      exact (g.live p).2 (.inl (hv.linked r p hrp))
    · exact (g.linked r p hr hrp).2
  prototypes k := by
    rw [g.prototypes]
    exact (g.live _).2 (.inl (hv.prototypes k))
  names := by
    rw [g.instantiable, g.syntaxPrototype]
    exact hv.names

theorem Grown.trans {h h' h'' : Heap N} (a : Grown h h') (b : Grown h' h'') : Grown h h'' := by
  refine ⟨Nat.le_trans a.nextId b.nextId, b.prototypes.trans a.prototypes, b.syntaxPrototype.trans a.syntaxPrototype,
    b.instantiable.trans a.instantiable, fun r => ?_, fun r hr => ?_, fun r p hr hrp => ?_⟩
  · have ha := a.nextId
    have hb := b.nextId
    rw [b.live, a.live]
    constructor
    · rintro ((hl | hl) | hl)
      · exact .inl hl
      · exact .inr ⟨hl.1, Nat.lt_of_lt_of_le hl.2 hb⟩
      · exact .inr ⟨Nat.le_trans ha hl.1, hl.2⟩
    · rintro (hl | hl)
      · exact .inl (.inl hl)
      · rcases Nat.lt_or_ge r h'.nextId with hr | hr
        · exact .inl (.inr ⟨hl.1, hr⟩)
        · exact .inr ⟨hr, hl.2⟩
  · exact (b.same r (Nat.lt_of_lt_of_le hr a.nextId)).trans (a.same r hr)
  · rcases Nat.lt_or_ge r h'.nextId with hlt | hge
    · rw [b.same r hlt] at hrp
      obtain ⟨hpr, hlive⟩ := a.linked r p hr hrp
      exact ⟨hpr, (b.live p).2 (.inl hlive)⟩
    · exact b.linked r p hge hrp

theorem WritesLink.valid {h h' : Heap N} {proto : Option Ref} (hv : Valid h) (w : WritesLink h h' proto)
    (hp : ∀ p, proto = some p → h.Live p) : Valid h' where
  old r hr := by
    rw [w.1.nextId]
    exact hv.old r ((w.1.live r).1 hr)
  linked r p hrp := by
    refine (w.1.live p).2 ?_
    rcases w.2 with hsame | ⟨x, -, hx⟩
    · rw [hsame] at hrp
      exact hv.linked r p hrp
    · rw [hx] at hrp
      by_cases hr : r = x
      · subst hr
        exact hp p (by simpa using hrp)
      · rw [Function.update_of_ne hr] at hrp
        exact hv.linked r p hrp
  prototypes k := by
    rw [w.1.prototypes]
    exact (w.1.live _).2 (hv.prototypes k)
  names := by
    rw [w.1.instantiable, w.1.syntaxPrototype]
    exact hv.names

/-! ## Steps and runs -/

section

variable [Number N] {h h' : Heap N}

/-- **What a step does to the links**: something is made, or one link is written. -/
theorem step_cases {op : PrototypeOp N} (hv : Valid h) (hs : h.step op = some h') :
    Grown h h' ∨ ∃ proto, WritesLink h h' proto ∧ ∀ p, proto = some p → h.Live p := by
  have hroot : ∀ k p, some (h.prototypes k) = some p → h.Live p := by
    intro k p hp
    cases hp
    exact hv.prototypes k
  cases op with
  | setPrototypeValue val proto =>
    obtain ⟨hc, hs⟩ := Option.ite_none_right_eq_some.1 hs
    exact .inr ⟨_, setPrototypeValue_writes hs, fun p hp => live_of_there (Bool.and_eq_true_iff.1 hc).2 hp⟩
  | setPrototype val proto crc =>
    obtain ⟨hc, hs⟩ := Option.ite_none_right_eq_some.1 hs
    exact .inr ⟨_, setPrototypeValue_writes hs, fun p hp => live_of_there (Bool.and_eq_true_iff.1 hc).2 hp⟩
  | setPropertyValue tableValue index value setter =>
    obtain ⟨hc, hs⟩ := Option.ite_none_right_eq_some.1 hs
    exact .inr ⟨_, (setPropertyValue_writes hs).1, fun p hp => live_of_there (Bool.and_eq_true_iff.1 hc).2 hp⟩
  | extends_ classValue rightValue =>
    obtain ⟨hc, hs⟩ := Option.ite_none_right_eq_some.1 hs
    exact .inr ⟨_, extends_writes hv hs, fun p hp => live_of_there (Bool.and_eq_true_iff.1 hc).1 hp⟩
  | pushObjectValue prototype =>
    obtain ⟨hc, hs⟩ := Option.ite_none_right_eq_some.1 hs
    cases hs
    refine .inl (pushNew_grown hv _ _ fun p hp => ?_)
    subst hp
    exact hc
  | pushFunctionValue =>
    cases hs
    have hobject := pushNew_grown hv .object 0 (hroot .function)
    refine .inl (hobject.trans (pushNew_grown (hobject.valid hv) .function 0 fun p hp => ?_))
    cases hp
    exact (hobject.live _).2 (.inr ⟨Nat.le_refl _, Nat.lt_succ_self _⟩)
  | cloneArray r =>
    obtain ⟨o, ho, hs⟩ := Option.bind_eq_some_iff.1 hs
    obtain ⟨new, hnew, hs⟩ := Option.bind_eq_some_iff.1 hs
    cases hs
    have harray := pushNew_grown hv .array 0 (hroot .array)
    have hlive := Option.isSome_of_eq_some hnew
    have hwrite : Written (h.pushNew .array (some (h.prototypes .array)) 0) _ :=
      set_written hlive { new with prototype := o.prototype, values := o.values.copy }
    -- the link of the new array is written before anything can follow it
    refine .inl ⟨harray.nextId, rfl, rfl, rfl, fun x => (hwrite.live x).trans (harray.live x), fun x hx => ?_,
      fun x p hx hp => ?_⟩
    · rw [prototypeOf_set, Function.update_of_ne (Nat.ne_of_lt hx)]
      exact harray.same x hx
    · rw [prototypeOf_set] at hp
      by_cases hxn : x = h.nextId
      · subst hxn
        have hop : o.prototype = some p := by simpa using hp
        have hpl := hv.linked r p (prototypeOf_eq_some.2 ⟨o, ho, hop⟩)
        exact ⟨hv.old p hpl, (hwrite.live p).2 ((harray.live p).2 (.inl hpl))⟩
      · rw [Function.update_of_ne hxn] at hp
        obtain ⟨hpx, hpl⟩ := harray.linked x p hx hp
        exact ⟨hpx, (hwrite.live p).2 hpl⟩
  | _ =>
    cases hs
    exact .inl (pushNew_grown hv _ _ (hroot _))

theorem step_valid {op : PrototypeOp N} (hv : Valid h) (hs : h.step op = some h') : Valid h' := by
  rcases step_cases hv hs with hgrown | ⟨proto, hwrites, hp⟩
  · exact hgrown.valid hv
  · exact hwrites.valid hv hp

end

def Acyclic (h : Heap N) : Prop := Chain.Acyclic h.prototypeOf

/-- New links go to what was there before, so they make no cycle. -/
theorem Grown.acyclic {h h' : Heap N} (hv : Valid h) (g : Grown h h') (ha : h.Acyclic) : h'.Acyclic := by
  have hold : ∀ x y, Relation.TransGen (Next h'.prototypeOf) x y → x < h.nextId →
      y < h.nextId ∧ Relation.TransGen (Next h.prototypeOf) x y := by
    intro x y hxy hx
    have hstep : ∀ y z, y < h.nextId → Next h'.prototypeOf y z → Next h.prototypeOf y z ∧ z < h.nextId := by
      intro y z hy hyz
      have hlink : h.prototypeOf y = some z := (g.same y hy).symm.trans hyz
      exact ⟨hlink, hv.old z (hv.linked y z hlink)⟩
    induction hxy with
    | single hyz =>
      obtain ⟨hnext, hlt⟩ := hstep _ _ hx hyz
      exact ⟨hlt, .single hnext⟩
    | tail _ hyz ih =>
      obtain ⟨hnext, hlt⟩ := hstep _ _ ih.1 hyz
      exact ⟨hlt, ih.2.tail hnext⟩
  have hnew : ∀ x y, Relation.TransGen (Next h'.prototypeOf) x y → h.nextId ≤ x → y < x := by
    intro x y hxy hx
    have hstep : ∀ y z, y ≤ x → Next h'.prototypeOf y z → z < x := by
      intro y z hy hyz
      rcases Nat.lt_or_ge y h.nextId with hlt | hge
      · have hlink : h.prototypeOf y = some z := (g.same y hlt).symm.trans hyz
        exact Nat.lt_of_lt_of_le (hv.old z (hv.linked y z hlink)) hx
      · exact Nat.lt_of_lt_of_le (g.linked y z hge hyz).1 hy
    induction hxy with
    | single hyz => exact hstep _ _ (Nat.le_refl _) hyz
    | tail _ hyz ih => exact hstep _ _ (Nat.le_of_lt ih) hyz
  intro x hx
  rcases Nat.lt_or_ge x h.nextId with hlt | hge
  · exact ha x (hold x x hx hlt).2
  · exact Nat.lt_irrefl x (hnew x x hx hge)

/-- No value is given a prototype on whose chain it already is. -/
def AvoidsCycle (h h' : Heap N) : Prop :=
  ∀ r p, h'.prototypeOf r = some p → h.prototypeOf r ≠ some p → ¬ On h.prototypeOf p r

theorem not_on_new {h : Heap N} (hv : Valid h) {r p : Ref} (hr : ¬ h.Live r) (hp : p ≠ r) : ¬ On h.prototypeOf p r := by
  intro hon
  cases hon with
  | refl => exact hp rfl
  | tail _ hstep => exact hr (hv.linked _ _ hstep)

/-- A chain without a cycle is no longer than there are values. -/
theorem after_eq_none {h : Heap N} (hv : Valid h) (ha : h.Acyclic) {r : Ref} (hr : h.Live r) : after h.prototypeOf h.nextId r = none := by
  have hclosed : ∀ a ∈ Finset.range h.nextId, ∀ b, h.prototypeOf a = some b → b ∈ Finset.range h.nextId := by
    intro a _ b hb
    exact Finset.mem_range.2 (hv.old b (hv.linked a b hb))
  have hend := Chain.Acyclic.ends ha hclosed (Finset.mem_range.2 (hv.old r hr))
  rw [Finset.card_range] at hend
  exact hend

section

variable [Number N] {h h' : Heap N}

/-- **A step keeps the chains free of cycles exactly when it gives no value a prototype on whose chain it is.** -/
theorem step_acyclic {op : PrototypeOp N} (hv : Valid h) (ha : h.Acyclic) (hs : h.step op = some h') :
    h'.Acyclic ↔ h.AvoidsCycle h' := by
  rcases step_cases hv hs with hgrown | ⟨proto, hwrites, hp⟩
  · refine ⟨fun _ r p hrp hne => ?_, fun _ => hgrown.acyclic hv ha⟩
    rcases Nat.lt_or_ge r h.nextId with hlt | hge
    · exact absurd ((hgrown.same r hlt).symm.trans hrp) hne
    · refine not_on_new hv (fun hl => absurd (hv.old r hl) (Nat.not_lt.2 hge)) ?_
      exact Nat.ne_of_lt (hgrown.linked r p hge hrp).1
  · rcases hwrites.2 with hsame | ⟨x, -, hx⟩
    · refine ⟨fun _ r p hrp hne => absurd (hsame ▸ hrp) hne, fun _ => ?_⟩
      unfold Heap.Acyclic
      rw [hsame]
      exact ha
    · have hother : ∀ r p, r ≠ x → h'.prototypeOf r = some p → h.prototypeOf r = some p := by
        intro r p hr hrp
        rw [hx, Function.update_of_ne hr] at hrp
        exact hrp
      cases proto with
      | none =>
        refine ⟨fun _ r p hrp hne => ?_, fun _ => ?_⟩
        · by_cases hr : r = x
          · subst hr
            rw [hx, Function.update_self] at hrp
            cases hrp
          · exact absurd (hother r p hr hrp) hne
        · unfold Heap.Acyclic
          rw [hx]
          exact acyclic_update_none ha x
      | some p =>
        have hiff : h'.Acyclic ↔ ¬ On h.prototypeOf p x := by
          unfold Heap.Acyclic
          rw [hx]
          exact acyclic_update ha
        rw [hiff]
        constructor
        · intro hon r q hrq hne
          by_cases hr : r = x
          · subst hr
            rw [hx, Function.update_self] at hrq
            cases hrq
            exact hon
          · exact absurd (hother r q hr hrq) hne
        · intro havoid hon
          by_cases hne : h.prototypeOf x = some p
          · exact ha x (Relation.TransGen.head' hne hon)
          · exact havoid x p (by rw [hx, Function.update_self]) hne hon

def AcyclicRun : Heap N → List (PrototypeOp N) → Prop
  | h, [] => h.Acyclic
  | h, op :: ops => h.Acyclic ∧ ∀ h', h.step op = some h' → AcyclicRun h' ops

/-- Along the run, no value is given a prototype on whose chain it already is. -/
def AvoidsCycles : Heap N → List (PrototypeOp N) → Prop
  | _, [] => True
  | h, op :: ops => ∀ h', h.step op = some h' → h.AvoidsCycle h' ∧ AvoidsCycles h' ops

theorem acyclicRun_head {ops : List (PrototypeOp N)} (hr : AcyclicRun h ops) : h.Acyclic := by
  cases ops with
  | nil => exact hr
  | cons op ops => exact hr.1

/-- **Runs stay free of cycles exactly when every step avoids them.** -/
theorem acyclicRun_iff {ops : List (PrototypeOp N)} (hv : Valid h) (ha : h.Acyclic) :
    AcyclicRun h ops ↔ AvoidsCycles h ops := by
  induction ops generalizing h with
  | nil => exact ⟨fun _ => trivial, fun _ => ha⟩
  | cons op ops ih =>
    constructor
    · intro hr h' hs
      have htail := hr.2 h' hs
      have ha' := acyclicRun_head htail
      exact ⟨(step_acyclic hv ha hs).1 ha', (ih (step_valid hv hs) ha').1 htail⟩
    · intro hr
      refine ⟨ha, fun h' hs => ?_⟩
      obtain ⟨havoid, htail⟩ := hr h' hs
      have ha' := (step_acyclic hv ha hs).2 havoid
      exact (ih (step_valid hv hs) ha').2 htail

theorem run_valid {ops : List (PrototypeOp N)} (hv : Valid h) (hr : h.run ops = some h') : Valid h' := by
  induction ops generalizing h with
  | nil => cases hr; exact hv
  | cons op ops ih =>
    obtain ⟨h1, hs, hr⟩ := Option.bind_eq_some_iff.1 hr
    exact ih (step_valid hv hs) hr

theorem run_acyclic {ops : List (PrototypeOp N)} (hr : AcyclicRun h ops) (hrun : h.run ops = some h') : h'.Acyclic := by
  induction ops generalizing h with
  | nil => cases hrun; exact hr
  | cons op ops ih =>
    obtain ⟨h1, hs, hrun⟩ := Option.bind_eq_some_iff.1 hrun
    exact ih (hr.2 h1 hs) hrun

/-! ## The loops end -/

/-- Looking up, deleting and `isValueOf` end for every value and every key, in no more steps than there are values. -/
def Terminates (h : Heap N) : Prop :=
  ∀ r, h.Live r →
    (∀ index prototypeEnabled, (h.getPropertyValue h.nextId r index prototypeEnabled).isSome) ∧
    (∀ index prototypeEnabled, (h.deleteValueProperty h.nextId r index prototypeEnabled).isSome) ∧
    (∀ p, (h.isValueOf h.nextId r p).isSome) ∧ ∀ crc, (h.isValueOfUserdata h.nextId r crc).isSome

theorem isSome_bind {α β : Type} {x : Option α} {f : α → Option β} (hx : x.isSome) (hf : ∀ a, (f a).isSome) :
    (x.bind f).isSome := by
  obtain ⟨a, rfl⟩ := Option.isSome_iff_exists.1 hx
  exact hf a

/-- **Without a cycle, every loop over a chain ends.** -/
theorem terminates (hv : Valid h) (ha : h.Acyclic) : h.Terminates := by
  have hwalk : ∀ {β : Type} (visit : Ref → Option β) r, h.Live r → (walk h.prototypeOf visit h.nextId r).isSome :=
    fun visit r hr => walk_isSome (after_eq_none hv ha hr)
  intro r hr
  obtain ⟨o, ho⟩ := Option.isSome_iff_exists.1 hr
  have hproto : ∀ p, o.prototype = some p → h.Live p := fun p hp => hv.linked r p (prototypeOf_eq_some.2 ⟨o, ho, hp⟩)
  refine ⟨fun index enabled => ?_, fun index enabled => ?_, fun p => ?_, fun crc => ?_⟩
  · unfold getPropertyValue
    simp only [ho, Option.bind_eq_bind, Option.bind_some]
    split
    · rfl
    · split
      · rfl
      · split
        · rename_i p hp
          refine isSome_bind (hwalk _ p (hproto p hp)) fun found => ?_
          split
          · rfl
          · split <;> rfl
        · split <;> rfl
  · unfold deleteValueProperty
    simp only [ho, Option.bind_eq_bind, Option.bind_some]
    split
    · split <;> rfl
    · split
      · rfl
      · split
        · rename_i p hp
          refine isSome_bind (hwalk _ p (hproto p hp)) fun found => ?_
          split <;> rfl
        · rfl
  · unfold isValueOf
    rw [Option.isSome_map]
    exact hwalk _ r hr
  · unfold isValueOfUserdata
    rw [Option.isSome_map]
    exact hwalk _ r hr

end

theorem start_valid : Valid (start : Heap N) where
  old r hr := by
    by_contra hge
    have h14 : ¬ r < 14 := hge
    have h12 : ¬ r < 12 := fun h => h14 (Nat.lt_trans h (by decide))
    have h3 : r ≠ 3 := by rintro rfl; exact h12 (by decide)
    simp [Live, start, h3, h12, h14] at hr
  linked r p hrp := by
    obtain ⟨o, ho, hp⟩ := prototypeOf_eq_some.1 hrp
    dsimp only [start] at ho
    split at ho
    · cases ho; cases hp
    · split at ho
      · cases ho; cases hp; rfl
      · split at ho
        · cases ho; cases hp; rfl
        · cases ho
  prototypes k := by cases k <;> rfl
  names := (by decide : (13 : Nat) ≠ 12)

/-- The object prototype comes first, the others as they were made. -/
def rank (r : Ref) : Nat := if r = 3 then 0 else r + 1

def Descends (h : Heap N) : Prop := ∀ r p, h.prototypeOf r = some p → rank p < rank r

theorem Descends.acyclic {h : Heap N} (hd : h.Descends) : h.Acyclic := by
  have hlt : ∀ x y, Relation.TransGen (Next h.prototypeOf) x y → rank y < rank x := by
    intro x y hxy
    induction hxy with
    | single hlink => exact hd _ _ hlink
    | tail _ hlink ih => exact Nat.lt_trans (hd _ _ hlink) ih
  exact fun x hx => Nat.lt_irrefl _ (hlt x x hx)

theorem Descends.update {h h' : Heap N} {x p : Ref} (hd : h.Descends)
    (hlink : h'.prototypeOf = Function.update h.prototypeOf x (some p)) (hlt : rank p < rank x) : h'.Descends := by
  intro r q hrq
  rw [hlink] at hrq
  by_cases hr : r = x
  · subst hr
    rw [Function.update_self] at hrq
    exact Option.some.inj hrq ▸ hlt
  · rw [Function.update_of_ne hr] at hrq
    exact hd r q hrq

theorem start_descends : (start : Heap N).Descends := by
  intro r p hrp
  obtain ⟨o, ho, hp⟩ := prototypeOf_eq_some.1 hrp
  dsimp only [start] at ho
  split at ho
  · cases ho
    cases hp
  · rename_i h3
    rw [rank, rank, if_neg h3]
    split at ho
    · cases ho
      cases hp
      exact Nat.succ_pos r
    · rename_i h12
      split at ho
      · cases ho
        cases hp
        exact Nat.lt_of_lt_of_le (by decide) (Nat.succ_le_succ (Nat.not_lt.1 h12))
      · cases ho

theorem start_acyclic : (start : Heap N).Acyclic := start_descends.acyclic

theorem prototypeOf_pushNew (h : Heap N) (type : GCType) (prototype : Option Ref) (crc : Int) :
    (h.pushNew type prototype crc).prototypeOf = Function.update h.prototypeOf h.nextId prototype := by
  funext x
  by_cases hx : x = h.nextId
  · subst hx
    simp [prototypeOf, pushNew]
  · simp [prototypeOf, pushNew, Function.update_of_ne hx]

variable [Number N]

/-- **Prototype chains.**  In a run of operations that make values and write prototypes, no chain ever has a cycle exactly
when no operation gives a value a prototype on whose chain it already is; and then looking up, deleting and `isValueOf` end
for every value and every key. -/
theorem prototypes_acyclic_iff (ops : List (PrototypeOp N)) :
    (AcyclicRun start ops ↔ AvoidsCycles start ops) ∧
      ∀ h : Heap N, AvoidsCycles start ops → run start ops = some h → h.Acyclic ∧ h.Terminates := by
  have hiff : AcyclicRun start ops ↔ AvoidsCycles start ops := acyclicRun_iff start_valid start_acyclic
  refine ⟨hiff, fun h havoid hrun => ?_⟩
  have ha := run_acyclic (hiff.2 havoid) hrun
  exact ⟨ha, terminates (run_valid start_valid hrun) ha⟩

/-- Two objects, one under the other, an array that is put under the second, and the first under the array prototype. -/
def linking : List (PrototypeOp Int) :=
  [.pushObjectValue (some 3), .pushObjectValue (some 14), .pushArrayValue, .setPrototypeValue (.gc .array 16) (.gc .object 15),
    .setPropertyValue 14 (.gc .string 12) (.gc .object 4) false]

theorem linking_acyclic : AcyclicRun start linking := by
  refine ⟨start_acyclic, fun h1 hs1 => ?_⟩
  cases hs1
  have h1 := start_descends.update (prototypeOf_pushNew (start : Heap Int) .object (some 3) 0) (by decide)
  refine ⟨h1.acyclic, fun h2 hs2 => ?_⟩
  cases hs2
  have h2 := h1.update (prototypeOf_pushNew _ .object (some 14) 0) (by decide)
  refine ⟨h2.acyclic, fun h3 hs3 => ?_⟩
  cases hs3
  have h3 := h2.update (prototypeOf_pushNew _ .array (some 4) 0) (by decide)
  refine ⟨h3.acyclic, fun h4 hs4 => ?_⟩
  cases hs4
  have h4 := h3.update (prototypeOf_set _ 16 ⟨.array, some 15, none, .empty, 0⟩) (by decide)
  refine ⟨h4.acyclic, fun h5 hs5 => ?_⟩
  cases hs5
  exact (h4.update (prototypeOf_set _ 14 ⟨.object, some 4, none, .empty, 0⟩) (by decide)).acyclic

/-- Every chain of the array ends: it goes over both objects to the array prototype. -/
theorem prototypes_acyclic_under : ∃ h, run start linking = some h ∧ h.Acyclic ∧ h.Terminates :=
  ⟨_, rfl, (prototypes_acyclic_iff linking).2 _ ((acyclicRun_iff start_valid start_acyclic).1 linking_acyclic) rfl⟩

/-- **Two objects become each other's prototype**, one by `setPrototypeValue` and one by the key `prototype`; looking up a
key that neither has never ends. -/
theorem prototype_cycle :
    ∃ h : Heap Int, run start [.pushObjectValue (some 3), .pushObjectValue (some 3),
        .setPrototypeValue (.gc .object 14) (.gc .object 15),
        .setPropertyValue 15 (.gc .string 12) (.gc .object 14) false] = some h ∧
      ¬ h.Acyclic ∧ ∀ fuel, h.getPropertyValue fuel 14 (.number 0) true = none := by
  obtain ⟨h, hrun⟩ : ∃ h : Heap Int, run start [.pushObjectValue (some 3), .pushObjectValue (some 3),
      .setPrototypeValue (.gc .object 14) (.gc .object 15),
      .setPropertyValue 15 (.gc .string 12) (.gc .object 14) false] = some h := ⟨_, rfl⟩
  have h14 : h.object 14 = some ⟨.object, some 15, none, .empty, 0⟩ := by cases hrun; rfl
  have h15 : h.object 15 = some ⟨.object, some 14, none, .empty, 0⟩ := by cases hrun; rfl
  have n14 : Next h.prototypeOf 14 15 := prototypeOf_eq_some.2 ⟨_, h14, rfl⟩
  have n15 : Next h.prototypeOf 15 14 := prototypeOf_eq_some.2 ⟨_, h15, rfl⟩
  refine ⟨h, hrun, fun ha => ha 14 (.tail (.single n14) n15), fun fuel => ?_⟩
  have hon : ∀ b, On h.prototypeOf 15 b → b = 14 ∨ b = 15 := by
    refine fun b hb => hb.mem (S := fun b => b = 14 ∨ b = 15) ?_ (.inr rfl)
    rintro a (rfl | rfl) b hab
    · exact .inr (Option.some.inj (hab.symm.trans n14))
    · exact .inl (Option.some.inj (hab.symm.trans n15))
  have habsent : ∀ b, On h.prototypeOf 15 b → ((h.object b).bind fun o => o.get (.number 0)) = none := by
    intro b hb
    rcases hon b hb with rfl | rfl
    · rw [h14]; rfl
    · rw [h15]; rfl
  have hloop := walk_eq_none (not_ends_of_cycle (.tail (.single n15) n14)) habsent fuel
  unfold getPropertyValue
  simp only [h14, Option.bind_eq_bind, Option.bind_some]
  exact congrArg (Option.bind · _) hloop

end Heap

end Core
end ObjectScript
