import ObjectScript.Lib.Chain
import ObjectScript.Lib.Descent
import Mathlib.Tactic.FinCases
/-!
# The conversions of values

`pushValueOf`, `Object.toJson` and `Object.valueOf` go down an object by its elements and properties, and call the methods of
scripts on the way.  An object is entered in `check_valueof_recursion` while its `pushValueOf` or its `toJson` is under way; there
it is not converted once more.  The methods, and the class name that is printed, are searched for along the prototypes, without
a bound: on a chain that comes back to itself the search, and with it the conversion, goes on for ever (`search_never_ends`).

Where the chains of prototypes end, the conversions end on every heap and leave the guard as it was, and they print in full what
is acyclic (`conversions_return`).  The graph that has to be acyclic is that of the conversions: an object whose own method
converts it once more is cut off, though it has no parts (`json_cut_off`).

An accessor that answers for `toJson` where no object of the chain has it is taken to convert nothing itself.
-/
namespace ObjectScript
namespace Objects

inductive Printable (α : Type) where
  | null
  | bool (b : Bool)
  | number (text : String)
  | string (str : String)
  | ref (a : α)
deriving DecidableEq, Repr

inductive Conversion where
  /-- `pushValueOf` -/
  | valueOf
  /-- `toJson(v)` -/
  | toJson
  /-- `Object.valueOf`, called by a script. -/
  | objectValueOf
  /-- `Object.toJson` of the prototype, that a script calls by `super`. -/
  | objectToJson
deriving DecidableEq, Repr

/-- What a method of a script does, with the functions of scripts that it calls: it converts values one after the other, and
returns or throws.  A result that is missing is an exception that it catches. -/
inductive Script (α : Type) where
  | ret (v : Printable α)
  | throw
  | convert (c : Conversion) (v : Printable α) (next : Option (Printable α) → Script α)

inductive Method (α : Type) where
  | native
  | script (body : Script α)
  /-- A value that is no function: its call gives null. -/
  | noFunction

inductive ObjectType where
  | array | object | userdata | function
deriving DecidableEq, Repr

/-- What a conversion reads of an object; `instantiable`, `valueOf` and `toJson` are its own properties of these names. -/
structure Printed (α : Type) where
  type : ObjectType
  value_id : Nat
  name : Option String
  prototype : Option α
  instantiable : Bool
  valueOf : Option (Method α)
  toJson : Option (Method α)
  values : List (Printable α)
  props : List (Printable α × Printable α)

/-- `core->prototypes`, those that are searched. -/
structure Prototypes (α : Type) where
  object : α
  bool : α
  number : α
  string : α

/-- The objects of a heap; `get` is what an accessor answers for `toJson`. -/
structure ObjectHeap (α : Type) where
  object : α → Printed α
  prototypes : Prototypes α
  get : Printable α → Method α
  quoted : String → String

inductive Status where
  | running | thrown | overflow
deriving DecidableEq, Repr

structure Converting (α : Type) where
  check_valueof_recursion : Finset α
  status : Status

abbrev Comp (α X : Type) := StateT (Converting α) Option X

/-! ## The searches along the prototypes -/

namespace ObjectHeap

variable {α : Type} (heap : ObjectHeap α)

def prototype (a : α) : Option α := (heap.object a).prototype

/-- `getPropertyValue` of the class of an object. -/
def valueOf (fuel : Nat) (a : α) : Option (Option (Method α)) :=
  Chain.walk heap.prototype (fun b => (heap.object b).valueOf) fuel ((heap.prototype a).getD heap.prototypes.object)

/-- Where the search for a property of a value begins. -/
def table : Printable α → Option α
  | .null => none
  | .bool _ => some heap.prototypes.bool
  | .number _ => some heap.prototypes.number
  | .string _ => some heap.prototypes.string
  | .ref a => some a

/-- `getProperty("toJson")` -/
def toJson (fuel : Nat) (v : Printable α) : Option (Method α) :=
  match heap.table v with
  | none => some .noFunction
  | some a => (Chain.walk heap.prototype (fun b => (heap.object b).toJson) fuel a).map fun found => found.getD (heap.get v)

def typeName : ObjectType → String
  | .array => "Array"
  | .object => "Object"
  | .userdata => "Userdata"
  | .function => "Function"

def getValueClassname (fuel : Nat) (a : α) : Option String :=
  match if (heap.object a).instantiable then some a else heap.prototype a with
  | none => some (typeName (heap.object a).type)
  | some b => (Chain.walk heap.prototype (fun c => (heap.object c).name) fuel b).map fun found =>
      found.getD (typeName (heap.object a).type)

def Within (fuel : Nat) : Prop := ∀ a, Chain.after heap.prototype fuel a = none

variable {heap} {fuel : Nat}

theorem Within.valueOf (h : heap.Within fuel) (a : α) : (heap.valueOf fuel a).isSome := Chain.walk_isSome (h _)

theorem Within.toJson (h : heap.Within fuel) (v : Printable α) : (heap.toJson fuel v).isSome := by
  unfold ObjectHeap.toJson
  cases heap.table v with
  | none => rfl
  | some a => exact (Option.isSome_map ..).trans (Chain.walk_isSome (h a))

theorem Within.getValueClassname (h : heap.Within fuel) (a : α) : (heap.getValueClassname fuel a).isSome := by
  unfold ObjectHeap.getValueClassname
  split
  · rfl
  · exact (Option.isSome_map ..).trans (Chain.walk_isSome (h _))

theorem Within.mono {n : Nat} (h : heap.Within n) (hle : n ≤ fuel) : heap.Within fuel :=
  fun a => Chain.after_none_of_le hle (h a)

/-- Chains that end, end within as many links as there are objects. -/
theorem within_card [Fintype α] (h : ∀ a, Chain.Ends heap.prototype a) : heap.Within (Fintype.card α) := by
  have hacyclic : Chain.Acyclic heap.prototype := fun a hcycle => Chain.not_ends_of_cycle hcycle (h a)
  exact fun a => hacyclic.ends (S := Finset.univ) (fun _ _ b _ => Finset.mem_univ b) (Finset.mem_univ a)

end ObjectHeap

section

variable {α : Type} (heap : ObjectHeap α)

/-- A search that goes on for ever gives no result. -/
def search {X : Type} (found : Option X) : Comp α X := fun s => found.map fun x => (x, s)

def Printable.text : Printable α → String
  | .null => "null"
  | .bool b => if b then "true" else "false"
  | .number text => text
  | .string str => str
  | .ref _ => ""

def Printable.isPrimitive : Printable α → Bool
  | .ref _ => false
  | _ => true

/-- `!os->isExceptionSet()` -/
def running : Comp α Bool := do return (← get).status = .running

/-- The loop over elements or properties, that stops at an exception. -/
def appendAll {X : Type} (item : X → Comp α String) : List X → (separator buf : String) → Comp α String
  | [], _, buf => return buf
  | x :: xs, separator, buf => do
    if ← running then
      let str ← item x
      appendAll item xs "," (buf ++ separator ++ str)
    else return buf

/-- The end of a list, if there was no exception. -/
def close (buf bracket : String) : Comp α (Printable α) := do
  if ← running then return .string (buf ++ bracket) else return .string buf

section

variable (conv : Conversion → Printable α → Comp α (Printable α))

def valueToString (v : Printable α) : Comp α String := do
  if v.isPrimitive then return v.text
  else
    let r ← conv .valueOf v
    return r.text

/-- A value as `Object.valueOf` appends it. -/
def valueString (v : Printable α) : Comp α String := do
  let value_str ← valueToString conv v
  return match v with
    | .string _ => heap.quoted value_str
    | _ => value_str

def indexString (index : Printable α) : Comp α String :=
  match index with
  | .number text => return text
  | .string str => return heap.quoted str
  | index => valueToString conv index

def valueOfProp (prop : Printable α × Printable α) : Comp α String := do
  let index ← indexString heap conv prop.1
  let value ← valueString heap conv prop.2
  return index ++ ":" ++ value

def dumpObject (header : String) (props : List (Printable α × Printable α)) : Comp α (Printable α) := do
  close (← appendAll (valueOfProp heap conv) props "" (header ++ "\x7b")) "\x7d"

/-- `Object.valueOf` -/
def objectValueOf [DecidableEq α] (fuel : Nat) (v : Printable α) : Comp α (Printable α) :=
  match v with
  | .ref a =>
    let self := heap.object a
    match self.type with
    | .array => do close (← appendAll (valueString heap conv) self.values "" "[") "]"
    | .userdata => do
      let classname ← search (heap.getValueClassname fuel a)
      let header := "<userdata#" ++ toString self.value_id ++ ":classname=" ++ classname ++ ">"
      if self.props = [] then return .string header
      else dumpObject heap conv header self.props
    | .function =>
      let header := "<function#" ++ toString self.value_id ++ ">"
      if self.props = [] then return .string header
      else dumpObject heap conv header self.props
    | .object =>
      if self.props = [] then return .string "\x7b\x7d"
      else if self.prototype = some heap.prototypes.object then dumpObject heap conv "" self.props
      else do
        let classname ← search (heap.getValueClassname fuel a)
        dumpObject heap conv ("<object#" ++ toString self.value_id ++ ":classname=" ++ classname ++ ">") self.props
  | v => return v

def jsonString (v : Printable α) : Comp α String := do
  let r ← conv .toJson v
  valueToString conv r

def jsonProp (prop : Printable α × Printable α) : Comp α String :=
  match prop.1 with
  | .number _ | .string _ => do
    let index ← jsonString conv prop.1
    let value ← jsonString conv prop.2
    return index ++ ":" ++ value
  | _ => return ""

def jsonObject (a : α) : Comp α (Printable α) :=
  let self := heap.object a
  match self.type with
  | .array => do close (← appendAll (jsonString conv) self.values "" "[") "]"
  | _ => do close (← appendAll (jsonProp conv) self.props "" "\x7b") "\x7d"

def runScript : Script α → Comp α (Printable α)
  | .ret v => return v
  | .throw => do
    modify fun s => { s with status := .thrown }
    return .null
  | .convert c v next => do
    let r ← conv c v
    match (← get).status with
    | .running => runScript (next (some r))
    | .thrown => do
      modify fun s => { s with status := .running }
      runScript (next none)
    | .overflow => return .null

end

variable [DecidableEq α]

/-- `pushValueOfRecursion`, the body and `popValueOfRecursion`.  Without `check` an object is entered once more. -/
def guarded (check : Bool) (a : α) (recursion body : Comp α (Printable α)) : Comp α (Printable α) := do
  if check && decide (a ∈ (← get).check_valueof_recursion) then recursion
  else
    modify fun s => { s with check_valueof_recursion := insert a s.check_valueof_recursion }
    let r ← body
    modify fun s => { s with check_valueof_recursion := s.check_valueof_recursion.erase a }
    return r

/-- `callFT`: a call of a script needs a frame, of which `left` are left. -/
def callFT (conv : Nat → Conversion → Printable α → Comp α (Printable α)) (left : Nat) (method : Method α)
    (native : Comp α (Printable α)) : Comp α (Printable α) := do
  if ← running then
    match method, left with
    | .native, _ => native
    | .noFunction, _ => return .null
    | .script _, 0 => do
      modify fun s => { s with status := .overflow }
      return .null
    | .script body, left + 1 => runScript (conv left) body
  else return .null

/-- The call of `valueOf`; a result that is an object is dropped. -/
def callValueOf (fuel : Nat) (conv : Nat → Conversion → Printable α → Comp α (Printable α)) (left : Nat) (a : α) :
    Comp α (Printable α) := do
  match ← search (heap.valueOf fuel a) with
  | none => return .null
  | some method =>
    let r ← callFT conv left method (objectValueOf heap (conv left) fuel (.ref a))
    return if r.isPrimitive then r else .null

def pushValueOf (check : Bool) (fuel : Nat) (conv : Nat → Conversion → Printable α → Comp α (Printable α)) (left : Nat)
    (v : Printable α) : Comp α (Printable α) :=
  match v with
  | .ref a => guarded check a (return .string "\x7b\x7bRECURSION\x7d\x7d") (callValueOf heap fuel conv left a)
  | v => return v

/-- `Object.toJson`, once it is known that no other `toJson` is called. -/
def objectToJson (check : Bool) (conv : Conversion → Printable α → Comp α (Printable α)) (v : Printable α) :
    Comp α (Printable α) :=
  match v with
  | .string str => return .string (heap.quoted str)
  | .ref a =>
    if (heap.object a).type = .function then return .string "null"
    else guarded check a (return .string "null") (jsonObject heap conv a)
  | v => return .string v.text

/-- `toJson(v)`: it is the one that is found from `v`, or calls that. -/
def toJson (check : Bool) (fuel : Nat) (conv : Nat → Conversion → Printable α → Comp α (Printable α)) (left : Nat)
    (v : Printable α) : Comp α (Printable α) := do
  if ← running then
    if v = .null then return .string "null"
    else
      let method ← search (heap.toJson fuel v)
      callFT conv left method (objectToJson heap check (conv left) v)
  else return .null

/-- A conversion, with `left` frames for scripts; `fuel` bounds its depth and the searches. -/
def convert (check : Bool) : Nat → Nat → Conversion → Printable α → Comp α (Printable α)
  | 0, _, _, _ => fun _ => none
  | fuel + 1, left, c, v =>
    match c with
    | .valueOf => pushValueOf heap check fuel (convert check fuel) left v
    | .toJson => toJson heap check fuel (convert check fuel) left v
    | .objectValueOf => objectValueOf heap (convert check fuel left) fuel v
    | .objectToJson => objectToJson heap check (convert check fuel left) v

end

/-! ## What is converted -/

section

variable {α : Type} (heap : ObjectHeap α)

/-- The class of an object has this `valueOf`. -/
def HasValueOf (a : α) (body : Script α) : Prop := ∃ fuel, heap.valueOf fuel a = some (some (.script body))

/-- This `toJson` is found from a value. -/
def HasToJson (v : Printable α) (body : Script α) : Prop := ∃ fuel, heap.toJson fuel v = some (.script body)

/-- What a script may return, when a conversion answers with a value that is none of an object, or with what another script
returns. -/
inductive Returns : Script α → Printable α → Prop where
  | ret (v : Printable α) : Returns (.ret v) v
  | caught {c : Conversion} {v w : Printable α} {next : Option (Printable α) → Script α} (h : Returns (next none) w) :
      Returns (.convert c v next) w
  | primitive {c : Conversion} {v w r : Printable α} {next : Option (Printable α) → Script α} (hr : r.isPrimitive = true)
      (h : Returns (next (some r)) w) : Returns (.convert c v next) w
  | answered {v w r : Printable α} {next : Option (Printable α) → Script α} {body : Script α}
      (hbody : HasToJson heap v body) (hr : Returns body r) (h : Returns (next (some r)) w) :
      Returns (.convert .toJson v next) w

def Answer (c : Conversion) (v r : Printable α) : Prop :=
  r.isPrimitive = true ∨ c = .toJson ∧ ∃ body, HasToJson heap v body ∧ Returns heap body r

inductive Mentions : Script α → Printable α → Prop where
  | here (c : Conversion) (v : Printable α) (next : Option (Printable α) → Script α) : Mentions (.convert c v next) v
  | caught {c : Conversion} {v w : Printable α} {next : Option (Printable α) → Script α} (h : Mentions (next none) w) :
      Mentions (.convert c v next) w
  | answered {c : Conversion} {v w r : Printable α} {next : Option (Printable α) → Script α} (hr : Answer heap c v r)
      (h : Mentions (next (some r)) w) : Mentions (.convert c v next) w

/-- What the conversion of a value converts: the parts of an object, and what its methods convert. -/
inductive Converts : Printable α → Printable α → Prop where
  | element {a : α} {w : Printable α} (h : w ∈ (heap.object a).values) : Converts (.ref a) w
  | index {a : α} {p : Printable α × Printable α} (h : p ∈ (heap.object a).props) : Converts (.ref a) p.1
  | value {a : α} {p : Printable α × Printable α} (h : p ∈ (heap.object a).props) : Converts (.ref a) p.2
  | valueOf {a : α} {body : Script α} {w : Printable α} (hbody : HasValueOf heap a body)
      (h : Mentions heap body w) : Converts (.ref a) w
  | toJson {v : Printable α} {body : Script α} {w : Printable α} (hbody : HasToJson heap v body)
      (h : Mentions heap body w) : Converts v w
  | answer {v : Printable α} {body : Script α} {w : Printable α} (hbody : HasToJson heap v body)
      (h : Returns heap body w) : Converts v w

end

/-! ## Computations that keep the guard -/

section

variable {α X Y : Type} {T : Prop} {g : Finset α} {P : Y → Prop} {Q : X → Prop}

/-- Two computations that do the same while the guard is `g`, leave it so and give such results; they have one, where `T`
holds. -/
structure Agree (T : Prop) (g : Finset α) (Q : X → Prop) (m m' : Comp α X) : Prop where
  same : ∀ s : Converting α, s.check_valueof_recursion = g → m s = m' s
  keeps : ∀ (s s' : Converting α) (r : X), s.check_valueof_recursion = g → m s = some (r, s') →
    s'.check_valueof_recursion = g ∧ Q r
  returns : T → ∀ s : Converting α, s.check_valueof_recursion = g → (m s).isSome

namespace Agree

theorem pure {x : X} (hx : Q x) : Agree T g Q (Pure.pure x : Comp α X) (Pure.pure x) where
  same _ _ := rfl
  keeps s s' r hs h := by
    obtain ⟨rfl, rfl⟩ := Prod.mk.inj (Option.some.inj h)
    exact ⟨hs, hx⟩
  returns _ _ _ := rfl

theorem bind {m m' : Comp α Y} {k k' : Y → Comp α X} (hm : Agree T g P m m') (hk : ∀ y, P y → Agree T g Q (k y) (k' y)) :
    Agree T g Q (m >>= k) (m' >>= k') where
  same s hs := by
    show (m s).bind (fun p => k p.1 p.2) = (m' s).bind (fun p => k' p.1 p.2)
    rw [← hm.same s hs]
    cases hms : m s with
    | none => rfl
    | some p =>
      obtain ⟨hp, hq⟩ := hm.keeps s p.2 p.1 hs hms
      exact (hk p.1 hq).same p.2 hp
  keeps s s' r hs h := by
    obtain ⟨p, hms, h⟩ := Option.bind_eq_some_iff.1 (show (m s).bind (fun p => k p.1 p.2) = some (r, s') from h)
    obtain ⟨hp, hq⟩ := hm.keeps s p.2 p.1 hs hms
    exact (hk p.1 hq).keeps p.2 s' r hp h
  returns ht s hs := by
    obtain ⟨p, hms⟩ := Option.isSome_iff_exists.1 (hm.returns ht s hs)
    obtain ⟨hp, hq⟩ := hm.keeps s p.2 p.1 hs hms
    show ((m s).bind fun p => k p.1 p.2).isSome = true
    rw [hms]
    exact (hk p.1 hq).returns ht p.2 hp

theorem get {k k' : Converting α → Comp α X} (hk : ∀ s, Agree T g Q (k s) (k' s)) :
    Agree T g Q (MonadState.get >>= k) (MonadState.get >>= k') where
  same s hs := (hk s).same s hs
  keeps s s' r hs h := (hk s).keeps s s' r hs h
  returns ht s hs := (hk s).returns ht s hs

theorem modify {f : Converting α → Converting α} (hf : ∀ s, (f s).check_valueof_recursion = s.check_valueof_recursion) :
    Agree T g (fun _ => True) (modify f : Comp α PUnit) (modify f) where
  same _ _ := rfl
  keeps s s' r hs h := by
    obtain ⟨-, rfl⟩ := Prod.mk.inj (Option.some.inj h)
    exact ⟨(hf s).trans hs, trivial⟩
  returns _ _ _ := rfl

theorem running : Agree T g (fun _ => True) (running : Comp α Bool) running := get fun _ => pure trivial

theorem search {found : Option X} (h : T → found.isSome) : Agree T g (fun x => found = some x) (search found : Comp α X) (search found) where
  same _ _ := rfl
  keeps s s' r hs hr := by
    obtain ⟨x, hx, hr⟩ := Option.map_eq_some_iff.1 hr
    cases hr
    exact ⟨hs, hx⟩
  returns ht _ _ := (Option.isSome_map ..).trans (h ht)

theorem weaken {Q' : X → Prop} {m m' : Comp α X} (h : Agree T g Q m m') (hq : ∀ x, Q x → Q' x) : Agree T g Q' m m' where
  same := h.same
  keeps s s' r hs hms := ⟨(h.keeps s s' r hs hms).1, hq r (h.keeps s s' r hs hms).2⟩
  returns := h.returns

theorem ite {c : Prop} [Decidable c] {m m' n n' : Comp α X} (hm : c → Agree T g Q m m') (hn : ¬ c → Agree T g Q n n') :
    Agree T g Q (if c then m else n) (if c then m' else n') := by
  split
  · exact hm ‹_›
  · exact hn ‹_›

theorem appendAll {Z : Type} {item item' : Z → Comp α String} : ∀ (xs : List Z) (separator buf : String),
    (∀ x ∈ xs, Agree T g (fun _ => True) (item x) (item' x)) →
    Agree T g (fun _ => True) (appendAll item xs separator buf) (Objects.appendAll item' xs separator buf)
  | [], _, _, _ => pure trivial
  | x :: xs, _, _, h => bind running fun _ _ => ite
      (fun _ => bind (h x List.mem_cons_self) fun _ _ =>
        appendAll xs "," _ fun y hy => h y (List.mem_cons_of_mem x hy))
      (fun _ => pure trivial)

theorem close (buf bracket : String) :
    Agree T g (fun r => r.isPrimitive = true) (close buf bracket : Comp α (Printable α)) (Objects.close buf bracket) :=
  bind running fun _ _ => ite (fun _ => pure rfl) (fun _ => pure rfl)

end Agree

end

/-! ## The parts of a conversion -/

section

open Relation

variable {α : Type} {heap : ObjectHeap α} {T : Prop} {g : Finset α} {conv conv' : Conversion → Printable α → Comp α (Printable α)}

def AgreeOn (heap : ObjectHeap α) (T : Prop) (g : Finset α) (conv conv' : Conversion → Printable α → Comp α (Printable α))
    (c : Conversion) (v : Printable α) : Prop := Agree T g (Answer heap c v) (conv c v) (conv' c v)

theorem valueToString_agrees {v : Printable α} (h : v.isPrimitive = false → AgreeOn heap T g conv conv' .valueOf v) :
    Agree T g (fun _ => True) (valueToString conv v) (valueToString conv' v) :=
  .ite (fun _ => .pure trivial) fun hv => .bind (h (Bool.eq_false_iff.2 hv)) fun _ _ => .pure trivial

theorem valueString_agrees {v : Printable α} (h : AgreeOn heap T g conv conv' .valueOf v) :
    Agree T g (fun _ => True) (valueString heap conv v) (valueString heap conv' v) :=
  .bind (valueToString_agrees fun _ => h) fun _ _ => .pure trivial

theorem indexString_agrees {v : Printable α} (h : AgreeOn heap T g conv conv' .valueOf v) :
    Agree T g (fun _ => True) (indexString heap conv v) (indexString heap conv' v) := by
  cases v with
  | number text => exact .pure trivial
  | string str => exact .pure trivial
  | null => exact valueToString_agrees fun _ => h
  | bool b => exact valueToString_agrees fun _ => h
  | ref a => exact valueToString_agrees fun _ => h

theorem jsonString_agrees {v : Printable α} (h : AgreeOn heap T g conv conv' .toJson v)
    (hanswer : ∀ w, Converts heap v w → AgreeOn heap T g conv conv' .valueOf w) :
    Agree T g (fun _ => True) (jsonString conv v) (jsonString conv' v) := by
  refine .bind h fun r hr => ?_
  have hobject : r.isPrimitive = false → AgreeOn heap T g conv conv' .valueOf r := by
    intro href
    rcases hr with hr | ⟨-, body, hbody, hr⟩
    · rw [hr] at href
      cases href
    · exact hanswer r (.answer hbody hr)
  exact valueToString_agrees hobject

theorem dumpObject_agrees {header : String} {props : List (Printable α × Printable α)}
    (h : ∀ p ∈ props, AgreeOn heap T g conv conv' .valueOf p.1 ∧ AgreeOn heap T g conv conv' .valueOf p.2) :
    Agree T g (fun r => r.isPrimitive = true) (dumpObject heap conv header props) (dumpObject heap conv' header props) := by
  have hprop : ∀ p ∈ props, Agree T g (fun _ => True) (valueOfProp heap conv p) (valueOfProp heap conv' p) := fun p hp =>
    .bind (indexString_agrees (h p hp).1) fun index _ => .bind (valueString_agrees (h p hp).2) fun value _ => .pure trivial
  exact .bind (.appendAll props "" _ hprop) fun buf _ => .close buf "\x7d"

theorem objectValueOf_agrees [DecidableEq α] {fuel : Nat} {v : Printable α} (hfuel : T → heap.Within fuel)
    (h : ∀ w, Converts heap v w → AgreeOn heap T g conv conv' .valueOf w) :
    Agree T g (fun r => r.isPrimitive = true) (objectValueOf heap conv fuel v) (objectValueOf heap conv' fuel v) := by
  cases v with
  | ref a =>
    have hvalues := Agree.appendAll (heap.object a).values "" "[" fun w hw => valueString_agrees (h w (.element hw))
    have hprops : ∀ p ∈ (heap.object a).props,
        AgreeOn heap T g conv conv' .valueOf p.1 ∧ AgreeOn heap T g conv conv' .valueOf p.2 :=
      fun p hp => ⟨h p.1 (.index hp), h p.2 (.value hp)⟩
    have hname : T → (heap.getValueClassname fuel a).isSome := fun ht => (hfuel ht).getValueClassname a
    unfold objectValueOf
    dsimp only
    split
    · exact .bind hvalues fun buf _ => .close buf "]"
    · exact .bind (.search hname) fun _ _ => .ite (fun _ => .pure rfl) fun _ => dumpObject_agrees hprops
    · exact .ite (fun _ => .pure rfl) fun _ => dumpObject_agrees hprops
    · exact .ite (fun _ => .pure rfl) fun _ => .ite (fun _ => dumpObject_agrees hprops) fun _ =>
        .bind (.search hname) fun _ _ => dumpObject_agrees hprops
  | null => exact .pure rfl
  | bool b => exact .pure rfl
  | number text => exact .pure rfl
  | string str => exact .pure rfl

theorem jsonObject_agrees {a : α} (h : ∀ c w, c ≠ .objectValueOf → TransGen (Converts heap) (.ref a) w →
    AgreeOn heap T g conv conv' c w) :
    Agree T g (fun r => r.isPrimitive = true) (jsonObject heap conv a) (jsonObject heap conv' a) := by
  have hjson : ∀ w, Converts heap (.ref a) w → Agree T g (fun _ => True) (jsonString conv w) (jsonString conv' w) :=
    fun w hw => jsonString_agrees (h .toJson w (by decide) (.single hw)) fun u hu => h .valueOf u (by decide) (.tail (.single hw) hu)
  have hvalues := Agree.appendAll (heap.object a).values "" "[" fun w hw => hjson w (.element hw)
  have hprops := Agree.appendAll (heap.object a).props "" "\x7b" fun p hp =>
    show Agree T g (fun _ => True) (jsonProp conv p) (jsonProp conv' p) by
      unfold jsonProp
      split
      · exact .bind (hjson p.1 (.index hp)) fun _ _ => .bind (hjson p.2 (.value hp)) fun _ _ => .pure trivial
      · exact .bind (hjson p.1 (.index hp)) fun _ _ => .bind (hjson p.2 (.value hp)) fun _ _ => .pure trivial
      · exact .pure trivial
  unfold jsonObject
  dsimp only
  split
  · exact .bind hvalues fun buf _ => .close buf "]"
  · exact .bind hprops fun buf _ => .close buf "\x7d"

/-- **A script agrees where its conversions do.** -/
theorem runScript_agrees (body : Script α) (h : ∀ c w, Mentions heap body w → AgreeOn heap T g conv conv' c w) :
    Agree T g (fun r => r.isPrimitive = true ∨ Returns heap body r) (runScript conv body) (runScript conv' body) := by
  induction body with
  | ret v => exact .pure (.inr (.ret v))
  | throw => exact .bind (.modify fun _ => rfl) fun _ _ => .pure (.inl rfl)
  | convert c v next ih =>
    refine .bind (h c v (.here c v next)) fun r hr => .get fun s => ?_
    cases s.status with
    | running =>
      refine (ih (some r) fun c' w hw => h c' w (.answered hr hw)).weaken fun x hx => ?_
      rcases hx with hx | hx
      · exact .inl hx
      · rcases hr with hr | ⟨rfl, body, hbody, hr⟩
        · exact .inr (.primitive hr hx)
        · exact .inr (.answered hbody hr hx)
    | thrown =>
      refine .bind (.modify fun _ => rfl) fun _ _ => ?_
      exact (ih none fun c' w hw => h c' w (.caught hw)).weaken fun x hx => hx.imp id .caught
    | overflow => exact .pure (.inl rfl)

variable {Q : Printable α → Prop} {convs convs' : Nat → Conversion → Printable α → Comp α (Printable α)}

theorem callFT_agrees {left : Nat} {method : Method α} {native native' : Comp α (Printable α)}
    (hnative : method = .native → Agree T g Q native native')
    (hscript : ∀ body left', method = .script body → left = left' + 1 →
      Agree T g Q (runScript (convs left') body) (runScript (convs' left') body)) (hnull : Q .null) :
    Agree T g Q (callFT convs left method native) (callFT convs' left method native') := by
  refine .bind .running fun b _ => .ite (fun _ => ?_) fun _ => .pure hnull
  cases method with
  | native => exact hnative rfl
  | noFunction => exact .pure hnull
  | script body =>
    cases left with
    | zero => exact .bind (.modify fun _ => rfl) fun _ _ => .pure hnull
    | succ left => exact hscript body left rfl rfl

variable [DecidableEq α] {check : Bool} {a : α} {recursion body recursion' body' : Comp α (Printable α)}

theorem guarded_enters {s : Converting α} (h : ¬ (check = true ∧ a ∈ s.check_valueof_recursion)) :
    guarded check a recursion body s =
      (body { s with check_valueof_recursion := insert a s.check_valueof_recursion }).bind fun p =>
        some (p.1, { p.2 with check_valueof_recursion := p.2.check_valueof_recursion.erase a }) := by
  have hcond : (check && decide (a ∈ s.check_valueof_recursion)) = false := by
    rw [Bool.eq_false_iff, ne_eq, Bool.and_eq_true, decide_eq_true_eq]
    exact h
  show (if (check && decide (a ∈ s.check_valueof_recursion)) = true then recursion else _ : Comp α (Printable α)) s = _
  rw [hcond]
  rfl

/-- An object that is not under way is entered, and left. -/
theorem guarded_agrees (ha : a ∉ g) (h : Agree T (insert a g) Q body body') :
    Agree T g Q (guarded true a recursion body) (guarded check a recursion' body') where
  same s hs := by
    subst hs
    rw [guarded_enters fun h => ha h.2, guarded_enters fun h => ha h.2, h.same _ rfl]
  keeps s s' r hs hr := by
    subst hs
    rw [guarded_enters fun h => ha h.2] at hr
    obtain ⟨p, hp, hr⟩ := Option.bind_eq_some_iff.1 hr
    obtain ⟨hguard, hq⟩ := h.keeps _ p.2 p.1 rfl hp
    obtain ⟨rfl, rfl⟩ := Prod.mk.inj (Option.some.inj hr)
    exact ⟨by dsimp only; rw [hguard, Finset.erase_insert ha], hq⟩
  returns ht s hs := by
    subst hs
    obtain ⟨p, hp⟩ := Option.isSome_iff_exists.1 (h.returns ht { s with check_valueof_recursion := insert a _ } rfl)
    rw [guarded_enters fun h => ha h.2, hp]
    rfl

theorem guarded_cut {s : Converting α} (h : a ∈ s.check_valueof_recursion) : guarded true a recursion body s = recursion s := by
  show (if (true && decide (a ∈ s.check_valueof_recursion)) = true then recursion else _ : Comp α (Printable α)) s = _
  rw [Bool.true_and, if_pos (decide_eq_true h)]

theorem guarded_recursion (ha : a ∈ g) (h : Agree T g Q recursion recursion') :
    Agree T g Q (guarded true a recursion body) (guarded true a recursion' body') where
  same s hs := by
    subst hs
    rw [guarded_cut ha, guarded_cut ha, h.same s rfl]
  keeps s s' r hs hr := by
    subst hs
    rw [guarded_cut ha] at hr
    exact h.keeps s s' r rfl hr
  returns ht s hs := by
    subst hs
    rw [guarded_cut ha]
    exact h.returns ht s rfl

/-! ## The conversions -/

theorem callValueOf_agrees {fuel left : Nat} {a : α} (hfuel : T → heap.Within fuel)
    (h : ∀ w, Converts heap (.ref a) w → AgreeOn heap T g (convs left) (convs' left) .valueOf w)
    (hscript : ∀ left', left = left' + 1 → ∀ c w, Converts heap (.ref a) w → AgreeOn heap T g (convs left') (convs' left') c w) :
    Agree T g (fun r => r.isPrimitive = true) (callValueOf heap fuel convs left a) (callValueOf heap fuel convs' left a) := by
  refine .bind (.search fun ht => (hfuel ht).valueOf a) fun found hfound => ?_
  cases found with
  | none => exact .pure rfl
  | some method =>
    have hcall : Agree T g (fun _ => True) (callFT convs left method (objectValueOf heap (convs left) fuel (.ref a)))
        (callFT convs' left method (objectValueOf heap (convs' left) fuel (.ref a))) := by
      refine callFT_agrees (fun _ => (objectValueOf_agrees hfuel h).weaken fun _ _ => trivial)
        (fun body left' hbody hleft => ?_) trivial
      subst hbody
      exact (runScript_agrees body fun c w hw => hscript left' hleft c w (.valueOf ⟨fuel, hfound⟩ hw)).weaken fun _ _ => trivial
    refine .bind hcall fun r _ => .pure ?_
    split
    · assumption
    · rfl

/-- **One conversion**, given those it makes. -/
theorem convert_step {fuel left : Nat} {c : Conversion} {v : Printable α} (hfuel : T → heap.Within fuel)
    (hguard : check = true ∨ ∀ a, v = .ref a → a ∉ g)
    (hparts : ∀ a, v = .ref a → a ∉ g → ∀ c' w, c' ≠ .objectValueOf → TransGen (Converts heap) v w →
      AgreeOn heap T (insert a g) (convert heap true fuel left) (convert heap check fuel left) c' w)
    (hobject : c = .objectValueOf → ∀ w, Converts heap v w →
      AgreeOn heap T g (convert heap true fuel left) (convert heap check fuel left) .valueOf w)
    (hscript : ∀ left', left = left' + 1 → ∀ g', (g' = g ∨ ∃ a, v = .ref a ∧ a ∉ g ∧ g' = insert a g) → ∀ c' w,
      Converts heap v w → AgreeOn heap T g' (convert heap true fuel left') (convert heap check fuel left') c' w) :
    AgreeOn heap T g (convert heap true (fuel + 1) left) (convert heap check (fuel + 1) left) c v := by
  have henter : ∀ a recursion body body', v = .ref a → Agree T g (fun r => r.isPrimitive = true) recursion recursion →
      (a ∉ g → Agree T (insert a g) (fun r => r.isPrimitive = true) body body') →
      Agree T g (fun r => r.isPrimitive = true) (guarded true a recursion body) (guarded check a recursion body') := by
    intro a recursion body body' hv hrecursion hbody
    by_cases ha : a ∈ g
    · rcases hguard with rfl | hguard
      · exact guarded_recursion ha hrecursion
      · exact absurd ha (hguard a hv)
    · exact guarded_agrees ha (hbody ha)
  have hjson : Agree T g (fun r => r.isPrimitive = true) (objectToJson heap true (convert heap true fuel left) v)
      (objectToJson heap check (convert heap check fuel left) v) := by
    cases v with
    | ref a =>
      exact .ite (fun _ => .pure rfl) fun _ => henter a _ _ _ rfl (.pure rfl) fun ha => jsonObject_agrees (hparts a rfl ha)
    | null => exact .pure rfl
    | bool b => exact .pure rfl
    | number text => exact .pure rfl
    | string str => exact .pure rfl
  cases c with
  | objectValueOf => exact (objectValueOf_agrees hfuel (hobject rfl)).weaken fun _ => .inl
  | objectToJson => exact hjson.weaken fun _ => .inl
  | valueOf =>
    cases v with
    | ref a =>
      refine (henter a _ _ _ rfl (.pure rfl) fun ha => callValueOf_agrees hfuel
        (fun w hw => hparts a rfl ha .valueOf w (by decide) (.single hw))
        fun left' hleft c' w hw => hscript left' hleft (insert a g) (.inr ⟨a, rfl, ha, rfl⟩) c' w hw).weaken fun _ => .inl
    | null => exact .pure (.inl rfl)
    | bool b => exact .pure (.inl rfl)
    | number text => exact .pure (.inl rfl)
    | string str => exact .pure (.inl rfl)
  | toJson =>
    refine .bind .running fun b _ => .ite (fun _ => .ite (fun _ => .pure (.inl rfl)) fun _ => ?_) fun _ => .pure (.inl rfl)
    refine .bind (.search fun ht => (hfuel ht).toJson v) fun method hmethod => ?_
    refine callFT_agrees (fun _ => hjson.weaken fun _ => .inl) (fun body left' hbody hleft => ?_) (.inl rfl)
    subst hbody
    exact (runScript_agrees body fun c' w hw => hscript left' hleft g (.inl rfl) c' w (.toJson ⟨fuel, hmethod⟩ hw)).weaken
      fun r hr => hr.imp id fun hr => ⟨rfl, body, ⟨fuel, hmethod⟩, hr⟩

/-- **The conversions end**: every object is entered once at a time, and every script takes a frame. -/
theorem convert_ends [Fintype α] (hchains : heap.Within (Fintype.card α)) :
    ∀ (fuel left : Nat) (c : Conversion) (v : Printable α) (g : Finset α),
    left * (2 * Fintype.card α + 5) + 2 * (Fintype.card α - g.card) + (if c = .objectValueOf then 1 else 0) + Fintype.card α < fuel →
    AgreeOn heap True g (convert heap true fuel left) (convert heap true fuel left) c v
  | 0, left, c, v, g, h => by omega
  | fuel + 1, left, c, v, g, h => by
    refine convert_step (fun _ => hchains.mono (by omega)) (.inl rfl)
      (fun a hv ha c' w hc _ => convert_ends hchains fuel left c' w _ ?_)
      (fun hc w _ => convert_ends hchains fuel left .valueOf w g ?_)
      fun left' hleft g' _ c' w _ => convert_ends hchains fuel left' c' w g' ?_
    · have hcard : (insert a g).card = g.card + 1 := Finset.card_insert_of_notMem ha
      have hle := Finset.card_le_univ (insert a g)
      rw [if_neg hc, hcard]
      rw [hcard] at hle
      omega
    · rw [hc, if_pos rfl] at h
      rw [if_neg (by decide)]
      omega
    · rw [hleft, Nat.succ_mul] at h
      have hone : (if c' = Conversion.objectValueOf then 1 else 0) ≤ 1 := by split <;> decide
      omega

/-- **What is acyclic is printed as if there was no guard.** -/
theorem convert_full : ∀ (fuel left : Nat) (c : Conversion) (v : Printable α) (g : Finset α),
    Descent.Acyclic (Converts heap) v → (∀ a, ReflTransGen (Converts heap) v (.ref a) → a ∉ g) →
    AgreeOn heap False g (convert heap true fuel left) (convert heap false fuel left) c v
  | 0, _, _, _, _, _, _ => ⟨fun _ _ => rfl, (fun _ _ _ _ h => nomatch h), (fun h => nomatch h)⟩
  | fuel + 1, left, c, v, g, hacyclic, hfree => by
    have hbelow : ∀ w, TransGen (Converts heap) v w → Descent.Acyclic (Converts heap) w :=
      fun w hw u hu => hacyclic u (hw.to_reflTransGen.trans hu)
    have hsame : ∀ w, TransGen (Converts heap) v w → ∀ b, ReflTransGen (Converts heap) w (.ref b) → b ∉ g :=
      fun w hw b hb => hfree b (hw.to_reflTransGen.trans hb)
    have hentered : ∀ a, v = .ref a → ∀ w, TransGen (Converts heap) v w →
        ∀ b, ReflTransGen (Converts heap) w (.ref b) → b ∉ insert a g := by
      intro a hv w hw b hb hmem
      rcases Finset.mem_insert.1 hmem with rfl | hmem
      · subst hv
        exact hacyclic _ .refl (TransGen.trans_left hw hb)
      · exact hsame w hw b hb hmem
    refine convert_step (fun h => h.elim) (.inr fun a hv => hfree a (hv ▸ .refl))
      (fun a hv ha c' w hc hw => convert_full fuel left c' w _ (hbelow w hw) (hentered a hv w hw))
      (fun hc w hw => convert_full fuel left .valueOf w g (hbelow w (.single hw)) (hsame w (.single hw)))
      fun left' hleft g' hg' c' w hw => convert_full fuel left' c' w g' (hbelow w (.single hw)) ?_
    rcases hg' with rfl | ⟨a, hv, ha, rfl⟩
    · exact hsame w (.single hw)
    · exact hentered a hv w (.single hw)

/-- **Conversions return** on every heap whose chains of prototypes end, and leave the guard as it was, whatever the methods of
the objects convert and throw; and what is acyclic in what it converts is printed in full. -/
theorem conversions_return [Fintype α] (heap : ObjectHeap α) (hchains : ∀ a, Chain.Ends heap.prototype a) (left : Nat)
    (c : Conversion) (v : Printable α) (s : Converting α) : ∃ n, ∀ fuel, n ≤ fuel → ∃ r s',
      convert heap true fuel left c v s = some (r, s') ∧ s'.check_valueof_recursion = s.check_valueof_recursion ∧
      (Descent.Acyclic (Converts heap) v →
        (∀ a, ReflTransGen (Converts heap) v (.ref a) → a ∉ s.check_valueof_recursion) →
        convert heap false fuel left c v s = some (r, s')) := by
  refine ⟨left * (2 * Fintype.card α + 5) + 2 * (Fintype.card α - s.check_valueof_recursion.card) +
    (if c = .objectValueOf then 1 else 0) + Fintype.card α + 1, fun fuel hfuel => ?_⟩
  have hends : AgreeOn heap True s.check_valueof_recursion (convert heap true fuel left) (convert heap true fuel left) c v :=
    convert_ends (ObjectHeap.within_card hchains) fuel left c v _ hfuel
  obtain ⟨⟨r, s'⟩, hrun⟩ := Option.isSome_iff_exists.1 (hends.returns trivial s rfl)
  refine ⟨r, s', hrun, (hends.keeps s s' r rfl hrun).1, fun hacyclic hfree => ?_⟩
  rw [← (convert_full fuel left c v s.check_valueof_recursion hacyclic hfree).same s rfl, hrun]

end

def scriptObject {α : Type} (prototype : Option α) (props : List (Printable α × Printable α)) : Printed α :=
  ⟨.object, 1, none, prototype, false, none, none, [], props⟩

/-- The prototype of objects, with the methods of the core. -/
def objectPrototype {α : Type} : Printed α :=
  ⟨.object, 0, some "Object", none, false, some .native, some .native, [], []⟩

def quote (str : String) : String := "'" ++ str ++ "'"

/-- Both properties of the object `2` hold the object `1`. -/
def sharing : ObjectHeap (Fin 3) where
  object a := match a with
    | 0 => objectPrototype
    | 1 => scriptObject (some 0) [(.string "x", .number "1")]
    | 2 => scriptObject (some 0) [(.string "a", .ref 1), (.string "b", .ref 1)]
  prototypes := ⟨0, 0, 0, 0⟩
  get _ := .noFunction
  quoted := quote

/-- How high the objects of `sharing` are over the primitive values. -/
def height : Printable (Fin 3) → Nat
  | .ref a => a + 1
  | _ => 0

theorem sharing_descends {v w : Printable (Fin 3)} (h : Converts sharing v w) : height w < height v := by
  have hvalueOf : ∀ a body, ¬ HasValueOf sharing a body := by
    rintro a body ⟨fuel, h⟩
    obtain ⟨c, hc⟩ := Chain.exists_of_walk h
    fin_cases c <;> cases hc
  have htoJson : ∀ u body, ¬ HasToJson sharing u body := by
    rintro u body ⟨fuel, h⟩
    unfold ObjectHeap.toJson at h
    split at h
    · cases h
    · obtain ⟨found, hfound, h⟩ := Option.map_eq_some_iff.1 h
      cases found with
      | none => cases h
      | some method =>
        obtain ⟨c, hc⟩ := Chain.exists_of_walk hfound
        subst h
        fin_cases c <;> cases hc
  cases h with
  | @element a w h => fin_cases a <;> exact absurd h List.not_mem_nil
  | @index a p h =>
    fin_cases a <;> simp [sharing, objectPrototype, scriptObject] at h <;> rcases h with rfl | rfl <;> decide
  | @value a p h =>
    fin_cases a <;> simp [sharing, objectPrototype, scriptObject] at h <;> rcases h with rfl | rfl <;> decide
  | valueOf hbody _ => exact absurd hbody (hvalueOf _ _)
  | toJson hbody _ => exact absurd hbody (htoJson _ _)
  | answer hbody _ => exact absurd hbody (htoJson _ _)

/-- An object under two others is printed in full both times. -/
theorem conversions_return_sharing : (∃ n, ∀ fuel, n ≤ fuel → ∃ r s', convert sharing true fuel 0 .toJson (.ref 2) ⟨∅, .running⟩ =
      some (r, s') ∧ s'.check_valueof_recursion = ∅ ∧ convert sharing false fuel 0 .toJson (.ref 2) ⟨∅, .running⟩ = some (r, s')) ∧
    (convert sharing true 9 0 .toJson (.ref 2) ⟨∅, .running⟩).map Prod.fst =
      some (.string "\x7b'a':\x7b'x':1\x7d,'b':\x7b'x':1\x7d\x7d") := by
  refine ⟨?_, rfl⟩
  have hchains : ∀ a, Chain.Ends sharing.prototype a := fun a => ⟨2, by fin_cases a <;> rfl⟩
  have hacyclic : Descent.Acyclic (Converts sharing) (.ref 2) := by
    intro b _ hcycle
    have hlower : ∀ w, Relation.TransGen (Converts sharing) b w → height w < height b := by
      intro w hw
      induction hw with
      | single h => exact sharing_descends h
      | tail _ h ih => exact (sharing_descends h).trans ih
    exact lt_irrefl _ (hlower b hcycle)
  obtain ⟨n, h⟩ := conversions_return sharing hchains 0 .toJson (.ref 2) ⟨∅, .running⟩
  refine ⟨n, fun fuel hfuel => ?_⟩
  obtain ⟨r, s', hrun, hguard, hfull⟩ := h fuel hfuel
  exact ⟨r, s', hrun, hguard, hfull hacyclic fun a _ => Finset.notMem_empty a⟩

/-- A part of an object: an element, or the index or the value of a property. -/
def IsPart {α : Type} (heap : ObjectHeap α) (v w : Printable α) : Prop :=
  ∃ a, v = .ref a ∧ (w ∈ (heap.object a).values ∨ ∃ p ∈ (heap.object a).props, w = p.1 ∨ w = p.2)

/-- The object `2`, whose class `1` has a `valueOf` that returns its JSON. -/
def jsonValued : ObjectHeap (Fin 3) where
  object a := match a with
    | 0 => objectPrototype
    | 1 => { scriptObject (some 0) [] with valueOf := some (.script (.convert .toJson (.ref 2) fun r => .ret (r.getD .null))) }
    | 2 => scriptObject (some 1) [(.string "a", .number "1")]
  prototypes := ⟨0, 0, 0, 0⟩
  get _ := .noFunction
  quoted := quote

/-- It has no part that is an object, and is cut off all the same. -/
theorem json_cut_off : Descent.Acyclic (IsPart jsonValued) (.ref 2) ∧
    (convert jsonValued true 9 1 .valueOf (.ref 2) ⟨∅, .running⟩).map Prod.fst = some (.string "null") ∧
    (convert jsonValued false 9 1 .valueOf (.ref 2) ⟨∅, .running⟩).map Prod.fst = some (.string "\x7b'a':1\x7d") := by
  have hleaf : ∀ v w, IsPart jsonValued v w → v.isPrimitive = false ∧ w.isPrimitive = true := by
    rintro _ w ⟨a, rfl, hw | ⟨p, hp, hw⟩⟩
    · fin_cases a <;> exact absurd hw List.not_mem_nil
    · fin_cases a <;> simp [jsonValued, objectPrototype, scriptObject] at hp
      subst hp
      rcases hw with rfl | rfl <;> exact ⟨rfl, rfl⟩
  refine ⟨fun b _ hcycle => ?_, rfl, rfl⟩
  obtain ⟨_, hout, -⟩ := Relation.TransGen.head'_iff.1 hcycle
  obtain ⟨_, -, hin⟩ := Relation.TransGen.tail'_iff.1 hcycle
  have hobject := (hleaf _ _ hout).1
  rw [(hleaf _ _ hin).2] at hobject
  cases hobject

/-- `o = {}; o.prototype = o`, with `o` the object `true`. -/
def ownPrototype : ObjectHeap Bool where
  object a := if a then scriptObject (some true) [] else objectPrototype
  prototypes := ⟨false, false, false, false⟩
  get _ := .noFunction
  quoted := quote

theorem search_never_ends (fuel left : Nat) : convert ownPrototype true fuel left .valueOf (.ref true) ⟨∅, .running⟩ = none := by
  cases fuel with
  | zero => rfl
  | succ fuel =>
    have hcycle : Relation.TransGen (Chain.Next ownPrototype.prototype) true true := .single rfl
    have hon : ∀ b, Chain.On ownPrototype.prototype true b → b = true := by
      intro b hb
      induction hb with
      | refl => rfl
      | tail _ hstep ih =>
        subst ih
        cases hstep
        rfl
    have hvalueOf : ownPrototype.valueOf fuel true = none := by
      refine Chain.walk_eq_none (Chain.not_ends_of_cycle hcycle) (fun b hb => ?_) fuel
      rw [hon b hb]
      rfl
    have hcall : ∀ s, callValueOf ownPrototype fuel (convert ownPrototype true fuel) left true s = none := by
      intro s
      have hsearch : search (ownPrototype.valueOf fuel true) s = none := by
        rw [hvalueOf]
        rfl
      exact congrArg (fun m => Option.bind m _) hsearch
    show guarded true true _ (callValueOf ownPrototype fuel (convert ownPrototype true fuel) left true) _ = none
    rw [guarded_enters fun h => Finset.notMem_empty true h.2, hcall]
    rfl

/-- A search of a method that never ends, and a graph without cycles that is cut off. -/
theorem hanging_or_cut : (∀ fuel left, convert ownPrototype true fuel left .valueOf (.ref true) ⟨∅, .running⟩ = none) ∧
    Descent.Acyclic (IsPart jsonValued) (.ref 2) ∧
    (convert jsonValued true 9 1 .valueOf (.ref 2) ⟨∅, .running⟩).map Prod.fst ≠
      (convert jsonValued false 9 1 .valueOf (.ref 2) ⟨∅, .running⟩).map Prod.fst := by
  obtain ⟨hacyclic, hcut, hfull⟩ := json_cut_off
  rw [hcut, hfull]
  exact ⟨search_never_ends, hacyclic, by decide⟩

end Objects
end ObjectScript
