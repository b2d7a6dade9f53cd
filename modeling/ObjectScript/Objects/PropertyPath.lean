import ObjectScript.Core.DoubleNumber
import ObjectScript.Core.Table
import ObjectScript.Core.Vector
import ObjectScript.Lib.Chain
import ObjectScript.Lib.Entries
/-!
# Property paths

`setSmartProperty` reads a path such as `a.b[c][]`, pushes its names on the stack while it does, and then goes from object to
object in place, the object of the moment under the value.  It ends with a write of the value.

The reads and writes are those of the core: they look along the prototypes, without a bound, and call `__get@name`, `__get`,
`__set@name` and `__set`.  A `__get` or `__set` of which three calls are active for the object and the name is refused, and
what was counted stays on the stack.  Empty brackets write at `next_index`, which is a key as the double nearest to it.

Left out is an exception that is pending when a step begins (`callFT` then does nothing), and the name that a value gets from
the first index it is stored under.
-/
namespace ObjectScript
namespace Objects
namespace PropertyPath

open ObjectScript.Core (Double ValueVector)

/-! ## Values -/

inductive OwnerType where
  | array | object | userdata | userptr | function | cfunction
deriving DecidableEq, Repr

inductive Val where
  | null
  | bool (boolean : Bool)
  | number (x : Double)
  | string (bytes : List Nat)
  | owner (ref : Nat)
deriving DecidableEq

inductive Key where
  | name (bytes : List Nat)
  | number (x : Double)
deriving DecidableEq

/-- Numbers are compared by `==`: the zeros are one key, and no NaN is found. -/
def Key.equal : Key → Key → Bool
  | .name m, .name n => m == n
  | .number x, .number y => x.equal y
  | _, _ => false

instance : BEq Key := ⟨Key.equal⟩

theorem beq_number (x y : Double) : (Key.number x == Key.number y) = x.equal y := rfl

theorem beq_name (m : List Nat) (key : Key) : (Key.name m == key) = true ↔ key = .name m := by
  cases key with
  | name n => exact (beq_iff_eq (a := m) (b := n)).trans ⟨fun h => h ▸ rfl, fun h => (Key.name.inj h).symm⟩
  | number x => exact iff_of_false Bool.false_ne_true fun h => by cases h

instance : PartialEquivBEq Key where
  symm {a b} h := by
    cases a with
    | name m => exact (beq_name m b).1 h ▸ (beq_name m _).2 rfl
    | number x =>
      cases b with
      | name n => cases h
      | number y =>
        simp only [beq_number, Double.equal, Bool.and_eq_true, beq_iff_eq] at h ⊢
        exact ⟨⟨h.1.2, h.1.1⟩, h.2.symm⟩
  trans {a b c} hab hbc := by
    cases a with
    | name m => exact (beq_name m c).2 ((beq_name m c).1 ((beq_name m b).1 hab ▸ hbc))
    | number x =>
      cases b with
      | name n => cases hab
      | number y =>
        cases c with
        | name n => cases hbc
        | number z =>
          simp only [beq_number, Double.equal, Bool.and_eq_true, beq_iff_eq] at hab hbc ⊢
          exact ⟨⟨hab.1.1, hbc.1.2⟩, hab.2.trans hbc.2⟩

structure Owner where
  type : OwnerType
  prototype : Option Nat
  table : List (Key × Val)
  /-- `table->next_index` -/
  nextIndex : Int
  /-- Of an array. -/
  values : ValueVector Val

structure World where
  owner : Nat → Owner
  /-- The place of the next value that is made. -/
  next : Nat
  /-- `prototypes[PROTOTYPE_OBJECT]` -/
  objectPrototype : Nat

/-- The code of scripts, and how many of its calls are active when the path is set. -/
structure Scripts where
  /-- `callFT` of an accessor with this object and these parameters. -/
  callFT : Val → Nat → List Val → World → World × Val
  /-- The calls of `__get` for an object and a name, and those of `__set`. -/
  getActive : Nat → Key → Nat
  setActive : Nat → Key → Nat
  /-- The object of the counters of a refused call. -/
  counters : Nat
  /-- `setPrototypeValue` -/
  setPrototype : World → Nat → Val → World
  /-- The read of a property of a value that has none of its own. -/
  primitive : World → Val → List Nat → World × Val
  toText : World → Val → World × List Nat

def Scripts.refused (x : Scripts) : List Val := [.owner x.counters, .number (Double.ofInt64 3)]

/-- `syntax_prototype`, "prototype" -/
def syntaxPrototype : List Nat := [112, 114, 111, 116, 111, 116, 121, 112, 101]

def getName : List Nat := [95, 95, 103, 101, 116]
def getAtName : List Nat := getName ++ [64]
def setName : List Nat := [95, 95, 115, 101, 116]
def setAtName : List Nat := setName ++ [64]

namespace World

variable (w : World)

def put (r : Nat) (o : Owner) : World := { w with owner := Function.update w.owner r o }

/-- `pushObjectValue` -/
def newObject : World × Nat :=
  ({ w with
      owner := Function.update w.owner w.next ⟨.object, some w.objectPrototype, [], 0, .empty⟩
      next := w.next + 1 }, w.next)

def isObject : Val → Bool
  | .owner r =>
    match (w.owner r).type with
    | .object | .userdata | .userptr => true
    | _ => false
  | _ => false

def inherited (fuel r : Nat) (key : Key) : Option (Option Val) :=
  match (w.owner r).prototype with
  | none => some none
  | some p => Chain.walk (fun q => (w.owner q).prototype) (fun q => Entries.find (w.owner q).table key) fuel p

/-- `getPropertyValue` of the name of an accessor. -/
def lookup (fuel r : Nat) (key : Key) : Option (Option Val) :=
  match Entries.find (w.owner r).table key with
  | some v => some (some v)
  | none => w.inherited fuel r key

end World

/-- The index that `addProperty` writes. -/
def Owner.addIndex (o : Owner) : Int :=
  match o.type with
  | .array => o.values.items.length
  | _ => o.nextIndex

/-- `addTableProperty`, or `setValue` of the property that is there. -/
def Owner.putProperty (o : Owner) (key : Key) (value : Val) : Owner :=
  match Entries.find o.table key, key with
  | none, .number x =>
    { o with table := Entries.put o.table key value, nextIndex := Core.bumpNextIndex o.nextIndex (.number x) }
  | _, _ => { o with table := Entries.put o.table key value }

/-- The element of an array is set, behind null elements when it is beyond the end; none when there is no room. -/
def Owner.setElement (o : Owner) (x : Double) (value : Val) : Option Owner :=
  let index := Double.toInt64 x
  let i := if 0 ≤ index then index else index + o.values.items.length
  if 0 ≤ i then (o.values.store .null i.toNat value).map fun values => { o with values } else some o

variable (x : Scripts) (enabled : Bool)

/-! ## Reads -/

inductive Reader where
  | own (value : Val)
  /-- Of a prototype, or the prototype itself. -/
  | inherited (value : Val)
  /-- `__get@name` -/
  | named (func : Val)
  /-- `__get` -/
  | generic (func : Val)
  | absent

/-- The lookups of a read in their order; no result when one of them takes more than `fuel` steps. -/
def readerOf (fuel : Nat) (w : World) (r : Nat) (name : List Nat) : Option Reader := do
  match Entries.find (w.owner r).table (.name name) with
  | some value => return .own value
  | none =>
    match ← w.inherited fuel r (.name name) with
    | some value => return .inherited value
    | none =>
      if name = syntaxPrototype then return .inherited ((w.owner r).prototype.elim .null .owner)
      else if enabled then
        match ← w.lookup fuel r (.name (getAtName ++ name)) with
        | some func => return .named func
        | none =>
          match ← w.lookup fuel r (.name getName) with
          | some func => return .generic func
          | none => return .absent
      else return .absent

/-- What a read gives, and what it leaves on the stack. -/
structure Reply where
  world : World
  value : Val
  left : List Val

def Reader.read (w : World) (r : Nat) (name : List Nat) : Reader → Reply
  | .own value | .inherited value => ⟨w, value, []⟩
  | .named func => ⟨(x.callFT func r [] w).1, (x.callFT func r [] w).2, []⟩
  | .generic func =>
    if x.getActive r (.name name) < 3 then
      ⟨(x.callFT func r [.string name] w).1, (x.callFT func r [.string name] w).2, []⟩
    else ⟨w, .null, x.refused⟩
  | .absent => ⟨w, .null, []⟩

/-- `getPropertyValue` with the accessors. -/
def getPropertyValue (fuel : Nat) (w : World) (tableValue : Val) (name : List Nat) : Option Reply :=
  match tableValue with
  | .owner r => (readerOf enabled fuel w r name).map (Reader.read x w r name)
  | value => some ⟨(x.primitive w value name).1, (x.primitive w value name).2, []⟩

/-! ## Writes -/

inductive Writer where
  | element (x : Double)
  | own
  | prototype
  /-- `__set@name` -/
  | named (func : Val)
  /-- There is a `__get@name` and no `__set@name`. -/
  | readonly
  /-- `__set` -/
  | generic (func : Val)
  | absent

/-- The lookup of `__set`. -/
def genericWriter (fuel : Nat) (w : World) (r : Nat) : Option Writer :=
  (w.lookup fuel r (.name setName)).map fun found => found.elim .absent .generic

/-- The lookups of the accessors of a write, in their order. -/
def setterOf (fuel : Nat) (w : World) (r : Nat) : Key → Option Writer
  | .name name => do
    match ← w.lookup fuel r (.name (setAtName ++ name)) with
    | some func => return .named func
    | none =>
      match ← w.lookup fuel r (.name (getAtName ++ name)) with
      | some _ => return .readonly
      | none => genericWriter fuel w r
  | .number _ => genericWriter fuel w r

def writerOf (fuel : Nat) (w : World) (r : Nat) (key : Key) : Option Writer :=
  match (w.owner r).type, key with
  | .array, .number x => some (.element x)
  | _, _ =>
    if (Entries.find (w.owner r).table key).isSome then some .own
    else if key = .name syntaxPrototype then some .prototype
    else if enabled then setterOf fuel w r key
    else some .absent

def Key.val : Key → Val
  | .name bytes => .string bytes
  | .number x => .number x

/-- The world after a write, and what it leaves on the stack; none when there is no room in an array. -/
def Writer.write (w : World) (r : Nat) (key : Key) (value : Val) : Writer → Option (World × List Val)
  | .element i => ((w.owner r).setElement i value).map fun o => (w.put r o, [])
  | .own | .absent => some (w.put r ((w.owner r).putProperty key value), [])
  | .prototype => some (x.setPrototype w r value, [])
  | .named func => some ((x.callFT func r [value] w).1, [])
  -- The exception is set.
  | .readonly => some (w, [])
  | .generic func =>
    if x.setActive r key < 3 then some ((x.callFT func r [key.val, value] w).1, [])
    -- The exception is set, and nothing leaves the macro.
    else some (w.put r ((w.owner r).putProperty key value), x.refused)

def setPropertyValue (fuel : Nat) (w : World) (tableValue : Val) (key : Key) (value : Val) : Option (World × List Val) :=
  match tableValue with
  | .owner r => (writerOf enabled fuel w r key).bind (Writer.write x w r key value)
  | _ => some (w, [])

/-! ## The stack -/

structure State where
  world : World
  stack : List Val

namespace State

variable (s : State)

def push (value : Val) : State := { s with stack := s.stack ++ [value] }
def pop (count : Nat) : State := { s with stack := s.stack.take (s.stack.length - count) }

/-- `getStackValue(-1)` -/
def top : Val := s.stack.getLastD .null

/-- `getStackValue` of a place from the bottom. -/
def getStackValue (offs : Nat) : Val := s.stack.getD offs .null

/-- `removeStackValues` -/
def remove (offs count : Nat) : State := { s with stack := s.stack.take offs ++ s.stack.drop (offs + count) }

/-- `move(-1, offs)` -/
def moveTop (offs : Nat) : State :=
  { s with stack := s.stack.take offs ++ s.top :: (s.stack.dropLast).drop offs }

def newObject : State := { world := s.world.newObject.1, stack := s.stack ++ [Val.owner s.world.newObject.2] }

def toText (value : Val) : State × List Nat :=
  match value with
  | .string bytes => (s, bytes)
  | value => ({ s with world := (x.toText s.world value).1 }, (x.toText s.world value).2)

/-- `getProperty(offs, name)`: the object and the name are pushed for it, and two values under the result removed. -/
def getProperty (fuel offs : Nat) (name : List Nat) : Option State :=
  let object := s.getStackValue offs
  (getPropertyValue x enabled fuel s.world object name).map fun reply =>
    let s : State := ⟨reply.world, s.stack ++ [object, .string name] ++ reply.left ++ [reply.value]⟩
    s.remove (s.stack.length - 3) 2

/-- `setPropertyValue`, and what was pushed for it is popped. -/
def write (fuel : Nat) (object : Val) (key : Key) (count : Nat) : Option State :=
  (setPropertyValue x enabled fuel s.world object key s.top).map fun written =>
    State.pop ⟨written.1, s.stack ++ written.2⟩ count

/-- `setProperty(offs, name)` -/
def setPropertyAt (fuel offs : Nat) (name : List Nat) : Option State :=
  s.write x enabled fuel (s.getStackValue offs) (.name name) 1

def setProperty (fuel : Nat) (name : List Nat) : Option State :=
  s.write x enabled fuel (s.getStackValue (s.stack.length - 2)) (.name name) 2

/-- `Value(i)` of the index that is added. -/
def addKey (r : Nat) : Key := .number (Double.ofInt64 (s.world.owner r).addIndex)

/-- `addProperty(offs)` -/
def addPropertyAt (fuel offs : Nat) : Option State :=
  match s.getStackValue offs with
  | .owner r => s.write x enabled fuel (.owner r) (s.addKey r) 1
  | _ => some (s.pop 2)

def addProperty (fuel : Nat) : Option State :=
  match s.getStackValue (s.stack.length - 2) with
  | .owner r => s.write x enabled fuel (.owner r) (s.addKey r) 2
  | _ => some (s.pop 2)

/-- `pop(getAbsoluteOffs(-1) - offs)` -/
def reject (offs : Nat) : State := s.pop (s.stack.length - 1 - offs)

end State

/-! ## setSmartProperty -/

/-- What `OS_STRCHR("[].", c)` does not find; the zero at its end is found. -/
def isNameChar (c : Nat) : Bool := c ≠ 91 && c ≠ 93 && c ≠ 46 && c ≠ 0

theorem length_behind (c : Nat) (rest : List Nat) : (rest.dropWhile isNameChar).length < (c :: rest).length :=
  Nat.lt_succ_of_le (List.dropWhile_sublist _).length_le

theorem length_behind_tail (c : Nat) (rest : List Nat) : (rest.dropWhile isNameChar).tail.length < (c :: rest).length :=
  Nat.lt_of_le_of_lt (List.tail_sublist _).length_le (length_behind c rest)

theorem length_behind_name {c : Nat} {rest : List Nat} (h : ¬ (c :: rest).takeWhile isNameChar = []) :
    ((c :: rest).dropWhile isNameChar).length < (c :: rest).length := by
  cases hc : isNameChar c with
  | true =>
    rw [List.dropWhile_cons_of_pos hc]
    exact length_behind c rest
  | false => exact absurd (List.takeWhile_cons_of_neg (by simp [hc])) h

inductive Scanned where
  | rejected (s : State)
  | done (s : State)

/-- The loop over the path; `cur` is what is left of it. -/
def scan (offs : Nat) (cur : List Nat) (initialized : Bool) (s : State) : Scanned :=
  match cur with
  | [] => .done s
  | c :: rest =>
    if c = 46 then
      if initialized = false then .rejected (s.reject offs)
      else
        let name := rest.takeWhile isNameChar
        let behind := rest.dropWhile isNameChar
        if name = [] then scan offs behind initialized (s.push .null)
        else scan offs behind true (s.push (.string name))
    else if c = 91 then
      let name := rest.takeWhile isNameChar
      let behind := rest.dropWhile isNameChar
      -- the character behind the name is consumed
      if behind.headD 0 ≠ 93 then .rejected (s.reject offs)
      else if name = [] then
        if initialized = false then .rejected (s.reject offs) else scan offs behind.tail initialized (s.push .null)
      else scan offs behind.tail true (s.push (.string name))
    else if initialized = true then .rejected (s.reject offs)
    else
      let name := (c :: rest).takeWhile isNameChar
      let behind := (c :: rest).dropWhile isNameChar
      if name = [] then .rejected (s.reject offs) else scan offs behind true (s.push (.string name))
termination_by cur.length
decreasing_by
  · exact length_behind c rest
  · exact length_behind c rest
  · exact length_behind_tail c rest
  · exact length_behind_tail c rest
  · exact length_behind_name ‹_›

/-- The object at a name is pushed, a new one where there is none. -/
def pushNext (fuel offs : Nat) (s : State) : Val → Option State
  | .null =>
    let s := s.newObject
    (s.push s.top).addPropertyAt x enabled fuel offs
  | value =>
    let text := s.toText x value
    (text.1.getProperty x enabled fuel offs text.2).bind fun s =>
      if s.world.isObject s.top then some s
      else
        let s := (s.pop 1).newObject
        (s.push s.top).setPropertyAt x enabled fuel offs text.2

/-- A turn of the loop over the names in front of the last one. -/
def walkTurn (fuel offs i : Nat) (s : State) : Option State :=
  (pushNext x enabled fuel offs s (s.getStackValue (offs + 2 + i))).map fun s => (s.moveTop offs).remove (offs + 1) 1

/-- `n` turns from the name `i` on. -/
def walk (fuel offs : Nat) : Nat → Nat → State → Option State
  | 0, _, s => some s
  | n + 1, i, s => (walkTurn x enabled fuel offs i s).bind fun s => walk fuel offs n (i + 1) s

/-- The write at the end, with `count` names over the value. -/
def assignTop (fuel offs count : Nat) (s : State) : Option State :=
  match s.top with
  | .null => (s.remove (offs + 2) count).addProperty x enabled fuel
  | value =>
    let text := s.toText x value
    (text.1.remove (offs + 2) count).setProperty x enabled fuel text.2

/-- `setSmartProperty`; no result when a search takes more than `fuel` steps, or there is no room in an array. -/
def setSmartProperty (fuel : Nat) (path : List Nat) (s : State) : Option (State × Bool) :=
  let offs := s.stack.length - 2
  match scan offs path false s with
  | .rejected s => some (s, false)
  | .done s =>
    let count := s.stack.length - 2 - offs
    ((walk x enabled fuel offs (count - 1) 0 s).bind (assignTop x enabled fuel offs count)).map fun s => (s, true)

/-! ## Paths -/

inductive Component where
  | name (bytes : List Nat)
  | append
deriving DecidableEq, Repr

def IsName (n : List Nat) : Prop := n ≠ [] ∧ ∀ c ∈ n, isNameChar c = true

inductive Follows : List Nat → List Component → Prop where
  | nil : Follows [] []
  | dot {n text : List Nat} {cs : List Component} : IsName n → Follows text cs → Follows (46 :: (n ++ text)) (.name n :: cs)
  | bracket {n text : List Nat} {cs : List Component} : IsName n → Follows text cs →
      Follows (91 :: (n ++ 93 :: text)) (.name n :: cs)
  | append {text : List Nat} {cs : List Component} : Follows text cs → Follows (91 :: 93 :: text) (.append :: cs)

/-- Names joined by dots, names in brackets, and empty brackets that are not the first. -/
inductive Path : List Nat → List Component → Prop where
  | name {n text : List Nat} {cs : List Component} : IsName n → Follows text cs → Path (n ++ text) (.name n :: cs)
  | bracket {n text : List Nat} {cs : List Component} : IsName n → Follows text cs →
      Path (91 :: (n ++ 93 :: text)) (.name n :: cs)

/-! ## The loop over the path -/

def Component.val : Component → Val
  | .name n => .string n
  | .append => .null

theorem Follows.ends {text : List Nat} {cs : List Component} (h : Follows text cs) :
    text = [] ∨ ∃ c r, text = c :: r ∧ isNameChar c = false := by
  cases h with
  | nil => exact .inl rfl
  | dot _ _ => exact .inr ⟨46, _, rfl, rfl⟩
  | bracket _ _ => exact .inr ⟨91, _, rfl, rfl⟩
  | append _ => exact .inr ⟨91, _, rfl, rfl⟩

theorem Path.ne_nil {path : List Nat} {cs : List Component} (h : Path path cs) : cs ≠ [] := by
  cases h with
  | name _ _ => exact List.cons_ne_nil _ _
  | bracket _ _ => exact List.cons_ne_nil _ _

variable (base : List Val)

theorem reject_stack {s : State} {o : Val} {t : List Val} (hstack : s.stack = base ++ o :: t) :
    (s.reject base.length).stack = base ++ [o] := by
  unfold State.reject State.pop
  dsimp only
  rw [hstack]
  have hlen : (base ++ o :: t).length - ((base ++ o :: t).length - 1 - base.length) = (base ++ [o]).length := by
    simp
    omega
  have happ : base ++ o :: t = base ++ [o] ++ t := by simp
  rw [hlen, happ, List.take_left']
  rfl

theorem push_stack {s : State} {o : Val} {t : List Val} (v : Val) (hstack : s.stack = base ++ o :: t) :
    (s.push v).stack = base ++ o :: (t ++ [v]) := by
  unfold State.push
  rw [hstack]
  simp

theorem scan_rejected (o : Val) (offs : Nat) (cur : List Nat) (initialized : Bool) (s : State) {s' : State} (t : List Val)
    (hstack : s.stack = base ++ o :: t) (hoffs : offs = base.length) (h : scan offs cur initialized s = .rejected s') :
    s'.stack = base ++ [o] ∧ s'.world = s.world := by
  have hrefused : ∀ (s : State) (t : List Val), s.stack = base ++ o :: t → Scanned.rejected (s.reject offs) = .rejected s' →
      s'.stack = base ++ [o] ∧ s'.world = s.world := by
    intro s t hs h
    cases h
    rw [hoffs]
    exact ⟨reject_stack base hs, rfl⟩
  fun_induction scan offs cur initialized s generalizing t with
  | case1 => cases h
  | case2 => exact hrefused _ t hstack h
  | case3 =>
    rename_i ih
    exact ih _ (push_stack base _ hstack) h
  | case4 =>
    rename_i ih
    exact ih _ (push_stack base _ hstack) h
  | case5 => exact hrefused _ t hstack h
  | case6 => exact hrefused _ t hstack h
  | case7 =>
    rename_i ih
    exact ih _ (push_stack base _ hstack) h
  | case8 =>
    rename_i ih
    exact ih _ (push_stack base _ hstack) h
  | case9 => exact hrefused _ t hstack h
  | case10 => exact hrefused _ t hstack h
  | case11 =>
    rename_i ih
    exact ih _ (push_stack base _ hstack) h

end PropertyPath
end Objects
end ObjectScript
