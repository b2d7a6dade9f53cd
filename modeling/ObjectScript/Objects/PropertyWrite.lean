import ObjectScript.Core.PrototypeChain
import ObjectScript.Objects.AccessorRecursion
/-!
# The write of a property

`setPropertyValue` tries the elements of an array, the object's own properties, the key `prototype`, a setter of the name, a
getter of the name (the property is then only for reading) and `__set`, and stores the value where none of these is there.

It stores the value, calls one accessor, or raises an exception and stores nothing, except in six cases
(`setPropertyValue_atomic_iff`).  In one of them it does two of the three: a `__set` that is refused because it sets its own
property again raises the exception, and goes on to the plain store (`recursive_set_stores`).  In another it crashes: there
is no room in the array for the nulls up to the index.

Left out is an exception that is pending when the write begins: `callFT` then does nothing.  So is the name that a function
or another collected value gets from the first index it is stored under.
-/
namespace ObjectScript
namespace Objects

open ObjectScript.Core (Ref GCType Value ValueVector Object Number)
open ObjectScript.Core (Heap)

structure AccessorNames where
  /-- `__set@` in front of a string. -/
  __setAt : Ref → Ref
  /-- `__get@` in front of a string. -/
  __getAt : Ref → Ref
  __set : Ref

structure Key (N : Type) where
  value : Value N

instance {N : Type} [Number N] : BEq (Key N) := ⟨fun a b => a.value.equalExactly b.value⟩

/-- A call of `callFT`. -/
structure SetterCall (N : Type) where
  func : Value N
  this : Ref
  params : List (Value N)

/-- The exceptions of `setPropertyValue`, and the one of `callFT` for a value that is no function. -/
inductive SetException (N : Type) where
  | readonlyProperty (index : Value N)
  | recursiveSet (index : Value N)
  | notFunction (func : Value N)

structure SetState (N : Type) where
  heap : Heap N
  guard : RecursionState (Key N)
  /-- The accessors called, and the exceptions raised. -/
  calls : List (SetterCall N)
  exceptions : List (SetException N)

inductive Setter (N : Type) where
  /-- `__set@name` -/
  | named (func : Value N)
  /-- There is a `__get@name` and no `__set@name`. -/
  | readonly
  /-- `__set` -/
  | generic (func : Value N)
  | none

section

variable {N : Type} [Number N]

/-- `callFT` of an accessor; `script` is what the code of functions does to the values there are. -/
def SetState.callFT (s : SetState N) (script : SetterCall N → Heap N → Heap N) (call : SetterCall N) : SetState N :=
  match call.func with
  | .gc .function _ | .gc .cfunction _ => { s with heap := script call s.heap, calls := call :: s.calls }
  | .null => s
  | func => { s with exceptions := .notFunction func :: s.exceptions }

/-- The lookups of an accessor, in the order `setPropertyValue` makes them; no result when one of them does not end in
`fuel` steps. -/
def setterOf (fuel : Nat) (names : AccessorNames) (h : Heap N) (tableValue : Ref) (index : Value N) : Option (Setter N) :=
  let generic : Option (Setter N) :=
    (h.getPropertyValue fuel tableValue (.gc .string names.__set) true).map fun found => found.elim .none .generic
  match index with
  | .gc .string name => do
    match ← h.getPropertyValue fuel tableValue (.gc .string (names.__setAt name)) true with
    | some func => some (.named func)
    | none =>
      match ← h.getPropertyValue fuel tableValue (.gc .string (names.__getAt name)) true with
      | some _ => some .readonly
      | none => generic
  | _ => generic

/-- `setPropertyValue`, behind the object's own properties and the key `prototype`. -/
def setNewProperty (fuel : Nat) (names : AccessorNames) (script : SetterCall N → Heap N → Heap N) (h : Heap N)
    (guard : RecursionState (Key N)) (tableValue : Ref) (o : Object N) (index value : Value N) (setterEnabled : Bool) :
    Option (SetState N) :=
  if setterEnabled then do
    match ← setterOf fuel names h tableValue index with
    | .named func => some (SetState.callFT ⟨h, guard, [], []⟩ script ⟨func, tableValue, [value]⟩)
    | .readonly => some ⟨h, guard, [], [.readonlyProperty index]⟩
    | .generic func =>
      let call : AccessorCall (Key N) := ⟨.set, tableValue, ⟨index⟩⟩
      let pushed := guard.pushRecursion call
      if pushed.1 then
        let s := SetState.callFT ⟨h, pushed.2, [], []⟩ script ⟨func, tableValue, [index, value]⟩
        some { s with guard := s.guard.popRecursion call }
      else
        -- The exception is set, and nothing leaves the macro.
        some ⟨h.set tableValue (o.addProperty index value), pushed.2, [], [.recursiveSet index]⟩
    | .none => some ⟨h.set tableValue (o.addProperty index value), guard, [], []⟩
  else some ⟨h.set tableValue (o.addProperty index value), guard, [], []⟩

/-- `setPropertyValue` of a collected value that is no string. -/
def setPropertyValue (fuel : Nat) (names : AccessorNames) (script : SetterCall N → Heap N → Heap N) (h : Heap N)
    (guard : RecursionState (Key N)) (tableValue : Ref) (index value : Value N) (setterEnabled : Bool) :
    Option (SetState N) := do
  let o ← h.object tableValue
  match o.type, index with
  | .array, .number x => (o.setElement x value).map fun o => ⟨h.set tableValue o, guard, [], []⟩
  | _, _ =>
    if (o.get index).isSome then some ⟨h.set tableValue (o.setProperty index value), guard, [], []⟩
    else if index.equalExactly (.gc .string h.syntaxPrototype) then
      some ⟨h.writePrototype tableValue o value, guard, [], []⟩
    else setNewProperty fuel names script h guard tableValue o index value setterEnabled

def rawRead (h : Heap N) (tableValue : Ref) (index : Value N) : Option (Value N) :=
  (h.getPropertyValue 0 tableValue index false).map fun found => found.getD .null

/-! ## What a write is to do -/

def Stored (tableValue : Ref) (index value : Value N) (s : SetState N) : Prop :=
  s.calls = [] ∧ s.exceptions = [] ∧ rawRead s.heap tableValue index = some value

/-- One accessor was called, and the values are as it left them. -/
def Called (script : SetterCall N → Heap N → Heap N) (h : Heap N) (s : SetState N) : Prop :=
  ∃ call, s.calls = [call] ∧ s.exceptions = [] ∧ s.heap = script call h

/-- There is an exception, and the values are as they were. -/
def Raised (h : Heap N) (s : SetState N) : Prop := s.calls = [] ∧ s.exceptions ≠ [] ∧ s.heap = h

/-- The write ends, and does one of the three; no two of them go together. -/
def Atomic (names : AccessorNames) (script : SetterCall N → Heap N → Heap N) (h : Heap N) (guard : RecursionState (Key N))
    (tableValue : Ref) (index value : Value N) (setterEnabled : Bool) : Prop :=
  ∃ fuel s, setPropertyValue fuel names script h guard tableValue index value setterEnabled = some s ∧
    (Stored tableValue index value s ∨ Called script h s ∨ Raised h s)

/-- An index that is equal to itself: every one that is no NaN. -/
def Findable (index : Value N) : Prop := index.equalExactly index = true

/-- What takes the write is a value that is called or refused by `callFT`, and a `__set` is not active three times for this
object and index. -/
def Setter.Takes (guard : RecursionState (Key N)) (tableValue : Ref) (index value : Value N) : Setter N → Prop
  | .named func => func ≠ .null ∨ value = .null
  | .readonly => True
  | .generic func =>
    (∀ n, guard.counter ⟨.set, tableValue, ⟨index⟩⟩ = some n → n < 3) ∧ (func ≠ .null ∨ value = .null)
  | .none => Findable index ∨ value = .null

/-- When a write does one thing.  A null is also what is read where nothing was stored. -/
def WritesOnce (names : AccessorNames) (h : Heap N) (guard : RecursionState (Key N)) (tableValue : Ref) (o : Object N)
    (index value : Value N) (setterEnabled : Bool) : Prop :=
  match o.type, index with
  | .array, .number x =>
    (∀ i, o.position x = some i → ValueVector.Fits o.values.capacity i) ∧ (o.position x = none → value = .null)
  | _, _ =>
    if (o.get index).isSome then True
    else if index.equalExactly (.gc .string h.syntaxPrototype) then value.getGCValue.isSome ∨ value = .null
    else if setterEnabled then ∃ fuel setter, setterOf fuel names h tableValue index = some setter ∧
      setter.Takes guard tableValue index value
    else Findable index ∨ value = .null

/-! ## Reading what was written -/

variable {h : Heap N} {tableValue : Ref} {o : Object N} {index value : Value N}

theorem rawRead_eq (ho : h.object tableValue = some o) : rawRead h tableValue index =
    some ((o.element index).getD ((o.get index).getD
      (if index.equalExactly (.gc .string h.syntaxPrototype) then (o.prototype.bind h.valueOf).getD .null else .null))) := by
  rw [rawRead, Heap.getPropertyValue, ho]
  simp only [Option.bind_eq_bind, Option.bind_some]
  cases o.element index with
  | some v => rfl
  | none =>
    cases o.get index with
    | some v => rfl
    | none =>
      by_cases hproto : index.equalExactly (.gc .string h.syntaxPrototype) = true
      · cases o.prototype <;> simp [hproto]
      · cases o.prototype <;> simp [hproto]

omit [Number N] in
theorem object_set (h : Heap N) (tableValue : Ref) (o : Object N) : (h.set tableValue o).object tableValue = some o := by
  simp only [Heap.set, Function.update_self]

theorem get_setProperty (o : Object N) (index value : Value N) :
    (o.setProperty index value).get index = (o.get index).map fun _ => value := by
  rw [Object.get, Object.setProperty, Object.get]
  cases o.table with
  | none => rfl
  | some table =>
    simp only [Option.map_some, Option.bind_some]
    induction table with
    | nil => rfl
    | cons p table ih =>
      rw [List.map_cons, List.find?_cons, List.find?_cons]
      by_cases hp : p.1.equalExactly index = true
      · simp only [hp, if_true]
        rfl
      · rw [if_neg hp, Bool.eq_false_iff.2 hp]
        exact ih

theorem get_addProperty (o : Object N) (index value : Value N) (hnone : o.get index = none) :
    (o.addProperty index value).get index = if index.equalExactly index then some value else none := by
  rw [Object.get, Option.bind_eq_none_iff] at hnone
  have hnew : ([(index, value)] : List (Value N × Value N)).find? (fun p => p.1.equalExactly index) =
      if index.equalExactly index then some (index, value) else none := by
    rw [List.find?_cons]
    cases index.equalExactly index <;> rfl
  rw [Object.get, Object.addProperty, Option.bind_some, List.find?_append, hnew]
  cases htable : o.table with
  | none => split <;> rfl
  | some table =>
    have hfind := hnone table htable
    rw [Option.map_eq_none_iff] at hfind
    rw [Option.getD_some, hfind, Option.none_or]
    split <;> rfl

omit [Number N] in
theorem addProperty_ne (o : Object N) (index value : Value N) : o.addProperty index value ≠ o := by
  intro h
  have htable := congrArg (fun o => (o.table.getD []).length) h
  simp only [Object.addProperty, Option.getD_some, List.length_append, List.length_singleton] at htable
  omega

theorem position_congr {o' : Object N} {x : N}
    (hlen : Number.toInt x < 0 → o'.values.items.length = o.values.items.length) : o'.position x = o.position x := by
  rw [Object.position, Object.position]
  by_cases hle : 0 ≤ Number.toInt x
  · rw [if_pos hle, if_pos hle]
  · rw [if_neg hle, if_neg hle, hlen (Int.not_le.1 hle)]

theorem position_lt {x : N} {i : Nat} (hpos : o.position x = some i) (hneg : Number.toInt x < 0) : i < o.values.items.length := by
  rw [Object.position, if_neg (Int.not_le.2 hneg)] at hpos
  split at hpos
  · have hi := Option.some.inj hpos
    omega
  · cases hpos

/-- The write of an element: there is none in front of an array, or it is there afterwards, or there is no room for it. -/
theorem setElement_cases (o : Object N) (x : N) (value : Value N) (harray : o.type = .array) :
    (o.position x = none ∧ o.setElement x value = some o ∧ o.element (.number x) = some .null) ∨
    (∃ i o', o.position x = some i ∧ o.setElement x value = some o' ∧ ValueVector.Fits o.values.capacity i ∧
      o'.element (.number x) = some value) ∨
    (∃ i, o.position x = some i ∧ o.setElement x value = none ∧ ¬ ValueVector.Fits o.values.capacity i) := by
  have helement : ∀ o' : Object N, o'.type = .array → ∀ pos, o'.position x = pos →
      o'.element (.number x) = some (pos.elim .null fun i => o'.values.items.getD i .null) := by
    intro o' htype pos hpos
    unfold Object.element
    rw [htype, ← hpos]
  rw [Object.setElement]
  cases hpos : o.position x with
  | none => exact .inl ⟨rfl, rfl, helement o harray _ hpos⟩
  | some i =>
    rcases ValueVector.store_cases .null i value o.values with ⟨w, hw, hfits, hitems⟩ | ⟨hnone, hnot⟩
    · refine .inr (.inl ⟨i, { o with values := w }, rfl, by simp only [hw, Option.map_some], hfits, ?_⟩)
      have hplace : Object.position { o with values := w } x = some i := by
        refine (position_congr fun hneg => ?_).trans hpos
        exact (congrArg List.length hitems).trans (ValueVector.length_written (position_lt hpos hneg) value)
      rw [helement { o with values := w } harray _ hplace, Option.elim_some, hitems, ValueVector.getD_written]
    · exact .inr (.inr ⟨i, rfl, by simp only [hnone, Option.map_none], hnot⟩)

def OutOfElements (o : Object N) (index : Value N) : Prop := o.type ≠ .array ∨ ∀ x, index ≠ .number x

theorem OutOfElements.element (hout : OutOfElements o index) (o' : Object N) (htype : o'.type = o.type) :
    o'.element index = none := by
  unfold Object.element
  rw [htype]
  split
  · rename_i harray
    rcases hout with hne | hne
    · exact absurd harray hne
    · exact absurd rfl (hne _)
  · rfl

/-- Where the write does not depend on the accessors there is one result. -/
theorem atomic_of_eq {names : AccessorNames} {script : SetterCall N → Heap N → Heap N} {guard : RecursionState (Key N)}
    {setterEnabled : Bool} {s : SetState N}
    (hs : ∀ fuel, setPropertyValue fuel names script h guard tableValue index value setterEnabled = some s) :
    Atomic names script h guard tableValue index value setterEnabled ↔
      Stored tableValue index value s ∨ Called script h s ∨ Raised h s := by
  constructor
  · intro ⟨fuel, s', hs', hdone⟩
    rw [hs fuel] at hs'
    exact Option.some.inj hs' ▸ hdone
  · exact fun hdone => ⟨0, s, hs 0, hdone⟩

/-- A write without calls and exceptions is one that stores the value. -/
theorem plain_iff {script : SetterCall N → Heap N → Heap N} {h' : Heap N} {guard : RecursionState (Key N)} :
    (Stored tableValue index value ⟨h', guard, [], []⟩ ∨ Called script h ⟨h', guard, [], []⟩ ∨
      Raised h ⟨h', guard, [], []⟩) ↔ rawRead h' tableValue index = some value := by
  constructor
  · rintro (hstored | ⟨call, hcall, -⟩ | ⟨-, hexc, -⟩)
    · exact hstored.2.2
    · cases hcall
    · exact absurd rfl hexc
  · exact fun hread => .inl ⟨rfl, rfl, hread⟩

theorem rawRead_add (hout : OutOfElements o index) (hnone : o.get index = none)
    (hproto : ¬ index.equalExactly (.gc .string h.syntaxPrototype) = true) :
    rawRead (h.set tableValue (o.addProperty index value)) tableValue index = some value ↔
      Findable index ∨ value = .null := by
  rw [rawRead_eq (object_set h tableValue _), hout.element (o.addProperty index value) rfl, get_addProperty o index value hnone, Findable,
    show (h.set tableValue (o.addProperty index value)).syntaxPrototype = h.syntaxPrototype from rfl, if_neg hproto]
  by_cases hself : index.equalExactly index = true
  · rw [if_pos hself]
    exact iff_of_true rfl (.inl hself)
  · rw [if_neg hself]
    constructor
    · exact fun hread => .inr (Option.some.inj hread).symm
    · rintro (hself' | rfl)
      · exact absurd hself' hself
      · rfl

theorem rawRead_absent (ho : h.object tableValue = some o) (hout : OutOfElements o index) (hnone : o.get index = none)
    (hproto : ¬ index.equalExactly (.gc .string h.syntaxPrototype) = true) : rawRead h tableValue index = some .null := by
  rw [rawRead_eq ho, hout.element o rfl, hnone, if_neg hproto]
  rfl

theorem rawRead_prototype (ho : h.object tableValue = some o) (hout : OutOfElements o index) (hnone : o.get index = none)
    (hproto : index.equalExactly (.gc .string h.syntaxPrototype) = true) (hvalue : h.there value = true) :
    rawRead (h.writePrototype tableValue o value) tableValue index = some value ↔ value.getGCValue.isSome ∨ value = .null := by
  have hget : Object.get { o with prototype := value.getGCValue } index = none := hnone
  rw [Heap.writePrototype, rawRead_eq (object_set h tableValue _), hout.element { o with prototype := value.getGCValue } rfl, hget,
    if_pos (show index.equalExactly (.gc .string (h.set tableValue _).syntaxPrototype) = true from hproto)]
  have hnotGc : ∀ v : Value N, v.getGCValue = none → (some Value.null = some v ↔ v.getGCValue.isSome ∨ v = .null) := by
    intro v hv
    rw [hv, Option.some.injEq, eq_comm]
    exact ⟨.inr, fun h => h.resolve_left Bool.false_ne_true⟩
  cases value with
  | null => exact hnotGc _ rfl
  | bool b => exact hnotGc _ rfl
  | number x => exact hnotGc _ rfl
  | gc type r =>
    refine iff_of_true ?_ (.inl rfl)
    -- The value is one of this type, also when it is the object itself.
    have htype : (h.set tableValue { o with prototype := some r }).valueOf r = some (.gc type r) := by
      rw [Heap.valueOf, Heap.set]
      by_cases hself : r = tableValue
      · subst hself
        rw [Heap.there, ho, Option.any_some, beq_iff_eq] at hvalue
        simp only [Function.update_self, Option.map_some, hvalue]
      · simp only [Function.update_of_ne hself]
        rw [Heap.there, Option.any_eq_true] at hvalue
        obtain ⟨o', ho', htype⟩ := hvalue
        rw [ho', Option.map_some, beq_iff_eq.1 htype]
    exact congrArg (fun v => some (Option.getD v .null)) htype

/-- What `callFT` does with the value of an accessor: it calls it, refuses it, or passes over a null. -/
theorem callFT_iff {script : SetterCall N → Heap N → Heap N} {guard guard' : RecursionState (Key N)} {call : SetterCall N}
    {s : SetState N} (hs : s = { SetState.callFT ⟨h, guard, [], []⟩ script call with guard := guard' })
    (hread : rawRead h tableValue index = some .null) :
    (Stored tableValue index value s ∨ Called script h s ∨ Raised h s) ↔ call.func ≠ .null ∨ value = .null := by
  have hplain : s = ⟨h, guard', [], []⟩ → ((Stored tableValue index value s ∨ Called script h s ∨ Raised h s) ↔
      value = .null) := by
    rintro rfl
    rw [plain_iff, hread, Option.some.injEq, eq_comm]
  have hcalled : s = ⟨script call h, guard', [call], []⟩ → (Stored tableValue index value s ∨ Called script h s ∨ Raised h s) := by
    rintro rfl
    exact .inr (.inl ⟨call, rfl, rfl, rfl⟩)
  have hrefused : ∀ func, s = ⟨h, guard', [], [.notFunction func]⟩ →
      (Stored tableValue index value s ∨ Called script h s ∨ Raised h s) := by
    rintro func rfl
    exact .inr (.inr ⟨rfl, List.cons_ne_nil _ _, rfl⟩)
  rw [SetState.callFT] at hs
  cases hfunc : call.func with
  | null =>
    rw [hfunc] at hs
    rw [hplain hs]
    exact ⟨.inr, fun h => h.resolve_left fun hne => hne rfl⟩
  | bool b =>
    rw [hfunc] at hs
    exact iff_of_true (hrefused _ hs) (.inl fun hnull => by cases hnull)
  | number x =>
    rw [hfunc] at hs
    exact iff_of_true (hrefused _ hs) (.inl fun hnull => by cases hnull)
  | gc type r =>
    rw [hfunc] at hs
    refine iff_of_true ?_ (.inl fun hnull => by cases hnull)
    cases type with
    | function => exact hcalled hs
    | cfunction => exact hcalled hs
    | string => exact hrefused _ hs
    | array => exact hrefused _ hs
    | object => exact hrefused _ hs
    | userdata => exact hrefused _ hs
    | userptr => exact hrefused _ hs

theorem pushRecursion_fst {κ : Type} [BEq κ] (guard : RecursionState κ) (call : AccessorCall κ) :
    (guard.pushRecursion call).1 = true ↔ ∀ n, guard.counter call = some n → n < 3 := by
  rw [RecursionState.pushRecursion, RecursionState.counter]
  cases Entries.find (guard.root call.accessor) call.obj with
  | none => exact iff_of_true rfl fun n hn => by cases hn
  | some object =>
    rw [Option.bind_some]
    cases hname : Entries.find object call.name with
    | none => exact iff_of_true (by simp only [hname]) fun n hn => by cases hn
    | some count =>
      simp only [hname]
      have hlt : (∀ n, some count = some n → n < 3) ↔ count + 1 < 4 := by
        constructor
        · exact fun hall => Nat.succ_lt_succ (hall count rfl)
        · intro hlt n hn
          obtain rfl := Option.some.inj hn
          exact Nat.lt_of_succ_lt_succ hlt
      rw [hlt]
      by_cases hcount : count + 1 < 4
      · simp only [hcount, if_true]
      · simp only [hcount, if_false, Bool.false_eq_true]

section

variable {names : AccessorNames} {script : SetterCall N → Heap N → Heap N} {guard : RecursionState (Key N)} {setterEnabled : Bool}

theorem setPropertyValue_eq (ho : h.object tableValue = some o) (hout : OutOfElements o index) (fuel : Nat) :
    setPropertyValue fuel names script h guard tableValue index value setterEnabled =
      if (o.get index).isSome then some ⟨h.set tableValue (o.setProperty index value), guard, [], []⟩
      else if index.equalExactly (.gc .string h.syntaxPrototype) then
        some ⟨h.writePrototype tableValue o value, guard, [], []⟩
      else setNewProperty fuel names script h guard tableValue o index value setterEnabled := by
  rw [setPropertyValue, ho]
  simp only [Option.bind_eq_bind, Option.bind_some]
  split
  · rename_i harray
    rcases hout with hne | hne
    · exact absurd harray hne
    · exact absurd rfl (hne _)
  · rfl

/-- **Without setters** a write is that of the heap alone. -/
theorem setPropertyValue_plain (ho : h.object tableValue = some o) (hstring : o.type ≠ .string) (fuel : Nat) :
    setPropertyValue fuel names script h guard tableValue index value false =
      (h.setPropertyValue tableValue index value false).map fun h => ⟨h, guard, [], []⟩ := by
  have hvalue : h.valueOf tableValue = some (.gc o.type tableValue) := by
    rw [Heap.valueOf, ho]
    rfl
  have hprototype : h.setPrototypeValue (.gc o.type tableValue) value none = some (h.writePrototype tableValue o value) := by
    cases htype : o.type with
    | string => exact absurd htype hstring
    | _ => simp [Heap.setPrototypeValue, ho]
  have hplain : (if (o.get index).isSome then some ⟨h.set tableValue (o.setProperty index value), guard, [], []⟩
      else if index.equalExactly (.gc .string h.syntaxPrototype) then some ⟨h.writePrototype tableValue o value, guard, [], []⟩
      else setNewProperty fuel names script h guard tableValue o index value false) =
      (if (o.get index).isSome then some (h.set tableValue (o.setProperty index value))
        else if index.equalExactly (.gc .string h.syntaxPrototype) then
          (h.valueOf tableValue).bind fun v => h.setPrototypeValue v value none
        else some (h.set tableValue (o.addProperty index value))).map fun h => ⟨h, guard, [], []⟩ := by
    rw [hvalue, Option.bind_some, hprototype, setNewProperty]
    split
    · rfl
    · split <;> rfl
  rw [setPropertyValue, Heap.setPropertyValue, ho]
  simp only [Option.bind_eq_bind, Option.bind_some]
  cases htype : o.type with
  | string => exact absurd htype hstring
  | array =>
    cases index with
    | number x =>
      show (o.setElement x value).map _ = ((o.setElement x value).map _).map _
      rw [Option.map_map]
      rfl
    | _ => exact hplain
  | _ => exact hplain

theorem writesOnce_eq (hout : OutOfElements o index) : WritesOnce names h guard tableValue o index value setterEnabled =
    if (o.get index).isSome then True
    else if index.equalExactly (.gc .string h.syntaxPrototype) then value.getGCValue.isSome ∨ value = .null
    else if setterEnabled then ∃ fuel setter, setterOf fuel names h tableValue index = some setter ∧
      setter.Takes guard tableValue index value
    else Findable index ∨ value = .null := by
  unfold WritesOnce
  split
  · rename_i harray
    rcases hout with hne | hne
    · exact absurd harray hne
    · exact absurd rfl (hne _)
  · rfl

/-- **What takes the write of a new property.** -/
theorem setter_takes (ho : h.object tableValue = some o) (hout : OutOfElements o index) (hnone : o.get index = none)
    (hproto : ¬ index.equalExactly (.gc .string h.syntaxPrototype) = true) {fuel : Nat} {setter : Setter N}
    (hsetter : setterOf fuel names h tableValue index = some setter) :
    (∃ s, setNewProperty fuel names script h guard tableValue o index value true = some s ∧
      (Stored tableValue index value s ∨ Called script h s ∨ Raised h s)) ↔ setter.Takes guard tableValue index value := by
  have habsent := rawRead_absent ho hout hnone hproto
  rw [setNewProperty, if_pos rfl, hsetter]
  simp only [Option.bind_eq_bind, Option.bind_some]
  cases setter with
  | named func =>
    simp only [Option.some.injEq, exists_eq_left']
    exact callFT_iff rfl habsent
  | readonly =>
    simp only [Option.some.injEq, exists_eq_left']
    exact iff_of_true (.inr (.inr ⟨rfl, List.cons_ne_nil _ _, rfl⟩)) trivial
  | generic func =>
    rw [Setter.Takes, ← pushRecursion_fst]
    by_cases hpushed : (guard.pushRecursion ⟨.set, tableValue, ⟨index⟩⟩).1 = true
    · simp only [hpushed, if_true, Option.some.injEq, exists_eq_left', true_and]
      exact callFT_iff rfl habsent
    · simp only [hpushed, if_false, Option.some.injEq, exists_eq_left', false_and, Bool.false_eq_true, iff_false]
      rintro (⟨-, hexc, -⟩ | ⟨call, hcall, -⟩ | ⟨-, -, hsame⟩)
      · cases hexc
      · cases hcall
      · have hobject := object_set h tableValue (o.addProperty index value)
        rw [show h.set tableValue (o.addProperty index value) = h from hsame, ho] at hobject
        exact addProperty_ne o index value (Option.some.inj hobject).symm
  | none =>
    simp only [Option.some.injEq, exists_eq_left']
    exact plain_iff.trans (rawRead_add hout hnone hproto)

/-- **The write of a property**: it stores the value, calls one accessor or raises an exception and stores nothing, exactly
when no element in front of an array is written and none there is no room for, no prototype is to be a value that is not
collected, no property is stored under NaN, the accessor is not null, and a `__set` is not refused. -/
theorem setPropertyValue_atomic_iff (names : AccessorNames) (script : SetterCall N → Heap N → Heap N) (h : Heap N)
    (guard : RecursionState (Key N)) (tableValue : Ref) (o : Object N) (index value : Value N) (setterEnabled : Bool)
    (ho : h.object tableValue = some o) (hvalue : h.there value = true) :
    Atomic names script h guard tableValue index value setterEnabled ↔
      WritesOnce names h guard tableValue o index value setterEnabled := by
  by_cases hout : OutOfElements o index
  · rw [writesOnce_eq hout]
    cases hget : o.get index with
    | some v =>
      rw [Option.isSome_some, if_pos rfl, atomic_of_eq fun fuel => by rw [setPropertyValue_eq ho hout, hget]; rfl, plain_iff]
      refine iff_of_true ?_ trivial
      rw [rawRead_eq (object_set h tableValue _), hout.element (o.setProperty index value) rfl, get_setProperty, hget]
      rfl
    | none =>
      rw [Option.isSome_none, if_neg Bool.false_ne_true]
      by_cases hproto : index.equalExactly (.gc .string h.syntaxPrototype) = true
      · rw [if_pos hproto, atomic_of_eq fun fuel => by rw [setPropertyValue_eq ho hout, hget, if_pos hproto]; rfl, plain_iff]
        exact rawRead_prototype ho hout hget hproto hvalue
      · rw [if_neg hproto]
        cases setterEnabled with
        | false =>
          rw [if_neg Bool.false_ne_true, atomic_of_eq fun fuel => by
            rw [setPropertyValue_eq ho hout, hget, if_neg hproto]; rfl, plain_iff]
          exact rawRead_add hout hget hproto
        | true =>
          rw [if_pos rfl, Atomic]
          simp only [setPropertyValue_eq ho hout, hget, if_neg hproto, Option.isSome_none, Bool.false_eq_true, if_false]
          constructor
          · intro ⟨fuel, s, hs, hdone⟩
            have hs' := hs
            rw [setNewProperty, if_pos rfl] at hs'
            obtain ⟨setter, hsetter, -⟩ := Option.bind_eq_some_iff.1 hs'
            exact ⟨fuel, setter, hsetter, (setter_takes ho hout hget hproto hsetter).1 ⟨s, hs, hdone⟩⟩
          · intro ⟨fuel, setter, hsetter, htakes⟩
            obtain ⟨s, hs, hdone⟩ := (setter_takes ho hout hget hproto hsetter).2 htakes
            exact ⟨fuel, s, hs, hdone⟩
  · obtain ⟨harray, x, rfl⟩ : o.type = .array ∧ ∃ x, index = .number x := by
      simpa only [OutOfElements, not_or, not_not, not_forall, ne_eq] using hout
    have heq : ∀ fuel, setPropertyValue fuel names script h guard tableValue (.number x) value setterEnabled =
        (o.setElement x value).map fun o => ⟨h.set tableValue o, guard, [], []⟩ := by
      intro fuel
      rw [setPropertyValue, ho]
      simp only [Option.bind_eq_bind, Option.bind_some, harray]
    simp only [WritesOnce, harray]
    rcases setElement_cases o x value harray with ⟨hpos, hset, hread⟩ | ⟨i, o', hpos, hset, hfits, hread⟩ | ⟨i, hpos, hset, hnot⟩
    · rw [atomic_of_eq fun fuel => (heq fuel).trans (by rw [hset]; rfl), plain_iff, rawRead_eq (object_set h tableValue _), hread,
        hpos, Option.getD_some, Option.some.injEq, eq_comm]
      exact ⟨fun hnull => ⟨fun i hi => (by cases hi), fun _ => hnull⟩, fun hall => hall.2 rfl⟩
    · rw [atomic_of_eq fun fuel => (heq fuel).trans (by rw [hset]; rfl), plain_iff, rawRead_eq (object_set h tableValue _), hread,
        hpos]
      exact iff_of_true rfl ⟨fun j hj => Option.some.inj hj ▸ hfits, fun hnone => (by cases hnone)⟩
    · refine iff_of_false ?_ fun hall => hnot (hall.1 i hpos)
      rintro ⟨fuel, s, hs, -⟩
      rw [heq, hset] at hs
      cases hs

end

end

/-! ## A `__set` that sets its own property -/

def exampleNames : AccessorNames := ⟨fun r => 100 + r, fun r => 200 + r, 20⟩

/-- An object with a `__set` and no other property. -/
def withSetter : Heap Int where
  object r := if r = 0 then some ⟨.object, none, some [(.gc .string 20, .gc .function 5)], .empty, 0⟩ else none
  nextId := 6
  prototypes _ := 0
  syntaxPrototype := 12
  instantiable := 13

/-- `__set` is active this many times for the property 7 of the object. -/
def activeSetters (n : Nat) : RecursionState (Key Int) := ⟨[], [(0, [(⟨.gc .string 7⟩, n)])], []⟩

/-- The second write of the property, from `__set` itself, calls it again. -/
theorem set_property_nested : Atomic exampleNames (fun _ h => h) withSetter (activeSetters 1) 0 (.gc .string 7) (.number 3) true :=
  (setPropertyValue_atomic_iff exampleNames (fun _ h => h) withSetter (activeSetters 1) 0
    ⟨.object, none, some [(.gc .string 20, .gc .function 5)], .empty, 0⟩ (.gc .string 7) (.number 3) true rfl rfl).2
    ⟨0, .generic (.gc .function 5), rfl, fun n hn => by cases hn; decide, .inl fun hnull => by cases hnull⟩

/-- **The fourth write of the property** raises the exception, and stores the value. -/
theorem recursive_set_stores : ¬ ∀ (names : AccessorNames) (script : SetterCall Int → Heap Int → Heap Int) (h : Heap Int)
    (guard : RecursionState (Key Int)) (tableValue : Ref) (index value : Value Int) (setterEnabled : Bool),
    (h.object tableValue).isSome → h.there value = true →
      Atomic names script h guard tableValue index value setterEnabled := by
  intro hall
  obtain ⟨fuel, s, hs, hdone⟩ := hall exampleNames (fun _ h => h) withSetter (activeSetters 3) 0 (.gc .string 7) (.number 3) true
    rfl rfl
  have hnew : setNewProperty fuel exampleNames (fun _ h => h) withSetter (activeSetters 3) 0
      ⟨.object, none, some [(.gc .string 20, .gc .function 5)], .empty, 0⟩ (.gc .string 7) (.number 3) true = some s := hs
  have hsetter : setterOf fuel exampleNames withSetter 0 (.gc .string 7) = some (.generic (.gc .function 5)) := rfl
  have htakes := (setter_takes rfl (.inl (by decide)) rfl (by decide) hsetter).1 ⟨s, hnew, hdone⟩
  exact absurd (htakes.1 3 rfl) (by decide)

end Objects
end ObjectScript
