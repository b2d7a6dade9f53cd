import Mathlib.Data.List.Nodup
import ObjectScript.Lib.Entries
/-!
# The initialisation of an instance

A class lists in its property `__object` the properties its instances start with.  `initNewInstance` goes along the
prototypes of the instance, from the most distant class to the nearest, puts these properties into the instance, and clones
their values.  An instance without properties has everything put in first and then cloned; one with properties of its own
has the properties of the nearest class cloned, and those of all the others put in as they are
(`holds_clones_iff`, `instances_share`).

A call of `clone` gives a token of its own; what its code does to the tables is left out, and so is an instance that is an
array, where a numeric key of `__object` is an index.
-/
namespace ObjectScript
namespace Objects

open Entries

/-- The properties of an `__object`. -/
structure Properties (κ V : Type) [BEq κ] where
  entries : List (κ × V)
  distinct : Distinct entries

inductive Held (V : Type) where
  /-- The value that was put in. -/
  | given (value : V)
  /-- What this call of `clone` returned for the value. -/
  | cloned (value : V) (call : Nat)
deriving DecidableEq

namespace Held

variable {V : Type}

def value : Held V → V
  | given v => v
  | cloned v _ => v

def call : Held V → Option Nat
  | given _ => none
  | cloned _ n => some n

end Held

variable {κ V : Type} [BEq κ]

/-- An instance, and how many calls of `clone` there were. -/
structure Initialised (κ V : Type) where
  object : List (κ × Held V)
  calls : Nat

/-- The loop of `setProperties_r`. -/
def setProperties : List (κ × V) → List (κ × Held V) → List (κ × Held V)
  | [], object => object
  | (index, value) :: props, object => setProperties props (put object index (.given value))

/-- `setProperties_r`; the nearest class is the first, and a class without `__object` is `none`. -/
def setProperties_r : List (Option (Properties κ V)) → List (κ × Held V) → List (κ × Held V)
  | [], object => object
  | objectProps :: prototype, object =>
    let object := setProperties_r prototype object
    match objectProps with
    | some props => setProperties props.entries object
    | none => object

/-- The loop of `setAndCloneProperties_r`. -/
def setAndCloneProperties : List (κ × V) → Initialised κ V → Initialised κ V
  | [], s => s
  | (index, value) :: props, s =>
    setAndCloneProperties props ⟨put s.object index (.cloned value s.calls), s.calls + 1⟩

/-- `setAndCloneProperties_r` goes on to `setProperties_r`. -/
def setAndCloneProperties_r : List (Option (Properties κ V)) → Initialised κ V → Initialised κ V
  | [], s => s
  | objectProps :: prototype, s =>
    let s : Initialised κ V := ⟨setProperties_r prototype s.object, s.calls⟩
    match objectProps with
    | some props => setAndCloneProperties props.entries s
    | none => s

def cloneProperties : List (κ × Held V) → Nat → Initialised κ V
  | [], calls => ⟨[], calls⟩
  | (index, held) :: object, calls =>
    let s := cloneProperties object (calls + 1)
    ⟨(index, .cloned held.value calls) :: s.object, s.calls⟩

/-- An instance that is to be initialised: its classes, the nearest first, and its own properties. -/
structure NewInstance (κ V : Type) [BEq κ] where
  prototype : List (Option (Properties κ V))
  own : List (κ × V)

def initNewInstance (o : NewInstance κ V) (calls : Nat) : Initialised κ V :=
  let object := o.own.map fun p => (p.1, Held.given p.2)
  if o.own.length = 0 then cloneProperties (setProperties_r o.prototype object) calls
  else setAndCloneProperties_r o.prototype ⟨object, calls⟩

def initInstances : List (NewInstance κ V) → Nat → List (List (κ × Held V))
  | [], _ => []
  | o :: os, calls =>
    let s := initNewInstance o calls
    s.object :: initInstances os s.calls

/-! ## What an instance is to hold -/

/-- The value of the nearest class that has this key in its `__object`. -/
def mostDerived : List (Option (Properties κ V)) → κ → Option V
  | [], _ => none
  | objectProps :: prototype, index =>
    match objectProps.bind fun props => find props.entries index with
    | some v => some v
    | none => mostDerived prototype index

/-- For each key of a class the instance holds a clone of the value of the nearest class that has it; a value whose clone
is the value itself may be held as it is. -/
def HoldsClones (plain : V → Prop) (prototype : List (Option (Properties κ V))) (object : List (κ × Held V)) : Prop :=
  ∀ index v, mostDerived prototype index = some v →
    ∃ held, find object index = some held ∧ held.value = v ∧ (held.call = none → plain v)

/-- The calls of `clone` that made values of an instance. -/
def cloneCalls (object : List (κ × Held V)) : List Nat := object.filterMap fun p => p.2.call

/-- The instance has no properties yet, or what the nearest class leaves to the others are values whose clones are the
values themselves. -/
def NewInstance.Clonable (plain : V → Prop) (o : NewInstance κ V) : Prop :=
  o.own = [] ∨ ∀ index v, (o.prototype.head?.join.bind fun props => find props.entries index) = none →
    mostDerived o.prototype.tail index = some v → plain v

section

variable [PartialEquivBEq κ]

/-! ## The loops -/

theorem find_tail {k : κ} {v : V} {props : List (κ × V)} (hdistinct : Distinct ((k, v) :: props)) {index : κ}
    (hk : (k == index) = true) : find props index = none :=
  find_eq_none.2 fun p hp hpk =>
    (List.pairwise_cons.1 hdistinct).1 p hp (PartialEquivBEq.trans hk (PartialEquivBEq.symm hpk))

theorem find_setProperties : ∀ {props : List (κ × V)}, Distinct props → ∀ (object : List (κ × Held V)) (index : κ),
    find (setProperties props object) index = ((find props index).map Held.given).or (find object index)
  | [], _, _, _ => rfl
  | (k, v) :: props, hdistinct, object, index => by
    rw [setProperties, find_setProperties (List.pairwise_cons.1 hdistinct).2, find_put, find]
    by_cases hk : (k == index) = true
    · rw [find_tail hdistinct hk, if_pos hk, if_pos hk]
      rfl
    · rw [if_neg hk, if_neg hk]

theorem find_setProperties_r : ∀ (prototype : List (Option (Properties κ V))) (object : List (κ × Held V)) (index : κ),
    find (setProperties_r prototype object) index =
      ((mostDerived prototype index).map Held.given).or (find object index)
  | [], _, _ => rfl
  | none :: prototype, object, index => find_setProperties_r prototype object index
  | some props :: prototype, object, index => by
    rw [setProperties_r, mostDerived, find_setProperties props.distinct, find_setProperties_r prototype object index,
      Option.bind_some]
    cases find props.entries index <;> rfl

theorem find_setAndCloneProperties : ∀ {props : List (κ × V)}, Distinct props → ∀ (s : Initialised κ V) (index : κ),
    (∀ v, find props index = some v →
      ∃ n, find (setAndCloneProperties props s).object index = some (.cloned v n)) ∧
    (find props index = none → find (setAndCloneProperties props s).object index = find s.object index)
  | [], _, s, index => ⟨fun v hv => (by cases hv), fun _ => rfl⟩
  | (k, v) :: props, hdistinct, s, index => by
    obtain ⟨hsome, hnone⟩ := find_setAndCloneProperties (List.pairwise_cons.1 hdistinct).2
      ⟨put s.object k (.cloned v s.calls), s.calls + 1⟩ index
    rw [setAndCloneProperties, find]
    by_cases hk : (k == index) = true
    · rw [if_pos hk]
      refine ⟨fun w hw => ?_, fun h => by cases h⟩
      obtain rfl := Option.some.inj hw
      exact ⟨s.calls, by rw [hnone (find_tail hdistinct hk), find_put, if_pos hk]⟩
    · rw [if_neg hk]
      refine ⟨hsome, fun h => ?_⟩
      rw [hnone h, find_put, if_neg hk]

omit [PartialEquivBEq κ] in
theorem find_cloneProperties : ∀ (object : List (κ × Held V)) (calls : Nat) (index : κ) {held : Held V},
    find object index = some held → ∃ n, find (cloneProperties object calls).object index = some (.cloned held.value n)
  | (k, held') :: object, calls, index, held, h => by
    rw [find] at h
    rw [cloneProperties, find]
    split
    · rename_i hk
      rw [if_pos hk] at h
      obtain rfl := Option.some.inj h
      exact ⟨calls, rfl⟩
    · rename_i hk
      rw [if_neg hk] at h
      exact find_cloneProperties object (calls + 1) index h

end

/-! ## The calls of `clone` -/

/-- The clones of an instance come from calls between these two, and no two of them from the same. -/
structure ClonedBetween (object : List (κ × Held V)) (first last : Nat) : Prop where
  nodup : (cloneCalls object).Nodup
  between : ∀ n ∈ cloneCalls object, first ≤ n ∧ n < last

omit [BEq κ] in
theorem cloneCalls_cons (p : κ × Held V) (object : List (κ × Held V)) :
    cloneCalls (p :: object) = p.2.call.toList ++ cloneCalls object := by
  rw [cloneCalls, List.filterMap_cons]
  cases p.2.call <;> rfl

theorem mem_cloneCalls_put {object : List (κ × Held V)} {k : κ} {held : Held V} {n : Nat}
    (h : n ∈ cloneCalls (put object k held)) : n ∈ cloneCalls object ∨ held.call = some n := by
  obtain ⟨p, hp, hn⟩ := List.mem_filterMap.1 h
  rcases mem_put hp with hold | ⟨hheld, -⟩
  · exact .inl (List.mem_filterMap.2 ⟨p, hold, hn⟩)
  · exact .inr (hheld ▸ hn)

theorem nodup_cloneCalls_put : ∀ {object : List (κ × Held V)} {k : κ} {held : Held V}, (cloneCalls object).Nodup →
    (∀ n, held.call = some n → n ∉ cloneCalls object) → (cloneCalls (put object k held)).Nodup
  | [], k, held, _, _ => by
    rw [put, cloneCalls_cons]
    cases held.call <;> simp [cloneCalls]
  | (k', held') :: object, k, held, h, hnew => by
    rw [cloneCalls_cons, List.nodup_append] at h
    obtain ⟨hhead, htail, hne⟩ := h
    rw [cloneCalls_cons] at hnew
    rw [put]
    split
    · rw [cloneCalls_cons, List.nodup_append]
      refine ⟨by cases held.call <;> simp, htail, ?_⟩
      intro a ha b hb hab
      exact hnew a (Option.mem_toList.1 ha) (List.mem_append_right _ (hab ▸ hb))
    · rw [cloneCalls_cons, List.nodup_append]
      refine ⟨hhead, nodup_cloneCalls_put htail fun n hn hmem => hnew n hn (List.mem_append_right _ hmem), ?_⟩
      intro a ha b hb hab
      rcases mem_cloneCalls_put hb with hold | hheld
      · exact hne a ha b hold hab
      · exact hnew b hheld (List.mem_append_left _ (hab ▸ ha))

theorem setProperties_cloned : ∀ (props : List (κ × V)) {object : List (κ × Held V)} {first last : Nat},
    ClonedBetween object first last → ClonedBetween (setProperties props object) first last
  | [], _, _, _, h => h
  | (k, v) :: props, object, first, last, h => by
    refine setProperties_cloned props ⟨nodup_cloneCalls_put h.nodup fun n hn => (by cases hn), fun n hn => ?_⟩
    rcases mem_cloneCalls_put hn with hold | hnew
    · exact h.between n hold
    · cases hnew

theorem setProperties_r_cloned : ∀ (prototype : List (Option (Properties κ V))) {object : List (κ × Held V)}
    {first last : Nat}, ClonedBetween object first last → ClonedBetween (setProperties_r prototype object) first last
  | [], _, _, _, h => h
  | none :: prototype, _, _, _, h => setProperties_r_cloned prototype h
  | some props :: prototype, _, _, _, h => setProperties_cloned props.entries (setProperties_r_cloned prototype h)

theorem setAndCloneProperties_cloned : ∀ (props : List (κ × V)) {s : Initialised κ V} {first : Nat}, first ≤ s.calls →
    ClonedBetween s.object first s.calls →
    s.calls ≤ (setAndCloneProperties props s).calls ∧
      ClonedBetween (setAndCloneProperties props s).object first (setAndCloneProperties props s).calls
  | [], _, _, _, h => ⟨Nat.le_refl _, h⟩
  | (k, v) :: props, s, first, hfirst, h => by
    have hput : ClonedBetween (put s.object k (.cloned v s.calls)) first (s.calls + 1) := by
      constructor
      · refine nodup_cloneCalls_put h.nodup fun n hn hmem => ?_
        obtain rfl := Option.some.inj hn
        exact Nat.lt_irrefl _ (h.between _ hmem).2
      · intro n hn
        rcases mem_cloneCalls_put hn with hold | hnew
        · exact ⟨(h.between n hold).1, Nat.lt_succ_of_lt (h.between n hold).2⟩
        · obtain rfl := Option.some.inj hnew
          exact ⟨hfirst, Nat.lt_succ_self _⟩
    obtain ⟨hle, hcloned⟩ := setAndCloneProperties_cloned props (s := ⟨put s.object k (.cloned v s.calls), s.calls + 1⟩)
      (Nat.le_succ_of_le hfirst) hput
    exact ⟨Nat.le_trans (Nat.le_succ _) hle, hcloned⟩

omit [BEq κ] in
theorem cloneProperties_cloned : ∀ (object : List (κ × Held V)) (calls : Nat),
    calls ≤ (cloneProperties object calls).calls ∧
      ClonedBetween (cloneProperties object calls).object calls (cloneProperties object calls).calls
  | [], calls => ⟨Nat.le_refl _, List.nodup_nil, fun n hn => by cases hn⟩
  | (k, held) :: object, calls => by
    obtain ⟨hle, h⟩ := cloneProperties_cloned object (calls + 1)
    refine ⟨Nat.le_trans (Nat.le_succ _) hle, ?_, ?_⟩
    · rw [cloneProperties, cloneCalls_cons]
      exact List.nodup_cons.2 ⟨fun hmem => Nat.lt_irrefl _ (h.between _ hmem).1, h.nodup⟩
    · intro n hn
      rw [cloneProperties, cloneCalls_cons] at hn
      rcases List.mem_cons.1 hn with rfl | hn
      · exact ⟨Nat.le_refl _, hle⟩
      · exact ⟨Nat.le_of_succ_le (h.between n hn).1, (h.between n hn).2⟩

omit [BEq κ] in
theorem own_cloned (own : List (κ × V)) (calls : Nat) :
    ClonedBetween (own.map fun p => (p.1, Held.given p.2)) calls calls := by
  have hnil : cloneCalls (own.map fun p => (p.1, Held.given p.2)) = [] := by
    rw [cloneCalls, List.filterMap_map]
    exact List.filterMap_eq_nil_iff.2 fun p _ => rfl
  exact ⟨hnil ▸ List.nodup_nil, fun n hn => by rw [hnil] at hn; cases hn⟩

/-- **The clones an instance holds were made for it.** -/
theorem initNewInstance_cloned (o : NewInstance κ V) (calls : Nat) :
    calls ≤ (initNewInstance o calls).calls ∧
      ClonedBetween (initNewInstance o calls).object calls (initNewInstance o calls).calls := by
  rw [initNewInstance]
  split
  · exact cloneProperties_cloned _ calls
  · have hset := own_cloned o.own calls
    cases hchain : o.prototype with
    | nil => exact ⟨Nat.le_refl _, hset⟩
    | cons objectProps prototype =>
      have hbase := setProperties_r_cloned prototype hset
      cases objectProps with
      | none => exact ⟨Nat.le_refl _, hbase⟩
      | some props =>
        exact setAndCloneProperties_cloned props.entries (s := ⟨setProperties_r prototype _, calls⟩) (Nat.le_refl _) hbase

theorem initInstances_cloned : ∀ (os : List (NewInstance κ V)) (calls : Nat),
    ((initInstances os calls).flatMap cloneCalls).Nodup ∧ ∀ n ∈ (initInstances os calls).flatMap cloneCalls, calls ≤ n
  | [], calls => ⟨List.nodup_nil, fun n hn => by cases hn⟩
  | o :: os, calls => by
    obtain ⟨hle, h⟩ := initNewInstance_cloned o calls
    obtain ⟨hrest, hlater⟩ := initInstances_cloned os (initNewInstance o calls).calls
    rw [initInstances, List.flatMap_cons]
    refine ⟨List.nodup_append.2 ⟨h.nodup, hrest, fun a ha b hb hab => ?_⟩, fun n hn => ?_⟩
    · exact Nat.lt_irrefl a (Nat.lt_of_lt_of_le (h.between a ha).2 (hab ▸ hlater b hb))
    · rcases List.mem_append.1 hn with hn | hn
      · exact (h.between n hn).1
      · exact Nat.le_trans hle (hlater n hn)

section

variable [PartialEquivBEq κ]

/-- What an instance with properties of its own holds: a clone of what the nearest class has, and what was set of the
others. -/
theorem find_setAndCloneProperties_r (objectProps : Option (Properties κ V)) (prototype : List (Option (Properties κ V)))
    (s : Initialised κ V) (index : κ) :
    (∀ v, (objectProps.bind fun props => find props.entries index) = some v →
      ∃ n, find (setAndCloneProperties_r (objectProps :: prototype) s).object index = some (.cloned v n)) ∧
    ((objectProps.bind fun props => find props.entries index) = none →
      find (setAndCloneProperties_r (objectProps :: prototype) s).object index =
        ((mostDerived prototype index).map Held.given).or (find s.object index)) := by
  cases objectProps with
  | none => exact ⟨fun v hv => (by cases hv), fun _ => find_setProperties_r prototype s.object index⟩
  | some props =>
    obtain ⟨hsome, hnone⟩ :=
      find_setAndCloneProperties props.distinct ⟨setProperties_r prototype s.object, s.calls⟩ index
    refine ⟨hsome, fun h => ?_⟩
    rw [setAndCloneProperties_r, hnone h, find_setProperties_r]

/-- **What one instance holds.** -/
theorem initNewInstance_holds (plain : V → Prop) (o : NewInstance κ V) (calls : Nat) :
    HoldsClones plain o.prototype (initNewInstance o calls).object ↔ o.Clonable plain := by
  by_cases hown : o.own.length = 0
  · refine iff_of_true (fun index v hv => ?_) (.inl (List.length_eq_zero_iff.1 hown))
    have hset := find_setProperties_r o.prototype (o.own.map fun p => (p.1, Held.given p.2)) index
    rw [hv, Option.map_some, Option.some_or] at hset
    obtain ⟨n, hn⟩ := find_cloneProperties _ calls index hset
    rw [initNewInstance, if_pos hown]
    exact ⟨_, hn, rfl, fun h => by cases h⟩
  · rw [initNewInstance, if_neg hown, NewInstance.Clonable,
      or_iff_right fun hnil => hown (List.length_eq_zero_iff.2 hnil)]
    cases o.prototype with
    | nil => exact iff_of_true (fun index v hv => by cases hv) fun index v _ hv => by cases hv
    | cons objectProps prototype =>
      have hfind := find_setAndCloneProperties_r objectProps prototype ⟨o.own.map fun p => (p.1, Held.given p.2), calls⟩
      constructor
      · intro h index v hnone hv
        obtain ⟨held, hheld, -, hplain⟩ := h index v (by
          rw [mostDerived, show (objectProps.bind fun props => find props.entries index) = none from hnone]
          exact hv)
        rw [(hfind index).2 hnone, show mostDerived prototype index = some v from hv, Option.map_some,
          Option.some_or] at hheld
        obtain rfl := Option.some.inj hheld
        exact hplain rfl
      · intro h index v hv
        rw [mostDerived] at hv
        cases hnearest : objectProps.bind fun props => find props.entries index with
        | some w =>
          rw [hnearest] at hv
          obtain rfl := Option.some.inj hv
          obtain ⟨n, hn⟩ := (hfind index).1 w hnearest
          exact ⟨_, hn, rfl, fun h => by cases h⟩
        | none =>
          rw [hnearest] at hv
          refine ⟨.given v, ?_, rfl, fun _ => h index v hnearest hv⟩
          rw [(hfind index).2 hnearest, show mostDerived prototype index = some v from hv]
          rfl

/-- The instances hold clones of what their classes give them, and no clone is held twice. -/
def AllInitialised (plain : V → Prop) (os : List (NewInstance κ V)) (calls : Nat) : Prop :=
  List.Forall₂ (fun o object => HoldsClones plain o.prototype object) os (initInstances os calls) ∧
    ((initInstances os calls).flatMap cloneCalls).Nodup

/-- **The initialisation of instances**: each one holds its own clone of the value of the nearest class for every key that a
class has, and no clone is in two of them, exactly when each one that has properties already gets from the classes beyond
the nearest nothing but values whose clones are the values themselves. -/
theorem holds_clones_iff (plain : V → Prop) (os : List (NewInstance κ V)) (calls : Nat) :
    AllInitialised plain os calls ↔ ∀ o ∈ os, o.Clonable plain := by
  rw [AllInitialised, and_iff_left (initInstances_cloned os calls).1]
  induction os generalizing calls with
  | nil => exact iff_of_true .nil fun o ho => by cases ho
  | cons o os ih =>
    rw [initInstances, List.forall₂_cons, initNewInstance_holds, ih, List.forall_mem_cons]

end

/-! ## Two instances with a property of their own -/

/-- A class that gives its instances the key 0 with the value 7, and one under it that gives them nothing. -/
def listClass : List (Option (Properties Nat Nat)) := [none, some ⟨[(0, 7)], List.pairwise_singleton _ _⟩]

theorem holds_clones_new : AllInitialised (fun _ => False) [⟨listClass, []⟩, ⟨listClass, []⟩] 0 := by
  refine (holds_clones_iff (fun _ => False) [⟨listClass, []⟩, ⟨listClass, []⟩] 0).2 fun o ho => .inl ?_
  rcases List.mem_cons.1 ho with rfl | ho
  · rfl
  · rw [List.mem_singleton.1 ho]

/-- **Two instances of a derived class share a value**: they have a property of their own when they are initialised, and
the value of the base class is not cloned. -/
theorem instances_share : ¬ ∀ (plain : Nat → Prop) (os : List (NewInstance Nat Nat)) (calls : Nat),
    AllInitialised plain os calls := by
  intro h
  have hall := (h (fun _ => False) [⟨listClass, [(1, 3)]⟩, ⟨listClass, [(1, 4)]⟩] 0).1
  rw [initInstances, List.forall₂_cons] at hall
  obtain ⟨held, hheld, -, hplain⟩ := hall.1 0 7 rfl
  obtain rfl := Option.some.inj hheld
  exact hplain rfl

end Objects
end ObjectScript
