import ObjectScript.Core.Vector
import ObjectScript.Lib.Entries
import ObjectScript.Vm.UnpackSafety
/-!
# sub

`sub(start, len)` of strings, arrays and objects: each of the three adjusts its arguments by the size in `int`s and takes the
elements they name.  An `int` past its range has no result, nor has a buffer that there is no memory for.

The adjustment is one definition of a size and the two arguments (`subParams`); `subPart_eq` says which part it names,
in integers without bounds.  The three implementations differ in what they copy.
-/
namespace ObjectScript
namespace Strings

open Vm (int32 int32_some int32_none)

/-- What the arguments of `sub` come to. -/
inductive SubPart where
  | empty
  /-- The receiver itself. -/
  | whole
  | part (start len : Nat)
deriving DecidableEq, Repr

/-- `start` once a negative one is counted from the end. -/
def adjustStart (size start : Int) : Option Int :=
  if start < 0 then (int32 (size + start)).map fun start => if start < 0 then 0 else start else some start

/-- `len` once a negative one is counted from the end. -/
def adjustLen (size start len : Int) : Option Int :=
  if len < 0 then (int32 (size - start)).bind fun rest => int32 (rest + len) else some len

def clip (size start len : Int) : Option SubPart := do
  let stop ← int32 (start + len)
  let len := if size < stop then size - start else len
  if start = 0 ∧ len = size then return .whole
  return .part start.toNat len.toNat

/-- The two arguments, adjusted in the order of the source. -/
def subPart (size start len : Int) : Option SubPart :=
  (adjustStart size start).bind fun start =>
    if size ≤ start then some .empty
    else (adjustLen size start len).bind fun len =>
      if len ≤ 0 then some .empty else clip size start len

/-- By the number of parameters; those after the second are not read. -/
def subParams (size : Int) : List Int32 → Option SubPart
  | [] => some .whole
  | [start] => subPart size start.toInt size
  | start :: len :: _ => subPart size start.toInt len.toInt

/-- What a string or an array holds; its size is an `int`. -/
structure Counted (α : Type) where
  elements : List α
  length_lt : elements.length < 2 ^ 31

def Counted.size {α : Type} (s : Counted α) : Int := s.elements.length

namespace String

def sub (str : Counted UInt8) (params : List Int32) : Option (List UInt8) :=
  (subParams str.size params).map fun
    | .empty => []
    | .whole => str.elements
    | .part start len => (str.elements.drop start).take len

end String

namespace Array

/-- The values from `values[start + i]` on, one after the other. -/
def items {α : Type} (values : List α) (start : Nat) : Nat → List α
  | 0 => []
  | len + 1 =>
    match values[start]? with
    | none => []
    | some value => value :: items values (start + 1) len

def sub {α : Type} (arr : Counted α) (params : List Int32) : Option (List α) :=
  (subParams arr.size params).map fun
    | .empty => []
    | .whole => arr.elements
    | .part start len => items arr.elements start len

end Array

namespace Object

variable {κ ν π : Type} [BEq κ]

/-- The properties of an object, in the order of its table, and its prototype.  `setPropertyValue` lets neither a key in twice
nor the name of the prototype; the array of a table's heads has a size of type `int`, and a head is no smaller than a
pointer. -/
structure Obj (κ ν π : Type) [BEq κ] (isPrototypeName : κ → Bool) where
  prototype : π
  props : List (κ × ν)
  count_lt : props.length < 2 ^ 30
  distinct : Entries.Distinct props
  names : ∀ p ∈ props, isPrototypeName p.1 = false

variable {isPrototypeName : κ → Bool}

/-- `setPropertyValue` without setters: a property of its table, or its prototype. -/
def setPropertyValue (isPrototypeName : κ → Bool) (toPrototype : ν → π) (o : π × List (κ × ν)) (p : κ × ν) :
    π × List (κ × ν) :=
  match Entries.find o.2 p.1 with
  | some _ => (o.1, Entries.put o.2 p.1 p.2)
  | none => if isPrototypeName p.1 then (toPrototype p.2, o.2) else (o.1, o.2 ++ [p])

/-- The properties captured behind the first `start` of the list. -/
def captured (props : List (κ × ν)) (start len : Nat) : List (κ × ν) := (props.drop start).take len

/-- The captured items are an index and a value for each property; there is memory for them as `vectorReserveCapacity` finds it. -/
def sub (objectPrototype : π) (toPrototype : ν → π) (o : Obj κ ν π isPrototypeName) (params : List Int32) :
    Option (π × List (κ × ν)) :=
  (subParams o.props.length params).bind fun
    | .empty => some (objectPrototype, [])
    | .whole => some (o.prototype, o.props)
    | .part start len => (int32 (len * 2)).bind fun items => (Core.ValueVector.reserveCapacity 0 items.toNat).map fun _ =>
      (captured o.props start len).foldl (setPropertyValue isPrototypeName toPrototype) (o.prototype, [])

end Object

/-! ## The elements a slice has -/

def sliceStart (n start : Int) : Int := if start < 0 then max 0 (n + start) else start

def sliceEnd (n start len : Int) : Int := if 0 ≤ len then min n (sliceStart n start + len) else n + len

/-- The elements from the start up to the end, none where the end is not behind the start. -/
def slice {α : Type} (l : List α) (start len : Int) : List α :=
  (l.drop (sliceStart l.length start).toNat).take (sliceEnd l.length start len - sliceStart l.length start).toNat

/-- The start lies in the sequence, and `start + len` is no `int`. -/
def EndOverflows (n start len : Int) : Prop := sliceStart n start < n ∧ 2 ^ 31 ≤ sliceStart n start + len

instance (n start len : Int) : Decidable (EndOverflows n start len) := inferInstanceAs (Decidable (_ ∧ _))

/-- A slice that is not all of the properties is captured in two values for each, and these are less than 2^31 bytes. -/
def Captures {α : Type} (l : List α) (start len : Int) : Prop :=
  (slice l start len).length < l.length → (slice l start len).length < 2 ^ 26

def SubPart.elements {α : Type} (l : List α) : SubPart → List α
  | empty => []
  | whole => l
  | part start len => (l.drop start).take len

/-- The properties of a part can be captured. -/
def SubPart.HasRoom : SubPart → Prop
  | empty | whole => True
  | part _ len => len < 2 ^ 26

instance : DecidablePred SubPart.HasRoom := fun part => by
  cases part <;> unfold SubPart.HasRoom <;> infer_instance

theorem adjustStart_eq {size start : Int} (hn : 0 ≤ size) (hlt : size < 2 ^ 31) (hge : -2 ^ 31 ≤ start) :
    adjustStart size start = some (sliceStart size start) := by
  unfold adjustStart sliceStart
  split
  · rename_i hneg
    rw [int32_some (by omega) (by omega), Option.map_some]
    congr 1
    rw [Int.max_def]
    split <;> split <;> omega
  · rfl

theorem sliceStart_nonneg {n start : Int} : 0 ≤ sliceStart n start := by
  unfold sliceStart
  split
  · exact Int.le_max_left _ _
  · omega

theorem adjustLen_eq {size s len : Int} (hlt : size < 2 ^ 31) (hs : 0 ≤ s) (hsize : s < size) (hge : -2 ^ 31 ≤ len) :
    adjustLen size s len = some (if len < 0 then size - s + len else len) := by
  unfold adjustLen
  split
  · rw [int32_some (by omega) (by omega), Option.bind_some, int32_some (by omega) (by omega)]
  · rfl

/-- What is left between `s` and `e`. -/
def window {α : Type} (l : List α) (s e : Int) : List α := (l.drop s.toNat).take (e - s).toNat

theorem slice_eq {α : Type} (l : List α) (start len : Int) :
    slice l start len = window l (sliceStart l.length start) (sliceEnd l.length start len) := rfl

theorem window_of_le {α : Type} {l : List α} {s e : Int} (h : e ≤ s) : window l s e = [] := by
  rw [window, Int.toNat_of_nonpos (by omega), List.take_zero]

theorem window_of_length_le {α : Type} {l : List α} {s e : Int} (h : (l.length : Int) ≤ s) : window l s e = [] := by
  rw [window, List.drop_eq_nil_of_le (by omega), List.take_nil]

/-- A part is what it names, up to the end of the sequence. -/
theorem clip_eq {α : Type} {l : List α} {s len : Int} (hs : 0 ≤ s) (hsize : s < l.length) (hlen : 0 < len) :
    (clip l.length s len).map (SubPart.elements l) =
      if s + len < 2 ^ 31 then some (window l s (min l.length (s + len))) else none := by
  unfold clip
  split
  · rename_i hlt
    rw [int32_some (by omega) hlt, Option.bind_eq_bind, Option.bind_some]
    have hcut : (if (l.length : Int) < s + len then (l.length : Int) - s else len) = min (l.length : Int) (s + len) - s := by
      omega
    simp only [hcut]
    split
    · rename_i hwhole
      obtain ⟨rfl, hall⟩ := hwhole
      rw [window, hall]
      simp [SubPart.elements]
    · rfl
  · rename_i hge
    rw [int32_none (by omega)]
    rfl

/-- A part is inside of the sequence and is not all of it. -/
theorem le_of_subPart {size start len : Int} {s n : Nat} (h : subPart size start len = some (.part s n)) :
    (s + n : Int) ≤ size ∧ (n : Int) < size := by
  obtain ⟨s', hs', h⟩ := Option.bind_eq_some_iff.1 h
  have hnonneg : 0 ≤ s' := by
    unfold adjustStart at hs'
    split at hs'
    · obtain ⟨x, -, rfl⟩ := Option.map_eq_some_iff.1 hs'
      split <;> omega
    · cases hs'
      omega
  split at h
  · cases h
  · obtain ⟨len', -, h⟩ := Option.bind_eq_some_iff.1 h
    split at h
    · cases h
    · obtain ⟨stop, hstop, h⟩ := Option.bind_eq_some_iff.1 h
      obtain ⟨rfl, -, -⟩ := Vm.int32_eq_some hstop
      have hcut : (if size < s' + len' then size - s' else len') ≤ size - s' ∧
          0 < (if size < s' + len' then size - s' else len') := by
        split <;> omega
      dsimp only at h
      generalize (if size < s' + len' then size - s' else len') = cut at h hcut
      split at h
      · cases h
      · cases h
        omega

theorem le_of_subParams {size : Int} {params : List Int32} {s n : Nat} (h : subParams size params = some (.part s n)) :
    (s + n : Int) ≤ size ∧ (n : Int) < size := by
  unfold subParams at h
  split at h
  · cases h
  · exact le_of_subPart h
  · exact le_of_subPart h

/-- **The adjusted arguments name the slice, unless its end overflows.** -/
theorem subPart_eq {α : Type} (l : List α) (start len : Int) (hlt : l.length < 2 ^ 31)
    (hstart : -2 ^ 31 ≤ start) (hlen : -2 ^ 31 ≤ len ∧ len < 2 ^ 31) :
    (subPart l.length start len).map (SubPart.elements l) =
      if EndOverflows l.length start len then none else some (slice l start len) := by
  have hsize : (l.length : Int) < 2 ^ 31 := by omega
  have hover : EndOverflows l.length start len ↔
      sliceStart l.length start < l.length ∧ 2 ^ 31 ≤ sliceStart l.length start + len := Iff.rfl
  obtain ⟨s, hsdef⟩ : ∃ s, s = sliceStart l.length start := ⟨_, rfl⟩
  have hs : 0 ≤ s := hsdef ▸ sliceStart_nonneg
  unfold subPart
  rw [adjustStart_eq (Int.natCast_nonneg _) hsize hstart, slice_eq, sliceEnd, Option.bind_some]
  rw [← hsdef] at hover ⊢
  by_cases hin : s < l.length
  · rw [if_neg (by omega), adjustLen_eq hsize hs hin hlen.1, Option.bind_some]
    by_cases hneg : len < 0
    · -- the end is counted from the end of the sequence and overflows nothing
      rw [if_pos hneg, if_neg (show ¬0 ≤ len by omega), if_neg (mt hover.1 (by omega))]
      split
      · rw [window_of_le (by omega)]
        rfl
      · rw [clip_eq hs hin (by omega), if_pos (by omega)]
        congr 2
        omega
    · rw [if_neg hneg, if_pos (show 0 ≤ len by omega)]
      split
      · rw [if_neg (mt hover.1 (by omega)), window_of_le (by omega)]
        rfl
      · rw [clip_eq hs hin (by omega)]
        by_cases htop : s + len < 2 ^ 31
        · rw [if_pos htop, if_neg (mt hover.1 (by omega))]
        · rw [if_neg htop, if_pos (hover.2 (by omega))]
  · rw [if_pos (by omega), if_neg (fun h => hin (hover.1 h).1), window_of_length_le (by omega)]
    rfl

/-! ## The three implementations -/

theorem Array.items_eq {α : Type} (values : List α) : ∀ len start : Nat,
    Array.items values start len = (values.drop start).take len
  | 0, _ => List.take_zero.symm
  | len + 1, start => by
    rw [Array.items]
    cases h : values[start]? with
    | none => rw [List.drop_eq_nil_of_le (List.getElem?_eq_none_iff.1 h), List.take_nil]
    | some value =>
      obtain ⟨hlt, rfl⟩ := List.getElem?_eq_some_iff.1 h
      rw [List.drop_eq_getElem_cons hlt, List.take_succ_cons, Array.items_eq values len (start + 1)]

namespace Object

variable {κ ν π : Type} [BEq κ] {isPrototypeName : κ → Bool} {toPrototype : ν → π}

/-- Properties that are new to the object are put behind its own. -/
theorem foldl_setPropertyValue : ∀ {ps props : List (κ × ν)} (prototype : π), Entries.Distinct (props ++ ps) →
    (∀ p ∈ ps, isPrototypeName p.1 = false) →
    ps.foldl (setPropertyValue isPrototypeName toPrototype) (prototype, props) = (prototype, props ++ ps)
  | [], props, prototype, _, _ => by rw [List.append_nil]; rfl
  | p :: ps, props, prototype, hd, hn => by
    have hd' : Entries.Distinct ((props ++ [p]) ++ ps) := by rwa [List.append_assoc, List.singleton_append]
    have hnew : Entries.find props p.1 = none := Entries.find_eq_none.2 fun q hq =>
      (List.pairwise_append.1 hd).2.2 q hq p List.mem_cons_self
    have hstep : setPropertyValue isPrototypeName toPrototype (prototype, props) p = (prototype, props ++ [p]) := by
      simp only [setPropertyValue, hnew, hn p List.mem_cons_self]
      rfl
    rw [List.foldl_cons, hstep, foldl_setPropertyValue prototype hd' fun q hq => hn q (List.mem_cons_of_mem _ hq),
      List.append_assoc, List.singleton_append]

/-- Two values for each property are less than 2^31 bytes. -/
theorem reserve_captured (len : Nat) : (Core.ValueVector.reserveCapacity 0 (len * 2)).isSome ↔ len < 2 ^ 26 := by
  unfold Core.ValueVector.reserveCapacity
  by_cases hpos : 0 < len * 2
  · rw [if_pos hpos]
    show (if 16 * max 4 (len * 2) < 2 ^ 31 then some (max 4 (len * 2)) else none).isSome = true ↔ len < 2 ^ 26
    by_cases hsize : 16 * max 4 (len * 2) < 2 ^ 31
    · rw [if_pos hsize]
      exact iff_of_true rfl (by omega)
    · rw [if_neg hsize]
      exact iff_of_false Bool.false_ne_true (by omega)
  · rw [if_neg hpos]
    exact iff_of_true rfl (by omega)

theorem sub_props (objectPrototype : π) (o : Obj κ ν π isPrototypeName) (params : List Int32) :
    (sub objectPrototype toPrototype o params).map Prod.snd =
      (subParams o.props.length params).bind fun part => if part.HasRoom then some (part.elements o.props) else none := by
  unfold sub
  cases hpart : subParams o.props.length params with
  | none => rfl
  | some part =>
    cases part with
    | empty | whole => rfl
    | part start len =>
      have hle := (le_of_subParams hpart).1
      have hcount := o.count_lt
      have htwice : int32 ((len : Int) * 2) = some ((len : Int) * 2) := int32_some (by omega) (by omega)
      have hsub : (captured o.props start len).Sublist o.props :=
        (List.take_sublist _ _).trans (List.drop_sublist _ _)
      have hcaptured : (captured o.props start len).foldl (setPropertyValue isPrototypeName toPrototype) (o.prototype, []) =
          (o.prototype, captured o.props start len) :=
        foldl_setPropertyValue o.prototype (List.Pairwise.sublist hsub o.distinct) fun p hp => o.names p (hsub.subset hp)
      have hitems : ((len : Int) * 2).toNat = len * 2 := by omega
      rw [Option.bind_some, Option.bind_some]
      dsimp only
      rw [htwice, Option.bind_some, hitems]
      have hroom := reserve_captured len
      cases hreserve : Core.ValueVector.reserveCapacity 0 (len * 2) with
      | none =>
        rw [hreserve] at hroom
        rw [if_neg fun h : (SubPart.part start len).HasRoom => Bool.false_ne_true (hroom.2 h)]
        rfl
      | some c =>
        rw [hreserve] at hroom
        rw [if_pos (show (SubPart.part start len).HasRoom from hroom.1 rfl), Option.map_some, hcaptured]
        rfl

end Object

/-- There is room for a part exactly when its slice is captured. -/
theorem hasRoom_iff {α : Type} {l : List α} {params : List Int32} {part : SubPart} {start len : Int}
    (h : subParams l.length params = some part) (helements : part.elements l = slice l start len) :
    part.HasRoom ↔ Captures l start len := by
  unfold Captures
  rw [← helements]
  cases part with
  | empty => exact iff_of_true trivial fun _ => by simp [SubPart.elements]
  | whole => exact iff_of_true trivial fun hlt => absurd hlt (Nat.lt_irrefl _)
  | part s n =>
    obtain ⟨hle, hlt⟩ := le_of_subParams h
    have hlen : (SubPart.elements l (.part s n)).length = n := by
      rw [SubPart.elements, List.length_take, List.length_drop]
      omega
    rw [hlen]
    exact ⟨fun hroom _ => hroom, fun hcaptures => hcaptures (by omega)⟩

theorem String.sub_eq (str : Counted UInt8) (params : List Int32) :
    String.sub str params = (subParams str.size params).map (SubPart.elements str.elements) := by
  unfold String.sub
  exact congrArg (Option.map · _) (funext fun part => by cases part <;> rfl)

theorem Array.sub_eq {α : Type} (arr : Counted α) (params : List Int32) :
    Array.sub arr params = (subParams arr.size params).map (SubPart.elements arr.elements) := by
  unfold Array.sub
  refine congrArg (Option.map · _) (funext fun part => ?_)
  cases part with
  | empty | whole => rfl
  | part start len => exact Array.items_eq arr.elements len start

variable {α κ ν π : Type} [BEq κ] {isPrototypeName : κ → Bool}

/-- **`sub` gives the slice of a string, an array and an object exactly when its end does not overflow**, an object that slice
only which it captures; and the part depends in all three in one way on the size and the parameters. -/
theorem sub_iff (str : Counted UInt8) (arr : Counted α) (o : Object.Obj κ ν π isPrototypeName) (objectPrototype : π)
    (toPrototype : ν → π) (start len : Int32) :
    (String.sub str [start, len] = some (slice str.elements start.toInt len.toInt) ↔
      ¬EndOverflows str.size start.toInt len.toInt) ∧
    (Array.sub arr [start, len] = some (slice arr.elements start.toInt len.toInt) ↔
      ¬EndOverflows arr.size start.toInt len.toInt) ∧
    ((Object.sub objectPrototype toPrototype o [start, len]).map Prod.snd = some (slice o.props start.toInt len.toInt) ↔
      ¬EndOverflows o.props.length start.toInt len.toInt ∧ Captures o.props start.toInt len.toInt) ∧
    ∀ params : List Int32,
      String.sub str params = (subParams str.size params).map (SubPart.elements str.elements) ∧
      Array.sub arr params = (subParams arr.size params).map (SubPart.elements arr.elements) ∧
      (Object.sub objectPrototype toPrototype o params).map Prod.snd =
        (subParams o.props.length params).bind fun part => if part.HasRoom then some (part.elements o.props) else none := by
  have hlen := And.intro len.le_toInt len.toInt_lt
  have hone : ∀ {β : Type} (l : List β), l.length < 2 ^ 31 →
      ((subParams l.length [start, len]).map (SubPart.elements l) = some (slice l start.toInt len.toInt) ↔
        ¬EndOverflows l.length start.toInt len.toInt) := by
    intro β l hl
    rw [subParams, subPart_eq l start.toInt len.toInt hl start.le_toInt hlen]
    split <;> simp [*]
  refine ⟨?_, ?_, ?_, ?_⟩
  · rw [String.sub_eq]
    exact hone str.elements str.length_lt
  · rw [Array.sub_eq]
    exact hone arr.elements arr.length_lt
  · rw [Object.sub_props]
    have hslice := hone o.props (Nat.lt_trans o.count_lt (by decide))
    cases hpart : subParams o.props.length [start, len] with
    | none =>
      rw [hpart] at hslice
      exact iff_of_false (by rintro ⟨⟩) fun h => absurd (hslice.2 h.1) (by rintro ⟨⟩)
    | some part =>
      rw [hpart] at hslice
      rw [Option.bind_some]
      by_cases hover : EndOverflows o.props.length start.toInt len.toInt
      · refine iff_of_false (fun h => ?_) fun h => h.1 hover
        split at h
        · exact hslice.1 h hover
        · cases h
      · have helements := Option.some.inj (hslice.2 hover)
        rw [and_iff_right hover, ← hasRoom_iff hpart helements]
        split <;> simp [*]
  · intro params
    exact ⟨String.sub_eq str params, Array.sub_eq arr params, Object.sub_props objectPrototype o params⟩

/-- From the second of three elements on, as many as an `int` counts. -/
theorem not_sub_slice : ¬∀ (str : Counted UInt8) (start len : Int32),
    String.sub str [start, len] = some (slice str.elements start.toInt len.toInt) := by
  intro h
  have hone := h ⟨[97, 98, 99], by decide⟩ 1 2147483647
  exact absurd hone (by decide)

end Strings
end ObjectScript
