import ObjectScript.Core.Vector
import ObjectScript.Vm.Operators
/-!
# Array indexes

A number as the index of an array is cut to an `int`, and a negative one is counted from the end.  The two setters, the
three getters and `deleteValueProperty` write this out each for itself.  They address the same element, whatever the machine
makes of a number that no `int` is near to.  A setter fills the gap up to the index with nulls, one `vectorAddItem` each, and
where the vector cannot grow to the index it crashes: so the six places agree exactly if there is room
(`array_index_agrees_iff`), and every index below 2^26 has room in every array.
-/
namespace ObjectScript
namespace Vm

open ObjectScript.Core (ValueVector)

/-- `OS_NUMBER_TO_INT`: a number is cut to its integral part, if that is an `int`.  What the machine makes of the others is
an `int` too. -/
structure IntConversion where
  toInt : Number → Int
  toInt_fin : ∀ n : Int, -2 ^ 31 ≤ n.tdiv (2 ^ 1074) → n.tdiv (2 ^ 1074) < 2 ^ 31 → toInt (.fin n) = n.tdiv (2 ^ 1074)
  toInt_ge : ∀ x, -2 ^ 31 ≤ toInt x
  toInt_lt : ∀ x, toInt x < 2 ^ 31

/-- The conversion of the processors that give the least `int` where there is none. -/
def IntConversion.leastInt : IntConversion where
  toInt
    | .fin n => if -2 ^ 31 ≤ n.tdiv (2 ^ 1074) ∧ n.tdiv (2 ^ 1074) < 2 ^ 31 then n.tdiv (2 ^ 1074) else -2 ^ 31
    | _ => -2 ^ 31
  toInt_fin n hge hlt := if_pos ⟨hge, hlt⟩
  toInt_ge x := by
    cases x with
    | fin n =>
      dsimp only
      split
      · rename_i h
        exact h.1
      · exact Int.le_refl _
    | nan => exact Int.le_refl _
    | inf negative => exact Int.le_refl _
  toInt_lt x := by
    have hneg : (-2 ^ 31 : Int) < 2 ^ 31 := by decide
    cases x with
    | fin n =>
      dsimp only
      split
      · rename_i h
        exact h.2
      · exact hneg
    | nan => exact hneg
    | inf negative => exact hneg

/-- `i` behind the test `i >= 0 || (i += count) >= 0`. -/
def adjust (count : Nat) (i : Int) : Int := if i ≥ 0 then i else i + count

/-- The setters' block: nothing is written before the first element. -/
def setElement (conv : IntConversion) (a : ValueVector Value) (index : Number) (value : Value) : Option (ValueVector Value) :=
  let i := adjust a.items.length (conv.toInt index)
  if i ≥ 0 then a.store .null i.toNat value else some a

def getElement (conv : IntConversion) (a : ValueVector Value) (index : Number) : Value :=
  let i := adjust a.items.length (conv.toInt index)
  if i ≥ 0 ∧ i < a.items.length then a.items.getD i.toNat .null else .null

/-! ## The six places

The blocks of an array under a number. -/

/-- `OS_SETTER_VALUE_PTR` -/
def setterValuePtr (conv : IntConversion) (a : ValueVector Value) (index : Number) (value : Value) : Option (ValueVector Value) :=
  setElement conv a index value

/-- `OS_SETTER_VALUE` -/
def setterValue (conv : IntConversion) (a : ValueVector Value) (index : Number) (value : Value) : Option (ValueVector Value) :=
  setElement conv a index value

/-- `OS_GET_PROP_VALUE_PTR` -/
def getPropValuePtr (conv : IntConversion) (a : ValueVector Value) (index : Number) : Value := getElement conv a index

/-- `OS_GET_PROP_VALUE` -/
def getPropValue (conv : IntConversion) (a : ValueVector Value) (index : Number) : Value := getElement conv a index

/-- `OS_GETTER_VALUE` -/
def getterValue (conv : IntConversion) (a : ValueVector Value) (index : Number) : Value := getElement conv a index

def deleteValueProperty (conv : IntConversion) (a : ValueVector Value) (index : Number) : ValueVector Value :=
  let i := adjust a.items.length (conv.toInt index)
  if i ≥ 0 ∧ i < a.items.length then a.removeAtIndex i.toNat else a

/-! ## The element addressed -/

/-- The element that a number addresses: counted from the end when it is negative, and none before the first. -/
def position (conv : IntConversion) (count : Nat) (index : Number) : Option Nat :=
  if 0 ≤ conv.toInt index then some (conv.toInt index).toNat
  else if 0 ≤ conv.toInt index + count then some (conv.toInt index + count).toNat
  else none

theorem adjust_of_some {conv : IntConversion} {count p : Nat} {index : Number} (h : position conv count index = some p) :
    adjust count (conv.toInt index) = p := by
  rw [position] at h
  rw [adjust]
  split at h
  · rename_i hge
    rw [if_pos hge, ← Option.some.inj h, Int.toNat_of_nonneg hge]
  · rename_i hneg
    split at h
    · rename_i hge
      rw [if_neg hneg, ← Option.some.inj h, Int.toNat_of_nonneg hge]
    · cases h

theorem adjust_of_none {conv : IntConversion} {count : Nat} {index : Number} (h : position conv count index = none) :
    adjust count (conv.toInt index) < 0 := by
  rw [position] at h
  rw [adjust]
  split at h
  · cases h
  · rename_i hneg
    split at h
    · cases h
    · rename_i hlt
      rw [if_neg hneg]
      omega

variable {conv : IntConversion} {a b : ValueVector Value} {index : Number} {value : Value} {p : Nat}

theorem setElement_some (h : position conv a.items.length index = some p) (value : Value) :
    setElement conv a index value = a.store .null p value := by
  have hge : adjust a.items.length (conv.toInt index) ≥ 0 := by
    rw [adjust_of_some h]
    exact Int.natCast_nonneg p
  rw [setElement, if_pos hge, adjust_of_some h, Int.toNat_natCast]

theorem setElement_none (h : position conv a.items.length index = none) (value : Value) : setElement conv a index value = some a := by
  have hlt := adjust_of_none h
  rw [setElement, if_neg (by omega)]

theorem getElement_some (h : position conv a.items.length index = some p) :
    getElement conv a index = a.items.getD p .null := by
  rw [getElement, adjust_of_some h, Int.toNat_natCast]
  split
  · rfl
  · rename_i hnot
    rw [List.getD_eq_default _ _ (by omega)]

theorem getElement_none (h : position conv a.items.length index = none) : getElement conv a index = .null := by
  have hlt := adjust_of_none h
  rw [getElement, if_neg (by omega)]

theorem deleteValueProperty_some (h : position conv a.items.length index = some p) :
    (deleteValueProperty conv a index).items = a.items.eraseIdx p := by
  rw [deleteValueProperty, adjust_of_some h, Int.toNat_natCast]
  split
  · rfl
  · rename_i hnot
    rw [List.eraseIdx_of_length_le (by omega)]

theorem deleteValueProperty_none (h : position conv a.items.length index = none) :
    deleteValueProperty conv a index = a := by
  have hlt := adjust_of_none h
  rw [deleteValueProperty, if_neg (by omega)]

theorem position_written (value : Value) {values : List Value} (h : position conv values.length index = some p) :
    position conv (ValueVector.written .null values p value).length index = some p := by
  by_cases hge : 0 ≤ conv.toInt index
  · rw [position, if_pos hge] at h ⊢
    exact h
  · have hp : p < values.length := by
      rw [position, if_neg hge] at h
      split at h
      · have heq := Option.some.inj h
        omega
      · cases h
    rw [ValueVector.length_written hp]
    exact h

/-- The six places agree: what `position` says is the element that all of them address, a negative index is counted from the
end, only nulls are added, and what is written is read there. -/
def Agrees (conv : IntConversion) (a : ValueVector Value) (index : Number) (value : Value) : Prop :=
  ∃ b, setterValue conv a index value = some b ∧ setterValuePtr conv a index value = some b ∧
    (getPropValue conv a index = getPropValuePtr conv a index ∧ getterValue conv a index = getPropValuePtr conv a index) ∧
    (conv.toInt index < 0 → position conv a.items.length index =
      if a.items.length + conv.toInt index ≥ 0 then some (a.items.length + conv.toInt index).toNat else none) ∧
    match position conv a.items.length index with
    | some p =>
      getterValue conv b index = value ∧ b.items = ValueVector.written .null a.items p value ∧
      getterValue conv a index = a.items.getD p .null ∧ (deleteValueProperty conv a index).items = a.items.eraseIdx p
    | none => b = a ∧ getterValue conv a index = .null ∧ deleteValueProperty conv a index = a

/-- **The six places agree exactly if there is room for the element addressed.** -/
theorem array_index_agrees_iff (conv : IntConversion) (a : ValueVector Value) (index : Number) (value : Value) :
    Agrees conv a index value ↔ ∀ p, position conv a.items.length index = some p → ValueVector.Fits a.capacity p := by
  have hcount : conv.toInt index < 0 → position conv a.items.length index =
      if a.items.length + conv.toInt index ≥ 0 then some (a.items.length + conv.toInt index).toNat else none := by
    intro hneg
    rw [position, if_neg (by omega), Int.add_comm]
  unfold Agrees
  cases h : position conv a.items.length index with
  | none =>
    refine ⟨fun _ p hp => (by cases hp), fun _ => ?_⟩
    exact ⟨a, setElement_none h value, setElement_none h value, ⟨rfl, rfl⟩, h ▸ hcount, rfl, getElement_none h,
      deleteValueProperty_none h⟩
  | some p =>
    constructor
    · rintro ⟨b, hb, -⟩ q hq
      cases hq
      rw [setterValue, setElement_some h] at hb
      exact (ValueVector.store_isSome_iff .null p value a).1 (by rw [hb]; rfl)
    · intro hroom
      rcases ValueVector.store_cases .null p value a with ⟨b, hb, -, hitems⟩ | ⟨-, hnot⟩
      · have hset : setElement conv a index value = some b := (setElement_some h value).trans hb
        have hplace : position conv b.items.length index = some p := by
          rw [hitems]
          exact position_written value h
        refine ⟨b, hset, hset, ⟨rfl, rfl⟩, h ▸ hcount, ?_, hitems, getElement_some h, deleteValueProperty_some h⟩
        rw [getterValue, getElement_some hplace, hitems]
        exact ValueVector.getD_written .null a.items p value
      · exact absurd (hroom p rfl) hnot

def firstOutside : Number := .fin (2 ^ 26 * 2 ^ 1074)

theorem position_firstOutside (conv : IntConversion) : position conv 0 firstOutside = some (2 ^ 26) := by
  have hcut : Int.tdiv (2 ^ 26 * 2 ^ 1074) (2 ^ 1074) = 2 ^ 26 :=
    Int.mul_tdiv_cancel _ (Int.ne_of_gt (Int.pow_pos (by decide)))
  have hint : conv.toInt firstOutside = 2 ^ 26 := by
    rw [firstOutside, conv.toInt_fin _ (by rw [hcut]; decide) (by rw [hcut]; decide), hcut]
  rw [position, hint]
  rfl

/-- To write it in an empty array asks for 2^31 bytes. -/
theorem gap_too_long : ¬ Agrees .leastInt .empty firstOutside .null := by
  rintro ⟨b, hb, -⟩
  rw [setterValue, setElement_some (position_firstOutside _)] at hb
  have hroom := (ValueVector.store_isSome_iff (α := Value) .null (2 ^ 26) .null .empty).1 (by rw [hb]; rfl)
  exact absurd (ValueVector.fits_zero_iff.1 hroom) (by decide)

/-- 1.5 is the index 1, and -1.5 the last index. -/
example (a : ValueVector Value) (h : a.items = [.null, .bool true]) :
    getterValue .leastInt a (.fin (3 * 2 ^ 1073)) = .bool true ∧
    getterValue .leastInt a (.fin (-(3 * 2 ^ 1073))) = .bool true := by
  unfold getterValue getElement
  rw [h]
  decide +kernel

end Vm
end ObjectScript
