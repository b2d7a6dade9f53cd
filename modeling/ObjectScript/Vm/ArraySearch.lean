import Mathlib.Data.List.Nodup
import ObjectScript.Vm.ArrayIndex
import ObjectScript.Vm.Comparison
/-!
# Array search

`indexOf` and `lastIndexOf` compare each element with the value by `<=>`, cut what it gives to an `int`, and stop at a zero;
the operator `in` compares the value with each element and stops where the number is zero.  None of them uses `==`.

`indexOf` is right exactly when no comparison it comes to is one of those where `<=>` and its conversion say something else
than `==` (`tells_null`, `tells_primitive`, `tells_same` and `tells_method` say which these are), and so is `lastIndexOf` when
there is an element to begin with; `in` is right when every comparison of the value with an element, the other way round, is
zero exactly where the element equals the value (`array_search_iff`, `name_tells`).

The elements are not on the stack, and the value searched for is a copy.
-/
namespace ObjectScript
namespace Vm

/-- `valueToNumber`, with `valueof`. -/
def valueToNumber {σ : Type} (W : World σ) (v : Value) (s : σ) : Number × σ :=
  match v with
  | .string text => (W.stringToNumber text, s)
  | .object _ =>
    let (v, s) := W.valueOf v s
    match v with
    | .string text => (W.stringToNumber text, s)
    | .object _ => (.fin 0, s)
    | v => (v.toNumber, s)
  | v => (v.toNumber, s)

/-- An array in a running program; its elements are those of the state a comparison leaves behind. -/
structure ArrayIn (σ : Type) where
  world : World σ
  machine : Machine
  conv : IntConversion
  values : σ → List Value

namespace ArrayIn

variable {σ : Type} (A : ArrayIn σ)

/-- `OP_COMPARE` and `popNumber` -/
def compareNumber (left right : Value) (s : σ) : Option (Number × σ) :=
  (pushOpResultValue A.world A.machine .compare left.copied right.copied s).map fun r => valueToNumber A.world r.1.1 r.2

/-- The loop of `indexOf` and `lastIndexOf` over these indexes.  There is no result when an element is read that is not
there. -/
def search (value : Value) : List Nat → σ → Option (Option Nat)
  | [], _ => some none
  | i :: is, s =>
    match (A.values s)[i]? with
    | none => none
    | some e => (A.compareNumber e value s).bind fun r => if A.conv.toInt r.1 = 0 then some (some i) else search value is r.2

def indexOf (value : Value) (start : Option Int) (s : σ) : Option (Option Nat) :=
  let count := (A.values s).length
  let i := start.getD 0
  let i := if i < 0 then if i + count < 0 then 0 else i + count else i
  A.search value (List.range' i.toNat (count - i.toNat)) s

def lastIndexOf (value : Value) (start : Option Int) (s : σ) : Option (Option Nat) :=
  let count : Int := (A.values s).length
  let i := start.getD (count - 1)
  let added := if i < 0 then i + count else i
  let i := if i < 0 ∧ added < 0 then 0 else if added > count - 1 then count - 1 else added
  if 0 ≤ i then A.search value (List.range (i.toNat + 1)).reverse s else some none

/-- The loop of `isValueInValue`. -/
def searchName (name : Value) : List Nat → σ → Option Bool
  | [], _ => some false
  | i :: is, s =>
    match (A.values s)[i]? with
    | none => none
    | some e => (A.compareNumber name e s).bind fun r => if r.1.isZero then some true else searchName name is r.2

def isValueInValue (name : Value) (s : σ) : Option Bool := A.searchName name (List.range (A.values s).length) s

/-! ## What the searches are to find -/

/-- `==` -/
def Equal (left right : Value) (s : σ) : Prop := (operate A.world A.machine .eq left right s).1 = .bool true

instance (left right : Value) (s : σ) : Decidable (A.Equal left right s) :=
  inferInstanceAs (Decidable (_ = _))

/-- What `<=>` gives, as a number, and the state it leaves. -/
def compared (left right : Value) (s : σ) : Number × σ :=
  valueToNumber A.world (operate A.world A.machine .compare left right s).1 (operate A.world A.machine .compare left right s).2

/-- The first of these indexes whose element equals the value when the search comes to it. -/
def firstEqual (value : Value) : List Nat → σ → Option Nat
  | [], _ => none
  | i :: is, s =>
    match (A.values s)[i]? with
    | none => firstEqual value is s
    | some e => if A.Equal e value s then some i else firstEqual value is (A.compared e value s).2

def indexes (s : σ) : List Nat := List.range (A.values s).length

/-- `indexOf` returns the least index of an element that equals the value, `lastIndexOf` the greatest, and `in` says
whether there is one. -/
def SearchesRight (value : Value) (s : σ) : Prop :=
  A.indexOf value none s = some (A.firstEqual value (A.indexes s) s) ∧
  A.lastIndexOf value none s = some (A.firstEqual value (A.indexes s).reverse s) ∧
  ∃ found i, A.isValueInValue value s = some found ∧ A.indexOf value none s = some i ∧ (found = true ↔ i.isSome)

/-- The conversion of what `<=>` gives is zero exactly when `==` holds. -/
def Tells (e value : Value) (s : σ) : Prop := A.conv.toInt (A.compared e value s).1 = 0 ↔ A.Equal e value s

/-- Every element that the search comes to is there, and compares as it equals. -/
def SearchTells (value : Value) : List Nat → σ → Prop
  | [], _ => True
  | i :: is, s => ∃ e, (A.values s)[i]? = some e ∧ A.Tells e value s ∧
      (¬ A.Equal e value s → SearchTells value is (A.compared e value s).2)

/-- Every element that `in` comes to is there, and the comparison of the value with it, in the state `t`, is zero exactly when
the element equals the value as `indexOf` comes to it, in the state `s`. -/
def NameTells (value : Value) : List Nat → σ → σ → Prop
  | [], _, _ => True
  | i :: is, s, t => ∃ e e', (A.values s)[i]? = some e ∧ (A.values t)[i]? = some e' ∧
      ((A.compared value e' t).1.isZero = true ↔ A.Equal e value s) ∧
      (¬ A.Equal e value s → NameTells value is (A.compared e value s).2 (A.compared value e' t).2)

/-! ## The loops -/

variable {A} {value : Value}

theorem compareNumber_eq (left right : Value) (s : σ) : A.compareNumber left right s = some (A.compared left right s) := by
  rw [compareNumber, pushOpResultValue_copied, Option.map_some, compared, operate]
  rfl

theorem mem_of_firstEqual : ∀ {is : List Nat} {s : σ} {j : Nat}, A.firstEqual value is s = some j → j ∈ is
  | i :: is, s, j, h => by
    rw [firstEqual] at h
    split at h
    · exact List.mem_cons_of_mem _ (mem_of_firstEqual h)
    · split at h
      · exact Option.some.inj h ▸ List.mem_cons_self
      · exact List.mem_cons_of_mem _ (mem_of_firstEqual h)

theorem mem_of_search : ∀ {is : List Nat} {s : σ} {j : Nat}, A.search value is s = some (some j) → j ∈ is
  | i :: is, s, j, h => by
    rw [search] at h
    split at h
    · cases h
    · rw [compareNumber_eq, Option.bind_some] at h
      split at h
      · exact Option.some.inj (Option.some.inj h) ▸ List.mem_cons_self
      · exact List.mem_cons_of_mem _ (mem_of_search h)

/-- **A search is right exactly when it is told right by every comparison it comes to.** -/
theorem search_iff : ∀ {is : List Nat}, is.Nodup → ∀ s : σ,
    A.search value is s = some (A.firstEqual value is s) ↔ A.SearchTells value is s
  | [], _, _ => iff_of_true rfl trivial
  | i :: is, hnodup, s => by
    obtain ⟨hi, hnodup⟩ := List.nodup_cons.1 hnodup
    rw [search, firstEqual, SearchTells]
    cases helem : (A.values s)[i]? with
    | none => exact iff_of_false (fun h => by cases h) fun ⟨e, he, _⟩ => by cases he
    | some e =>
      simp only [compareNumber_eq, Option.bind_some, Option.some.injEq, exists_eq_left', Tells]
      by_cases hzero : A.conv.toInt (A.compared e value s).1 = 0
      · by_cases heq : A.Equal e value s
        · simp only [hzero, heq, if_true, not_true, true_and, false_implies]
        · have hne : ¬ some i = A.firstEqual value is (A.compared e value s).2 :=
            fun h => hi (mem_of_firstEqual h.symm)
          simp only [hzero, heq, if_true, if_false, iff_false, not_true, false_and, Option.some.injEq, hne]
      · by_cases heq : A.Equal e value s
        · have hne : ¬ A.search value is (A.compared e value s).2 = some (some i) := fun h => hi (mem_of_search h)
          simp only [hzero, heq, if_true, if_false, false_iff, not_true, false_and, hne]
        · simp only [hzero, heq, if_false, not_false_iff, true_and, true_implies, search_iff hnodup]

/-- **`in` says whether there is an equal element** when it is told so by every comparison it comes to. -/
theorem searchName_eq : ∀ (is : List Nat) (s t : σ), A.NameTells value is s t →
    A.searchName value is t = some (A.firstEqual value is s).isSome
  | [], _, _, _ => rfl
  | i :: is, s, t, h => by
    obtain ⟨e, e', he, he', hzero, hrest⟩ := h
    rw [searchName, firstEqual, he, he']
    simp only [compareNumber_eq, Option.bind_some]
    by_cases heq : A.Equal e value s
    · rw [if_pos (hzero.2 heq), if_pos heq, Option.isSome_some]
    · rw [if_neg fun h => heq (hzero.1 h), if_neg heq]
      exact searchName_eq is _ _ (hrest heq)

theorem indexOf_none (s : σ) : A.indexOf value none s = A.search value (A.indexes s) s := by
  rw [indexOf, indexes, List.range_eq_range']
  simp only [Option.getD_none, Int.lt_irrefl, if_false, Int.toNat_zero, Nat.sub_zero]

/-- The search from behind begins with the last element; of an empty array it reads the first one. -/
theorem lastIndexOf_none (s : σ) : A.lastIndexOf value none s =
    if A.values s = [] then none else A.search value (A.indexes s).reverse s := by
  rw [lastIndexOf, indexes]
  simp only [Option.getD_none]
  cases hvalues : A.values s with
  | nil =>
    simp [search, hvalues]
  | cons e es =>
    have hcount : ((e :: es).length : Int) - 1 = es.length := by
      rw [List.length_cons]
      omega
    rw [hcount, if_neg (List.cons_ne_nil e es)]
    have h1 : ¬ ((es.length : Int) < 0) := by omega
    have h2 : ¬ ((es.length : Int) > es.length) := by omega
    simp only [h1, h2, if_false, false_and, Int.toNat_natCast, List.length_cons]
    rw [if_pos (Int.natCast_nonneg _)]

/-- **Array search.**  `indexOf` finds what it is to find exactly when every comparison it comes to tells it right, and so
does `lastIndexOf` when the array is not empty; and if moreover every comparison that `in` comes to tells it right, all three
are. -/
theorem array_search_iff (A : ArrayIn σ) (value : Value) (s : σ) :
    (A.indexOf value none s = some (A.firstEqual value (A.indexes s) s) ↔ A.SearchTells value (A.indexes s) s) ∧
    (A.lastIndexOf value none s = some (A.firstEqual value (A.indexes s).reverse s) ↔
      A.values s ≠ [] ∧ A.SearchTells value (A.indexes s).reverse s) ∧
    (A.values s ≠ [] ∧ A.SearchTells value (A.indexes s) s ∧ A.SearchTells value (A.indexes s).reverse s ∧
      A.NameTells value (A.indexes s) s s → A.SearchesRight value s) := by
  have hnodup : (A.indexes s).Nodup := List.nodup_range
  have hindex : A.indexOf value none s = some (A.firstEqual value (A.indexes s) s) ↔ A.SearchTells value (A.indexes s) s := by
    rw [indexOf_none, search_iff hnodup]
  have hlast : A.lastIndexOf value none s = some (A.firstEqual value (A.indexes s).reverse s) ↔
      A.values s ≠ [] ∧ A.SearchTells value (A.indexes s).reverse s := by
    rw [lastIndexOf_none]
    by_cases hempty : A.values s = []
    · rw [if_pos hempty]
      exact iff_of_false (fun h => by cases h) fun h => h.1 hempty
    · rw [if_neg hempty, search_iff ((List.reverse_perm _).nodup_iff.2 hnodup)]
      exact (and_iff_right hempty).symm
  refine ⟨hindex, hlast, fun ⟨hempty, htells, hreverse, hname⟩ => ?_⟩
  have hfound := hindex.2 htells
  exact ⟨hfound, hlast.2 ⟨hempty, hreverse⟩, _, _, searchName_eq _ s s hname, hfound, Iff.rfl⟩

/-! ## What a comparison tells -/

theorem equal_iff (left right : Value) (s : σ) :
    A.Equal left right s ↔ (opResult A.world A.machine .logicEq left right s).1.1 = .bool true := by
  rw [Equal, operate]
  rfl

/-- What `<=>` gives for null. -/
def nullDifference (left right : Value) : Number :=
  (if left.isNull then Number.fin 0 else .one).sub (if right.isNull then .fin 0 else .one)

theorem toInt_zero : A.conv.toInt (.fin 0) = 0 := by
  have h := A.conv.toInt_fin 0
  rw [Int.zero_tdiv] at h
  exact h (by decide) (by decide)

/-- With null, `<=>` gives zero, one or minus one. -/
theorem nullDifference_cases {left right : Value} (h : left = .null ∨ right = .null) :
    (left = right ∧ nullDifference left right = .fin 0) ∨
      (left ≠ right ∧ (nullDifference left right = .fin (2 ^ 1074) ∨ nullDifference left right = .fin (-2 ^ 1074))) := by
  rw [nullDifference]
  cases hl : left.isNull with
  | true =>
    obtain rfl := isNull_iff.1 hl
    cases hr : right.isNull with
    | true =>
      obtain rfl := isNull_iff.1 hr
      exact .inl ⟨rfl, by decide +kernel⟩
    | false => exact .inr ⟨fun heq => (by rw [← heq] at hr; cases hr), .inr (by decide +kernel)⟩
  | false =>
    obtain rfl := h.resolve_left fun heq => by rw [heq] at hl; cases hl
    exact .inr ⟨fun heq => (by rw [heq] at hl; cases hl), .inl (by decide +kernel)⟩

theorem toInt_nullDifference {left right : Value} (h : left = .null ∨ right = .null) :
    A.conv.toInt (nullDifference left right) = 0 ↔ left = right := by
  have hone : A.conv.toInt (.fin (2 ^ 1074)) ≠ 0 := by
    have hdiv : Int.tdiv (2 ^ 1074) (2 ^ 1074) = 1 := Int.tdiv_self (by decide +kernel)
    rw [A.conv.toInt_fin _ (by rw [hdiv]; decide) (by rw [hdiv]; decide), hdiv]
    decide
  have hneg : A.conv.toInt (.fin (-2 ^ 1074)) ≠ 0 := by
    have hdiv : Int.tdiv (-2 ^ 1074) (2 ^ 1074) = -1 := by
      rw [Int.neg_tdiv, Int.tdiv_self (by decide +kernel)]
    rw [A.conv.toInt_fin _ (by rw [hdiv]; decide) (by rw [hdiv]; decide), hdiv]
    decide
  rcases nullDifference_cases h with ⟨heq, hzero⟩ | ⟨hne, hvalue | hvalue⟩
  · rw [hzero]
    exact iff_of_true toInt_zero heq
  · rw [hvalue]
    exact iff_of_false hone hne
  · rw [hvalue]
    exact iff_of_false hneg hne

theorem isZero_nullDifference {left right : Value} (h : left = .null ∨ right = .null) :
    (nullDifference left right).isZero = true ↔ left = right := by
  rcases nullDifference_cases h with ⟨heq, hzero⟩ | ⟨hne, hvalue | hvalue⟩
  · rw [hzero]
    exact iff_of_true rfl heq
  · rw [hvalue]
    exact iff_of_false (by decide +kernel) hne
  · rw [hvalue]
    exact iff_of_false (by decide +kernel) hne

theorem compared_null {left right : Value} {s : σ} (h : left = .null ∨ right = .null) :
    A.compared left right s = (nullDifference left right, s) := by
  have hexist : (!left.isNull && !right.isNull) = false := by
    rcases h with rfl | rfl
    · rfl
    · exact Bool.and_false _
  have hresult : opResult A.world A.machine .compare left right s = ((.number (nullDifference left right), false), s) := by
    unfold opResult
    split <;> simp only [pushPrimitive, objectResult, hexist, sameObject_of_null h, Bool.false_eq_true, if_false, nullDifference]
  simp only [compared, operate, BinaryOperator.opcode, hresult, Bool.false_eq_true, if_false, valueToNumber, Value.toNumber]

theorem not_equal_null {e : Value} {s : σ} (h : e = .null ∨ value = .null) : ¬ A.Equal e value s := by
  rw [equal_iff, opResult_null A.world A.machine (.inl rfl) h]
  exact fun hbool => Bool.false_ne_true (Value.bool.inj hbool)

/-- Null is told from everything but null, which `==` holds to be different from null too. -/
theorem tells_null {e : Value} {s : σ} (h : e = .null ∨ value = .null) : A.Tells e value s ↔ e ≠ value := by
  rw [Tells, compared_null h, toInt_nullDifference h, iff_false_right (not_equal_null h)]

theorem compared_primitive {left right : Value} {s : σ} (hl : left ≠ .null) (hr : right ≠ .null)
    (hp : (left.isPrimitive && right.isPrimitive) = true) :
    A.compared left right s = (left.toNumber.sub right.toNumber, s) ∧
      (A.Equal left right s ↔ left.toNumber.eq right.toNumber = true) := by
  have hexist : (!left.isNull && !right.isNull) = true := by
    cases left <;> cases right <;> simp_all [Value.isNull]
  rw [equal_iff, compared, operate]
  simp only [BinaryOperator.opcode, opResult, hp, if_true, pushPrimitive, hexist, Bool.false_eq_true, if_false, valueToNumber,
    Value.toNumber, Value.bool.injEq, and_self]

/-- Two numbers or bools are told apart when their difference is not cut to zero. -/
theorem tells_primitive {e : Value} {s : σ} (he : e ≠ .null) (hv : value ≠ .null)
    (hp : (e.isPrimitive && value.isPrimitive) = true) :
    A.Tells e value s ↔ (A.conv.toInt (e.toNumber.sub value.toNumber) = 0 ↔ e.toNumber.eq value.toNumber = true) := by
  obtain ⟨hcompared, hequal⟩ := compared_primitive (A := A) (s := s) he hv hp
  rw [Tells, hcompared, hequal]

theorem compared_same {left right : Value} {s : σ} (h : sameObject left right = true) :
    A.compared left right s = (.fin 0, s) ∧ A.Equal left right s := by
  have hp : ¬ (left.isPrimitive && right.isPrimitive) = true := by
    rw [sameObject, Value.isGC, Bool.and_eq_true] at h
    intro hp
    rw [Bool.and_eq_true] at hp
    rw [hp.1] at h
    cases h.1
  rw [equal_iff, compared, operate]
  simp only [BinaryOperator.opcode, opResult, hp, if_false, objectResult, h, if_true, Bool.false_eq_true, valueToNumber,
    Value.toNumber, and_self]

theorem tells_same {e : Value} {s : σ} (h : sameObject e value = true) : A.Tells e value s := by
  obtain ⟨hcompared, hequal⟩ := compared_same (A := A) (s := s) h
  rw [Tells, hcompared, toInt_zero]
  exact iff_of_true rfl hequal

/-- A comparison method is to give a number that is zero or not cut to zero, or a value that is not cut to zero. -/
theorem tells_method {e : Value} {s : σ} (he : e ≠ .null) (hv : value ≠ .null)
    (hp : ¬ (e.isPrimitive && value.isPrimitive) = true) (hs : ¬ sameObject e value = true) :
    A.Tells e value s ↔
      match methodResult A.world .compare e value s with
      | (.number x, _) => A.conv.toInt x = 0 ↔ x.eq (.fin 0) = true
      | (r, t) => A.conv.toInt (valueToNumber A.world r t).1 ≠ 0 := by
  have hexist : (!e.isNull && !value.isNull) = true := by
    cases e <;> cases value <;> simp_all [Value.isNull]
  rw [Tells, equal_iff, compared, operate]
  simp only [BinaryOperator.opcode, opResult, hp, if_false, objectResult, hs, hexist, if_true, compareResult, Bool.false_eq_true,
    methodResult_logic A.world (.inl rfl)]
  obtain ⟨r, t⟩ := methodResult A.world .compare e value s
  cases r with
  | number x => simp only [valueToNumber, Value.toNumber, Value.bool.injEq]
  | null => simp only [Value.bool.injEq, Bool.false_eq_true, iff_false]
  | bool b => simp only [Value.bool.injEq, Bool.false_eq_true, iff_false]
  | string text => simp only [Value.bool.injEq, Bool.false_eq_true, iff_false]
  | object o => simp only [Value.bool.injEq, Bool.false_eq_true, iff_false]

/-- **What a comparison tells `in`**: with null everything but null, with numbers and bools everything but two equal
infinities, and that an object is the same one. -/
theorem name_tells {e : Value} {s t : σ} :
    (e = .null ∨ value = .null → (((A.compared value e t).1.isZero = true ↔ A.Equal e value s) ↔ e ≠ value)) ∧
    (e ≠ .null → value ≠ .null → (e.isPrimitive && value.isPrimitive) = true →
      (((A.compared value e t).1.isZero = true ↔ A.Equal e value s) ↔
        ¬ ∃ i, e.toNumber = .inf i ∧ value.toNumber = .inf i)) ∧
    (sameObject e value = true → ((A.compared value e t).1.isZero = true ↔ A.Equal e value s)) := by
  refine ⟨fun h => ?_, fun he hv hp => ?_, fun h => ?_⟩
  · rw [compared_null h.symm, isZero_nullDifference h.symm, iff_false_right (not_equal_null h), eq_comm]
  · obtain ⟨hcompared, -⟩ := compared_primitive (A := A) (s := t) hv he (by rw [Bool.and_comm]; exact hp)
    rw [hcompared, (compared_primitive (A := A) (s := s) he hv hp).2, Number.isZero, Number.eq_comm e.toNumber]
    by_cases hnan : value.toNumber.sub e.toNumber = .nan
    · rw [hnan, Number.nan_eq]
      rcases Number.sub_eq_nan.1 hnan with h | h | ⟨i, h1, h2⟩
      · rw [h, Number.nan_eq]
        exact iff_of_true Iff.rfl fun ⟨i, _, hi⟩ => by cases hi
      · rw [h, Number.eq_comm, Number.nan_eq]
        exact iff_of_true Iff.rfl fun ⟨i, hi, _⟩ => by cases hi
      · rw [h1, h2, show Number.eq (.inf i) (.inf i) = true by cases i <;> rfl]
        exact iff_of_false (fun hiff => Bool.false_ne_true (hiff.2 rfl)) fun h => h ⟨i, rfl, rfl⟩
    · rw [(Number.sub_compare hnan).1]
      refine iff_of_true Iff.rfl fun ⟨i, h1, h2⟩ => hnan ?_
      rw [h1, h2]
      exact Number.sub_eq_nan.2 (.inr (.inr ⟨i, rfl, rfl⟩))
  · have hsame : value = e := by
      rw [sameObject, Bool.and_eq_true, beq_iff_eq] at h
      exact h.2.symm
    subst hsame
    rw [(compared_same h).1]
    exact iff_of_true rfl (compared_same h).2

end ArrayIn

/-! ## Arrays that are searched wrong -/

def arrayOf (values : List Value) : ArrayIn Unit := ⟨noMethods, noArithmetic, .leastInt, fun _ => values⟩

/-- An object that is in the array twice, among nulls. -/
def twice : ArrayIn Unit := arrayOf [.null, .object 1, .null, .object 1, .null]

theorem twice_searched : twice.SearchesRight (.object 1) () := by
  have hnull : twice.Tells .null (.object 1) () := (ArrayIn.tells_null (.inl rfl)).2 (by decide)
  have hsame : twice.Tells (.object 1) (.object 1) () := ArrayIn.tells_same rfl
  have hequal : twice.Equal (.object 1) (.object 1) () := (ArrayIn.compared_same rfl).2
  refine (ArrayIn.array_search_iff twice (.object 1) ()).2.2 ⟨List.cons_ne_nil _ _, ?_, ?_, ?_⟩
  · exact ⟨_, rfl, hnull, fun _ => ⟨_, rfl, hsame, fun hne => absurd hequal hne⟩⟩
  · exact ⟨_, rfl, hnull, fun _ => ⟨_, rfl, hsame, fun hne => absurd hequal hne⟩⟩
  · exact ⟨_, _, rfl, rfl, (ArrayIn.name_tells.1 (.inl rfl)).2 (by decide), fun _ =>
      ⟨_, _, rfl, rfl, ArrayIn.name_tells.2.2 rfl, fun hne => absurd hequal hne⟩⟩

/-- **A half is found where a zero is looked for.** -/
theorem half_found : ¬ ∀ (σ : Type) (A : ArrayIn σ) (value : Value) (s : σ), A.SearchesRight value s := by
  intro h
  have hindex := (h Unit (arrayOf [.number (.fin (2 ^ 1073))]) (.number (.fin 0)) ()).1
  revert hindex
  decide +kernel

/-- `lastIndexOf` reads the first element of an array that has none. -/
example : (arrayOf []).lastIndexOf .null none () = none := by decide

end Vm
end ObjectScript
