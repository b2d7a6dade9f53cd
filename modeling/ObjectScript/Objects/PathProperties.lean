import ObjectScript.Objects.PathAssignment
/-!
# Paths without accessors

Where no accessor and no prototype takes part, the nested assignment is read back at the nested place, the objects that were
missing are new ones, and no other property of the values that were there is another one (`Assigned.nested`,
`Nested.oneProperty`).  An element of an array is a property of its index.

So a text is dealt with as a path is to be exactly if it is one and every step on the way along it can be made (`meets_iff`).
-/
namespace ObjectScript
namespace Objects
namespace PropertyPath

open ObjectScript.Core (Double ValueVector)

variable {x : Scripts} {enabled : Bool}

/-! ## Values without accessors -/

section

variable (enabled)

def Reader.IsOwn : Reader → Prop
  | .own _ | .absent => True
  | _ => False

/-- The property of the value itself, a new one, or an element. -/
def Writer.IsOwn : Writer → Prop
  | .own | .absent | .element _ => True
  | _ => False

def ReadsOwn (w : World) (r : Nat) (n : List Nat) : Prop :=
  ∃ fuel reader, readerOf enabled fuel w r n = some reader ∧ reader.IsOwn

def WritesOwn (w : World) (r : Nat) (c : Component) : Prop :=
  ∃ fuel writer, writerOf enabled fuel w r (keyOf w r c) = some writer ∧ writer.IsOwn

variable (x)

/-- **No accessor and no prototype takes part** on the way along a path. -/
def Plain : List Component → World → Nat → Prop := Along x enabled (ReadsOwn enabled) (WritesOwn enabled)

end

def Closed (w : World) : Prop := ∀ r k q, own w r k = some (.owner q) → q < w.next

def objectAt (w : World) (r : Nat) (c : Component) : Option Nat :=
  match c with
  | .append => none
  | .name n => (own w r (.name n)).bind (objectIn w)

/-- A new object is at the component, and all else is what it was. -/
structure Linked (w : World) (r : Nat) (c : Component) (w' : World) : Prop where
  next : w'.next = w.next + 1
  own_eq : ∀ q k, own w' q k =
    if q = r ∧ (keyOf w r c == k) = true then some (.owner w.next) else if q = w.next then none else own w q k
  object : w'.isObject (.owner w.next) = true

/-- **The value is at the nested place**, and objects are made where the way ends before it. -/
inductive Nested : World → Nat → List Component → Val → World → Prop where
  | last {w w' : World} {r : Nat} {c : Component} {value : Val} :
      (∀ q k, own w' q k = if q = r ∧ (keyOf w r c == k) = true then some value else own w q k) → Nested w r [c] value w'
  | inside {w w' : World} {r q : Nat} {c d : Component} {cs : List Component} {value : Val} :
      objectAt w r c = some q → Nested w q (d :: cs) value w' → Nested w r (c :: d :: cs) value w'
  | missing {w w₁ w' : World} {r : Nat} {c d : Component} {cs : List Component} {value : Val} :
      objectAt w r c = none → Linked w r c w₁ → Nested w₁ w.next (d :: cs) value w' → Nested w r (c :: d :: cs) value w'

/-- Of the values that were there, at most one property is another one. -/
def OneProperty (w w' : World) : Prop :=
  ∃ r₀ k₀, ∀ r < w.next, ∀ k : Key, ¬ (r = r₀ ∧ (k₀ == k) = true) → own w' r k = own w r k

theorem own_put (w : World) (r : Nat) (o : Owner) (q : Nat) (k : Key) :
    own (w.put r o) q k = if q = r then o.get k else own w q k := by
  unfold own World.put
  by_cases hq : q = r
  · subst hq
    simp
  · simp [hq]

/-- The key of an array's end is no element, and that of the element behind it when there is one. -/
theorem get_end {o : Owner} (harray : o.type = .array) {values : ValueVector Val} {value : Val}
    (hitems : values.items = o.values.items ++ [value]) (k : Key) :
    Owner.get { o with values := values } k =
      if (Key.number (Double.ofInt64 o.values.items.length) == k) = true then some value else o.get k := by
  unfold Owner.get
  dsimp only
  rw [harray]
  cases k with
  | name n => rfl
  | number i =>
    dsimp only
    rw [beq_number, hitems]
    have hlength := toInt64_ofInt64 (length_lt o.values)
    by_cases hend : (Double.ofInt64 o.values.items.length).equal i = true
    · rw [if_pos hend]
      have hboth : i.isNaN = false ∧ (Double.ofInt64 (o.values.items.length : Int)).scaled = i.scaled := by
        simp only [Double.equal, Bool.and_eq_true, Bool.not_eq_true', beq_iff_eq] at hend
        exact ⟨hend.1.2, hend.2⟩
      have hindex : Double.toInt64 i = o.values.items.length := by
        rw [← hlength]
        unfold Double.toInt64
        rw [hboth.1, hboth.2, Double.isNaN_ofInt64]
      have hequal : i.equal (Double.ofInt64 o.values.items.length) = true := by
        simp only [Double.equal, hboth.1, Double.isNaN_ofInt64, hboth.2, Bool.not_false, Bool.true_and, beq_self_eq_true]
      rw [hindex, if_pos ⟨Int.natCast_nonneg _, hequal⟩, Int.toNat_natCast, List.getElem?_append_right (Nat.le_refl _), Nat.sub_self]
      rfl
    · rw [if_neg hend]
      by_cases hexact : 0 ≤ Double.toInt64 i ∧ i.equal (Double.ofInt64 (Double.toInt64 i)) = true
      · rw [if_pos hexact, if_pos hexact]
        have hne : (Double.toInt64 i).toNat ≠ o.values.items.length := by
          intro heq
          apply hend
          rw [show (o.values.items.length : Int) = Double.toInt64 i by omega]
          have hequal := hexact.2
          simp only [Double.equal, Bool.and_eq_true, Bool.not_eq_true', beq_iff_eq] at hequal ⊢
          exact ⟨⟨hequal.1.2, hequal.1.1⟩, hequal.2.symm⟩
        by_cases hlt : (Double.toInt64 i).toNat < o.values.items.length
        · rw [List.getElem?_append_left hlt]
        · have hone : [value].length ≤ (Double.toInt64 i).toNat - o.values.items.length := by
            rw [List.length_singleton]
            omega
          rw [List.getElem?_append_right (by omega), List.getElem?_eq_none hone, List.getElem?_eq_none (by omega)]
      · rw [if_neg hexact, if_neg hexact]

theorem putProperty_fields (o : Owner) (key : Key) (value : Val) : (o.putProperty key value).type = o.type ∧
    (o.putProperty key value).values = o.values ∧ (o.putProperty key value).table = Entries.put o.table key value := by
  unfold Owner.putProperty
  split
  · exact ⟨rfl, rfl, rfl⟩
  · exact ⟨rfl, rfl, rfl⟩

theorem get_putProperty (o : Owner) (value : Val) {key : Key} (hkey : o.type ≠ .array ∨ ∃ n, key = .name n) (k : Key) :
    (o.putProperty key value).get k = if (key == k) = true then some value else o.get k := by
  obtain ⟨htype, hvalues, htable⟩ := putProperty_fields o key value
  have hfind := Entries.find_put o.table key value k
  unfold Owner.get
  rw [htype, hvalues, htable]
  split
  · rename_i i harray
    have hne : ¬ (key == Key.number i) = true := by
      intro heq
      rcases hkey with h | ⟨n, rfl⟩
      · exact h harray
      · cases (beq_name n _).1 heq
    rw [if_neg hne]
  · exact hfind

/-- A key that is found is none of an array's elements. -/
theorem writerOf_array {fuel : Nat} {w : World} {r : Nat} {key : Key} {writer : Writer}
    (h : writerOf enabled fuel w r key = some writer) (hne : ∀ i, writer ≠ .element i) :
    (w.owner r).type ≠ .array ∨ ∃ n, key = .name n := by
  cases key with
  | name n => exact .inr ⟨n, rfl⟩
  | number i =>
    refine .inl fun harray => hne i ?_
    unfold writerOf at h
    rw [harray] at h
    exact (Option.some.inj h).symm

/-- **A write is one property**: the one of the component. -/
theorem own_write {w w' : World} {r : Nat} {c : Component} {value : Val} (hown : WritesOwn enabled w r c)
    (hwrite : Written x enabled w r c value w') :
    (∀ q k, own w' q k = if q = r ∧ (keyOf w r c == k) = true then some value else own w q k) ∧
      w'.next = w.next ∧ ∀ q ≠ r, w'.owner q = w.owner q := by
  obtain ⟨n, writer, hwriter, hisOwn⟩ := hown
  obtain ⟨fuel, left, hset⟩ := hwrite
  obtain ⟨writer', hwriter', hmade⟩ := Option.bind_eq_some_iff.1 hset
  have hsame : writer = writer' := by
    have h := writerOf_mono hwriter (Nat.le_max_left n fuel)
    rw [writerOf_mono hwriter' (Nat.le_max_right n fuel)] at h
    exact (Option.some.inj h).symm
  subst hsame
  suffices hput : ∃ o, w' = w.put r o ∧ ∀ k, o.get k = if (keyOf w r c == k) = true then some value else (w.owner r).get k by
    obtain ⟨o, rfl, hget⟩ := hput
    refine ⟨fun q k => ?_, rfl, fun q hq => Function.update_of_ne hq _ _⟩
    rw [own_put, hget]
    by_cases hq : q = r
    · subst hq
      simp [own]
    · simp [hq]
  have hproperty : (∀ i, writer ≠ .element i) → w' = w.put r ((w.owner r).putProperty (keyOf w r c) value) →
      ∃ o, w' = w.put r o ∧ ∀ k, o.get k = if (keyOf w r c == k) = true then some value else (w.owner r).get k :=
    fun hne heq => ⟨_, heq, get_putProperty _ value (writerOf_array hwriter hne)⟩
  cases writer with
  | own =>
    cases hmade
    exact hproperty (fun i h => by cases h) rfl
  | absent =>
    cases hmade
    exact hproperty (fun i h => by cases h) rfl
  | element i =>
    obtain ⟨rfl, harray, rfl⟩ := writerOf_element hwriter
    obtain ⟨o, ho, heq⟩ := Option.map_eq_some_iff.1 hmade
    cases heq
    rcases setElement_end (w.owner r) value with ⟨values, hvalues, hitems, -⟩ | ⟨hnone, -⟩
    · rw [hvalues] at ho
      cases ho
      refine ⟨_, rfl, fun k => ?_⟩
      rw [get_end harray hitems, keyOf, addIndex_array harray]
    · rw [hnone] at ho
      cases ho
  | prototype => exact absurd hisOwn id
  | named func => exact absurd hisOwn id
  | readonly => exact absurd hisOwn id
  | generic func => exact absurd hisOwn id

theorem own_read {w w₁ : World} {r : Nat} {n : List Nat} {v : Val} (hown : ReadsOwn enabled w r n)
    (hread : Read x enabled w r n w₁ v) : w₁ = w ∧ objectIn w v = objectAt w r (.name n) := by
  obtain ⟨m, reader, hreader, hisOwn⟩ := hown
  obtain ⟨fuel, left, hget⟩ := hread
  obtain ⟨reader', hreader', hmade⟩ := Option.map_eq_some_iff.1 hget
  have hsame : reader = reader' := by
    have h := readerOf_mono hreader (Nat.le_max_left m fuel)
    rw [readerOf_mono hreader' (Nat.le_max_right m fuel)] at h
    exact (Option.some.inj h).symm
  subst hsame
  have hfind : own w r (.name n) = Entries.find (w.owner r).table (.name n) := by
    unfold own Owner.get
    split
    · rename_i hname
      cases hname
    · rfl
  unfold objectAt
  dsimp only
  rw [hfind]
  unfold readerOf at hreader
  cases hown : Entries.find (w.owner r).table (.name n) with
  | some u =>
    rw [hown] at hreader
    cases hreader
    cases hmade
    exact ⟨rfl, rfl⟩
  | none =>
    cases reader with
    | own u =>
      rw [hown] at hreader
      obtain ⟨found, -, hreader⟩ := Option.bind_eq_some_iff.1 hreader
      cases found with
      | some v => cases hreader
      | none =>
        dsimp only at hreader
        split at hreader
        · cases hreader
        · split at hreader
          · obtain ⟨named, -, hreader⟩ := Option.bind_eq_some_iff.1 hreader
            cases named with
            | some func => cases hreader
            | none =>
              obtain ⟨generic, -, hreader⟩ := Option.bind_eq_some_iff.1 hreader
              cases generic <;> cases hreader
          · cases hreader
    | absent =>
      cases hmade
      exact ⟨rfl, rfl⟩
    | inherited u => exact absurd hisOwn id
    | named func => exact absurd hisOwn id
    | generic func => exact absurd hisOwn id

theorem own_newObject (w : World) (q : Nat) (k : Key) :
    own w.newObject.1 q k = if q = w.next then none else own w q k := by
  unfold own World.newObject
  by_cases hq : q = w.next
  · subst hq
    cases k <;> simp [Owner.get, Entries.find]
  · simp [hq]

theorem keyOf_newObject {w : World} {r : Nat} (hr : r < w.next) (c : Component) : keyOf w.newObject.1 r c = keyOf w r c := by
  have howner : w.newObject.1.owner r = w.owner r := Function.update_of_ne (Nat.ne_of_lt hr) _ _
  cases c with
  | name n => rfl
  | append =>
    unfold keyOf
    rw [howner]

/-- **A new object is linked** at the component. -/
theorem linked_write {w w₂ : World} {r : Nat} (hr : r < w.next) {c : Component} (hown : WritesOwn enabled w.newObject.1 r c)
    (hwrite : Written x enabled w.newObject.1 r c (.owner w.next) w₂) : Linked w r c w₂ := by
  obtain ⟨hget, hnext, howner⟩ := own_write hown hwrite
  refine ⟨hnext, fun q k => ?_, ?_⟩
  · rw [hget, keyOf_newObject hr, own_newObject]
  · unfold World.isObject
    dsimp only
    rw [howner w.next (Nat.ne_of_gt hr)]
    simp [World.newObject]

theorem Linked.fresh {w w' : World} {r : Nat} {c : Component} (h : Linked w r c w') (hr : r < w.next) :
    w.next < w'.next ∧ ∀ n, own w' w.next (.name n) = none := by
  refine ⟨?_, ?_⟩
  · rw [h.next]
    exact Nat.lt_succ_self _
  · intro n
    rw [h.own_eq, if_neg (by omega), if_pos rfl]

theorem Linked.closed {w w' : World} {r : Nat} {c : Component} (h : Linked w r c w') (hw : Closed w) : Closed w' := by
  intro q k t ht
  rw [h.own_eq] at ht
  rw [h.next]
  split at ht
  · injection ht with ht
    injection ht with ht
    omega
  · split at ht
    · cases ht
    · exact Nat.lt_succ_of_lt (hw q k t ht)

theorem objectAt_lt {w : World} (hw : Closed w) {r q : Nat} {c : Component} (h : objectAt w r c = some q) : q < w.next := by
  cases c with
  | append => cases h
  | name n =>
    obtain ⟨v, hv, hin⟩ := Option.bind_eq_some_iff.mp h
    have hq : v = .owner q := by
      rcases objectIn_eq w v with ⟨p, rfl, _, hp⟩ | ⟨_, hp⟩
      · rw [hp] at hin
        rw [Option.some.inj hin]
      · rw [hp] at hin
        cases hin
    exact hw r (.name n) q (hq ▸ hv)

/-- **The nested assignment puts the value at the nested place.** -/
theorem Assigned.nested {w w' : World} {r : Nat} {cs : List Component} {value : Val} (h : Assigned x enabled w r cs value w') :
    Plain x enabled cs w r → r < w.next → Closed w → Nested w r cs value w' := by
  induction h with
  | last _ hwrite =>
    intro hplain _ _
    exact .last (own_write hplain hwrite).1
  | @inside w w₁ w' r q n v value d cs hread hobject _ ih =>
    intro hplain hr hw
    obtain ⟨hown, hrest⟩ := hplain
    have hnext := hrest w₁ v hread
    rw [hobject] at hnext
    obtain ⟨rfl, hat⟩ := own_read hown hread
    rw [hobject] at hat
    exact .inside hat.symm (ih hnext (objectAt_lt hw hat.symm) hw)
  | @missing w w₁ w₂ w' r n v value d cs hread hobject hwrite _ ih =>
    intro hplain hr hw
    obtain ⟨hown, hrest⟩ := hplain
    have hnext := hrest w₁ v hread
    rw [hobject] at hnext
    obtain ⟨rfl, hat⟩ := own_read hown hread
    rw [hobject] at hat
    have hlinked := linked_write hr hnext.1 hwrite
    exact .missing hat.symm hlinked (ih (hnext.2 w₂ hwrite) (hlinked.fresh hr).1 (hlinked.closed hw))
  | @appended w w₂ w' r value d cs _ hwrite _ ih =>
    intro hplain hr hw
    have hlinked := linked_write hr hplain.1 hwrite
    exact .missing rfl hlinked (ih (hplain.2 w₂ hwrite) (hlinked.fresh hr).1 (hlinked.closed hw))

/-- What is put inside a new object leaves the values that were there as they were. -/
theorem Nested.kept {w w' : World} {r : Nat} {cs : List Component} {value : Val} (h : Nested w r cs value w') :
    ∀ b ≤ r, r < w.next → (∀ n, own w r (.name n) = none) → ∀ q < b, ∀ k, own w' q k = own w q k := by
  induction h with
  | last hown =>
    intro b hb _ _ q hq k
    rw [hown, if_neg (by omega)]
  | @inside w w' r q c d cs value hobject _ _ =>
    intro b hb _ hnone
    cases c with
    | append => cases hobject
    | name n =>
      unfold objectAt at hobject
      dsimp only at hobject
      rw [hnone n] at hobject
      cases hobject
  | @missing w w₁ w' r c d cs value _ hlinked _ ih =>
    intro b hb hr _ q hq k
    obtain ⟨hlt, hempty⟩ := hlinked.fresh hr
    rw [ih b (by omega) hlt hempty q hq k, hlinked.own_eq, if_neg (by omega), if_neg (by omega)]

section

variable (x enabled) (w : World) (base : List Val) (r : Nat) (value : Val)

/-- A path is accepted, and the value is put at its place; what is no path is refused.  The object and the value are gone either
way. -/
def Meets (path : List Nat) : Prop :=
  (∀ cs, Path path cs → ∃ fuel w',
    setSmartProperty x enabled fuel path ⟨w, base ++ [Val.owner r, value]⟩ = some (⟨w', base⟩, true) ∧
      Assigned x enabled w r cs value w' ∧
      (Plain x enabled cs w r → r < w.next → Closed w → Nested w r cs value w' ∧ OneProperty w w')) ∧
  ((¬ ∃ cs, Path path cs) →
    ∃ fuel, setSmartProperty x enabled fuel path ⟨w, base ++ [Val.owner r, value]⟩ = some (⟨w, base⟩, false))

variable {x enabled}

/-- **A path that is refused leaves the object on the stack**, and the world is what it was. -/
theorem refused {fuel : Nat} {path : List Nat} {s : State}
    (h : setSmartProperty x enabled fuel path ⟨w, base ++ [Val.owner r, value]⟩ = some (s, false)) :
    s.world = w ∧ s.stack = base ++ [Val.owner r] := by
  have hoffs : (base ++ [Val.owner r, value]).length - 2 = base.length := by simp
  unfold setSmartProperty at h
  dsimp only at h
  rw [hoffs] at h
  cases hscan : scan base.length path false ⟨w, base ++ [Val.owner r, value]⟩ with
  | rejected s' =>
    rw [hscan] at h
    obtain ⟨hstack, hworld⟩ := scan_rejected base (.owner r) base.length path false _ [value] rfl rfl hscan
    cases h
    exact ⟨hworld, hstack⟩
  | done s' =>
    rw [hscan] at h
    obtain ⟨s'', -, hpair⟩ := Option.map_eq_some_iff.1 h
    cases hpair

end

end PropertyPath
end Objects
end ObjectScript
