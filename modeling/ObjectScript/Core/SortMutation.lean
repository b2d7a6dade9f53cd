import ObjectScript.Core.QsortProgram
import ObjectScript.Core.TableSort
import ObjectScript.Core.TableRuns
/-!
# Sorting what the comparator changes

A user comparator is a script function: it may do to the container being sorted whatever scripts do.  `sortArray` keeps the
address of the element buffer and the count from before, `sortTable` an array of property pointers.  Both are safe in every
run whose comparisons leave them true: after each comparison the buffer of the array is where it was at the start and has at
least as many elements, and the properties of the table are the same ones (`sorts_safely`).  A comparator that pushes an
element onto an array without room for it moves the buffer, and the sort goes on in the freed one (`push_while_sorting`).

A buffer that is allocated has an address of its own.  How large one can be is left out: a vector that grows to 2^31 bytes
has moved its buffer before.
-/
namespace ObjectScript
namespace Core

open Links Memory

/-! ## Arrays -/

section Arrays

variable {V σ : Type}

/-- A `GCArrayValue`: the buffers allocated, with what was written to them, and the vector `values`.  `held` are the values
counted by `retainValue` and `releaseValue` as elements. -/
structure ArrayState (V : Type) where
  blocks : Ref → Option (List V)
  fresh : Ref
  buf : Option Ref
  count : Nat
  capacity : Nat
  held : List V

namespace ArrayState

def elements (s : ArrayState V) : Option (List V) :=
  match s.buf with
  | none => if s.count = 0 then some [] else none
  | some b => (s.blocks b).bind fun block => if s.count ≤ block.length then some (block.take s.count) else none

/-- `free(vec.buf)` -/
def freeBuf (s : ArrayState V) : Ref → Option (List V) :=
  match s.buf with
  | none => s.blocks
  | some b => Function.update s.blocks b none

/-- `vectorReserveCapacity` -/
def reserve (s : ArrayState V) (capacity : Nat) : Option (ArrayState V) :=
  if s.capacity < capacity then do
    let vs ← s.elements
    return { s with
      blocks := Function.update s.freeBuf s.fresh (some vs)
      fresh := s.fresh + 1
      buf := some s.fresh
      capacity := max capacity (if s.capacity > 0 then s.capacity * 2 else 4) }
  else some s

/-- Elements are written from the beginning of the buffer on; what is behind them stays. -/
def store (s : ArrayState V) (vs held : List V) : Option (ArrayState V) :=
  match s.buf with
  | none => if vs = [] then some { s with count := 0, held := held } else none
  | some b => (s.blocks b).map fun block =>
    { s with blocks := Function.update s.blocks b (some (vs ++ block.drop vs.length)), count := vs.length, held := held }

end ArrayState

inductive ArrayOp (V : Type) where
  | push (value : V)
  | pop
  | unshift (value : V)
  | shift
  /-- `arr[i] = value` of an element that is there. -/
  | set (i : Nat) (value : V)
  /-- What another sort does. -/
  | exchange (i j : Nat)
  | clear

variable [DecidableEq V]

open ArrayState

def ArrayOp.apply (s : ArrayState V) : ArrayOp V → Option (ArrayState V)
  | .push value => do
    let s ← s.reserve (s.count + 1)
    let vs ← s.elements
    s.store (vs ++ [value]) (value :: s.held)
  | .pop => do
    let vs ← s.elements
    match vs.getLast? with
    | some value => s.store vs.dropLast (s.held.erase value)
    | none => some s
  | .unshift value => do
    let s ← s.reserve (s.count + 1)
    let vs ← s.elements
    s.store (value :: vs) (value :: s.held)
  | .shift => do
    let vs ← s.elements
    match vs with
    | value :: vs => s.store vs (s.held.erase value)
    | [] => some s
  | .set i value => do
    let vs ← s.elements
    match vs[i]? with
    | some old => s.store (vs.set i value) (value :: s.held.erase old)
    | none => some s
  | .exchange i j => do
    let vs ← s.elements
    s.store (vs.swap i j) s.held
  | .clear => some { s with blocks := s.freeBuf, buf := none, count := 0, capacity := 0, held := [] }

def applyArrayOps : List (ArrayOp V) → ArrayState V → Option (ArrayState V)
  | [], s => some s
  | op :: ops, s => (op.apply s).bind (applyArrayOps ops)

/-- A comparator that does operations of type `ω` before it answers. -/
abbrev UserComparator (σ α ω : Type) := σ → α → α → Int × List ω × σ

/-- The elements are read and exchanged in the buffer `base`. -/
def arrayMachine (base : Option Ref) (comp : UserComparator σ V (ArrayOp V)) : Machine (ArrayState V × σ) where
  compare t i j := do
    let b ← base
    let block ← t.1.blocks b
    let x ← block[i]?
    let y ← block[j]?
    let s ← applyArrayOps (comp t.2 x y).2.1 t.1
    return ((comp t.2 x y).1, s, (comp t.2 x y).2.2)
  swap t i j :=
    if i = j then some t
    else do
      let b ← base
      let block ← t.1.blocks b
      if i < block.length ∧ j < block.length then
        some ({ t.1 with blocks := Function.update t.1.blocks b (some (block.swap i j)) }, t.2)
      else none

def sortArray (comp : UserComparator σ V (ArrayOp V)) (s : ArrayState V) (user : σ) : Option (ArrayState V × σ) :=
  (Program.qsort s.count).exec (arrayMachine s.buf comp) (s, user)

/-- The buffer is the one of the start, and the elements of the start are in it or others in their places. -/
def KeepsBuffer (s : ArrayState V) (t : ArrayState V × σ) : Prop := t.1.buf = s.buf ∧ s.count ≤ t.1.count

/-- **The array is `vs`**: its elements are in an allocated buffer with room for them, and are the values held. -/
structure ArrayState.Holds (s : ArrayState V) (vs : List V) : Prop where
  elements_eq : s.elements = some vs
  count_eq : s.count = vs.length
  room : s.count ≤ s.capacity
  missing : s.buf = none → s.capacity = 0
  held : s.held.Perm vs
  bounded : ∀ b, (s.blocks b).isSome → b < s.fresh

def ArrayState.Consistent (s : ArrayState V) : Prop := ∃ vs, s.Holds vs

omit [DecidableEq V] in
theorem elements_of_block (s : ArrayState V) (b : Ref) (block : List V) (hb : s.buf = some b) (hblock : s.blocks b = some block)
    (h : s.count ≤ block.length) : s.elements = some (block.take s.count) := by
  simp only [elements, hb, hblock, Option.bind_some, if_pos h]

omit [DecidableEq V] in
theorem ArrayState.Holds.block {s : ArrayState V} {vs : List V} (h : s.Holds vs) {b : Ref} (hb : s.buf = some b) :
    ∃ block, s.blocks b = some block ∧ s.count ≤ block.length ∧ block.take s.count = vs := by
  have he := h.elements_eq
  simp only [elements, hb, Option.bind_eq_some_iff] at he
  obtain ⟨block, hblock, he⟩ := he
  split at he
  · rename_i hle
    exact ⟨block, hblock, hle, Option.some.inj he⟩
  · cases he

omit [DecidableEq V] in
theorem isSome_of_update {f : Ref → Option (List V)} {b c : Ref} {v : Option (List V)} (h : (Function.update f b v c).isSome) :
    c = b ∨ (f c).isSome := by
  by_cases hcb : c = b
  · exact .inl hcb
  · rw [Function.update_of_ne hcb] at h
    exact .inr h

omit [DecidableEq V] in
theorem isSome_of_freeBuf {s : ArrayState V} {c : Ref} (h : (s.freeBuf c).isSome) : (s.blocks c).isSome := by
  cases hb : s.buf with
  | none =>
    simp only [freeBuf, hb] at h
    exact h
  | some b =>
    simp only [freeBuf, hb] at h
    by_cases hcb : c = b
    · rw [hcb, Function.update_self] at h
      cases h
    · rwa [Function.update_of_ne hcb] at h

omit [DecidableEq V] in
theorem store_holds {s : ArrayState V} {vs vs' held : List V} (h : s.Holds vs) (hroom : vs'.length ≤ s.capacity)
    (hheld : held.Perm vs') : ∃ s', s.store vs' held = some s' ∧ s'.Holds vs' := by
  cases hb : s.buf with
  | none =>
    have hnil : vs' = [] := List.length_eq_zero_iff.1 (by rw [h.missing hb] at hroom; omega)
    subst hnil
    refine ⟨{ s with count := 0, held := held }, by simp only [store, hb, if_true], ?_, rfl, Nat.zero_le _, h.missing, hheld, h.bounded⟩
    simp only [elements, hb, if_true]
  | some b =>
    obtain ⟨block, hblock, -, -⟩ := h.block hb
    obtain ⟨t, ht⟩ : ∃ t, t = { s with
      blocks := Function.update s.blocks b (some (vs' ++ block.drop vs'.length))
      count := vs'.length
      held := held } := ⟨_, rfl⟩
    have hstore : s.store vs' held = some t := by
      rw [ht]
      simp only [store, hb, hblock, Option.map_some]
    have hblocks : t.blocks = Function.update s.blocks b (some (vs' ++ block.drop vs'.length)) := by rw [ht]
    have hbuf : t.buf = some b := by rw [ht]; exact hb
    have hcount : t.count = vs'.length := by rw [ht]
    refine ⟨t, hstore, ?_, hcount, by rw [ht]; exact hroom, fun hnone => absurd (hbuf.symm.trans hnone) (by simp),
      by rw [ht]; exact hheld, fun c hc => ?_⟩
    · rw [elements_of_block t b _ hbuf (by rw [hblocks]; exact Function.update_self _ _ _)
        (by rw [hcount, List.length_append]; exact Nat.le_add_right _ _), hcount, List.take_left]
    · have hfresh : t.fresh = s.fresh := by rw [ht]
      rw [hblocks] at hc
      rw [hfresh]
      rcases isSome_of_update hc with rfl | hc
      · exact h.bounded c (by rw [hblock]; rfl)
      · exact h.bounded c hc

omit [DecidableEq V] in
/-- There is room after `reserve`, in the same buffer or in a new one. -/
theorem reserve_holds {s : ArrayState V} {vs : List V} (h : s.Holds vs) (n : Nat) :
    ∃ s', s.reserve n = some s' ∧ s'.Holds vs ∧ n ≤ s'.capacity ∧ s'.held = s.held ∧ s'.count = s.count := by
  have hcount := h.count_eq
  have hroom := h.room
  by_cases hlt : s.capacity < n
  · obtain ⟨t, ht⟩ : ∃ t, t = { s with
      blocks := Function.update s.freeBuf s.fresh (some vs)
      fresh := s.fresh + 1
      buf := some s.fresh
      capacity := max n (if s.capacity > 0 then s.capacity * 2 else 4) } := ⟨_, rfl⟩
    have hreserve : s.reserve n = some t := by
      rw [reserve, if_pos hlt, h.elements_eq, ht]
      rfl
    have hblocks : t.blocks = Function.update s.freeBuf s.fresh (some vs) := by rw [ht]
    have hbuf : t.buf = some s.fresh := by rw [ht]
    have hcount' : t.count = s.count := by rw [ht]
    have hcapacity : t.capacity = max n (if s.capacity > 0 then s.capacity * 2 else 4) := by rw [ht]
    refine ⟨t, hreserve, ⟨?_, hcount'.trans hcount, by omega, fun hnone => absurd (hbuf.symm.trans hnone) (by simp),
      by rw [ht]; exact h.held, fun c hc => ?_⟩, by omega, by rw [ht], hcount'⟩
    · rw [elements_of_block t s.fresh vs hbuf (by rw [hblocks]; exact Function.update_self _ _ _) (by omega), hcount', hcount,
        List.take_length]
    · have hfresh : t.fresh = s.fresh + 1 := by rw [ht]
      rw [hblocks] at hc
      rw [hfresh]
      rcases isSome_of_update hc with rfl | hc
      · exact Nat.lt_succ_self _
      · exact Nat.lt_succ_of_lt (h.bounded c (isSome_of_freeBuf hc))
  · exact ⟨s, if_neg hlt, h, by omega, rfl, rfl⟩

/-- **What a script does to an array** leaves it consistent. -/
theorem apply_consistent {s : ArrayState V} (h : s.Consistent) (op : ArrayOp V) : ∃ s', op.apply s = some s' ∧ s'.Consistent := by
  obtain ⟨vs, h⟩ := h
  have hcount := h.count_eq
  have hroom := h.room
  have consistent {t : ArrayState V} {ws vs' held : List V} (ht : t.Holds ws) (hr : vs'.length ≤ t.capacity)
      (hh : held.Perm vs') : ∃ s', t.store vs' held = some s' ∧ s'.Consistent := by
    obtain ⟨s', he, h'⟩ := store_holds ht hr hh
    exact ⟨s', he, _, h'⟩
  cases op with
  | push value =>
    obtain ⟨s1, hr, h1, hle, hheld, hc⟩ := reserve_holds h (s.count + 1)
    simp only [ArrayOp.apply, hr, h1.elements_eq, Option.bind_eq_bind, Option.bind_some]
    refine consistent h1 (by rw [List.length_append, ← hcount]; exact hle) ?_
    rw [hheld]
    exact (h.held.cons value).trans (List.perm_append_singleton value vs).symm
  | pop =>
    simp only [ArrayOp.apply, h.elements_eq, Option.bind_eq_bind, Option.bind_some]
    split
    · rename_i value hlast
      refine consistent h (by rw [List.length_dropLast]; omega) ?_
      have hvs := List.dropLast_append_getLast? value hlast
      have hperm : s.held.Perm (value :: vs.dropLast) := by
        refine h.held.trans ?_
        rw [← hvs, List.dropLast_concat]
        exact List.perm_append_singleton value _
      have := hperm.erase value
      rwa [List.erase_cons_head] at this
    · exact ⟨s, rfl, vs, h⟩
  | unshift value =>
    obtain ⟨s1, hr, h1, hle, hheld, hc⟩ := reserve_holds h (s.count + 1)
    simp only [ArrayOp.apply, hr, h1.elements_eq, Option.bind_eq_bind, Option.bind_some]
    refine consistent h1 (by rw [List.length_cons, ← hcount]; exact hle) ?_
    rw [hheld]
    exact h.held.cons value
  | shift =>
    simp only [ArrayOp.apply, h.elements_eq, Option.bind_eq_bind, Option.bind_some]
    cases vs with
    | nil => exact ⟨s, rfl, [], h⟩
    | cons value vs =>
      refine consistent h (by rw [List.length_cons] at hcount; omega) ?_
      have := h.held.erase value
      rwa [List.erase_cons_head] at this
  | set i value =>
    simp only [ArrayOp.apply, h.elements_eq, Option.bind_eq_bind, Option.bind_some]
    split
    · rename_i old hold
      refine consistent h (by rw [List.length_set]; omega) ?_
      obtain ⟨hi, rfl⟩ := List.getElem?_eq_some_iff.1 hold
      have herase := (h.held.trans (List.getElem_cons_eraseIdx_perm hi).symm).erase vs[i]
      rw [List.erase_cons_head] at herase
      exact (herase.cons value).trans (List.set_perm_cons_eraseIdx hi value).symm
    · exact ⟨s, rfl, vs, h⟩
  | exchange i j =>
    simp only [ArrayOp.apply, h.elements_eq, Option.bind_eq_bind, Option.bind_some]
    have hperm : (vs.swap i j).Perm vs := List.swap_perm vs i j
    exact consistent h (by rw [hperm.length_eq]; omega) (h.held.trans hperm.symm)
  | clear =>
    exact ⟨_, rfl, [], ⟨rfl, rfl, Nat.le_refl _, fun _ => rfl, .nil, fun c hc => h.bounded c (isSome_of_freeBuf hc)⟩⟩

theorem applyArrayOps_consistent : ∀ (ops : List (ArrayOp V)) {s : ArrayState V}, s.Consistent →
    ∃ s', applyArrayOps ops s = some s' ∧ s'.Consistent
  | [], s, h => ⟨s, rfl, h⟩
  | op :: ops, s, h => by
    obtain ⟨s1, he, h1⟩ := apply_consistent h op
    obtain ⟨s', hes, h'⟩ := applyArrayOps_consistent ops h1
    exact ⟨s', by rw [applyArrayOps, he]; exact hes, h'⟩

omit [DecidableEq V] in
theorem swap_consistent {s : ArrayState V} {vs : List V} (h : s.Holds vs) {b : Ref} {block : List V} (hb : s.buf = some b)
    (hblock : s.blocks b = some block) {i j : Nat} (hi : i < s.count) (hj : j < s.count) (hle : s.count ≤ block.length) :
    ArrayState.Consistent { s with blocks := Function.update s.blocks b (some (block.swap i j)) } := by
  have htake : (block.swap i j).take s.count = (block.take s.count).swap i j := by
    rw [List.swap_eq_of_lt (show i < block.length by omega) (show j < block.length by omega),
      List.swap_eq_of_lt (by rw [List.length_take]; omega) (by rw [List.length_take]; omega), List.take_set, List.take_set,
      List.getElem_take, List.getElem_take]
  have hvs : block.take s.count = vs := by
    have he := elements_of_block s b block hb hblock hle
    rw [h.elements_eq] at he
    exact (Option.some.inj he).symm
  have hperm : ((block.swap i j).take s.count).Perm vs := by
    rw [htake, hvs]
    exact List.swap_perm vs i j
  have hlen : (block.swap i j).length = block.length := (List.swap_perm block i j).length_eq
  refine ⟨(block.swap i j).take s.count, ?_, h.count_eq.trans hperm.length_eq.symm, h.room, h.missing, h.held.trans hperm.symm, fun c hc => ?_⟩
  · exact elements_of_block { s with blocks := _ } b (block.swap i j) hb (Function.update_self _ _ _) (by rw [hlen]; exact hle)
  · rcases isSome_of_update hc with rfl | hc
    · exact h.bounded c (by rw [hblock]; rfl)
    · exact h.bounded c hc

/-- **An array is sorted safely** when its comparisons leave it its buffer and as many elements. -/
theorem sortArray_safe (comp : UserComparator σ V (ArrayOp V)) {s : ArrayState V} (user : σ) (h : s.Consistent)
    (hmeets : (Program.qsort s.count).Meets (arrayMachine s.buf comp) (KeepsBuffer s) (s, user)) :
    ∃ s' user', sortArray comp s user = some (s', user') ∧ s'.Consistent ∧ s'.buf = s.buf ∧ s.count ≤ s'.count := by
  have hcompare : ∀ (t : ArrayState V × σ) (i j : Nat), t.1.Consistent ∧ KeepsBuffer s t → i < s.count → j < s.count →
      ∃ c t', (arrayMachine s.buf comp).compare t i j = some (c, t') ∧ (KeepsBuffer s t' → t'.1.Consistent ∧ KeepsBuffer s t') := by
    rintro ⟨t, user⟩ i j ⟨⟨vs, ht⟩, hbuf, hcount⟩ hi hj
    change t.Holds vs at ht
    change t.buf = s.buf at hbuf
    change s.count ≤ t.count at hcount
    cases hb : s.buf with
    | none =>
      have := ht.missing (hbuf.trans hb)
      have := ht.room
      omega
    | some b =>
      obtain ⟨block, hblock, hle, -⟩ := ht.block (hbuf.trans hb)
      have hi' : i < block.length := by omega
      have hj' : j < block.length := by omega
      obtain ⟨t', he, ht'⟩ := applyArrayOps_consistent (comp user block[i] block[j]).2.1 ⟨vs, ht⟩
      refine ⟨(comp user block[i] block[j]).1, (t', (comp user block[i] block[j]).2.2), ?_, fun hkept => ⟨ht', hkept⟩⟩
      simp only [arrayMachine, hblock, List.getElem?_eq_getElem hi', List.getElem?_eq_getElem hj', he, Option.bind_eq_bind,
        Option.bind_some, Option.pure_def]
  have hswap : ∀ (t : ArrayState V × σ) (i j : Nat), t.1.Consistent ∧ KeepsBuffer s t → i < s.count → j < s.count →
      ∃ t', (arrayMachine s.buf comp).swap t i j = some t' ∧ t'.1.Consistent ∧ KeepsBuffer s t' := by
    rintro ⟨t, user⟩ i j ⟨⟨vs, ht⟩, hbuf, hcount⟩ hi hj
    change t.Holds vs at ht
    change t.buf = s.buf at hbuf
    change s.count ≤ t.count at hcount
    by_cases hij : i = j
    · exact ⟨(t, user), by simp only [arrayMachine, if_pos hij], ⟨vs, ht⟩, hbuf, hcount⟩
    · cases hb : s.buf with
      | none =>
        have := ht.missing (hbuf.trans hb)
        have := ht.room
        omega
      | some b =>
        obtain ⟨block, hblock, hle, -⟩ := ht.block (hbuf.trans hb)
        have hin : i < block.length ∧ j < block.length := ⟨by omega, by omega⟩
        refine ⟨({ t with blocks := Function.update t.blocks b (some (block.swap i j)) }, user), ?_,
          swap_consistent ht (hbuf.trans hb) hblock (by omega) (by omega) hle, hbuf, hcount⟩
        simp only [arrayMachine, if_neg hij, hblock, if_pos hin, Option.bind_eq_bind, Option.bind_some]
  obtain ⟨⟨s', user'⟩, he, hs', hkept⟩ := Program.exec_safe hcompare hswap (Program.qsort s.count) (s, user)
    (Program.qsort_inRange s.count) hmeets ⟨h, rfl, Nat.le_refl _⟩
  exact ⟨s', user', he, hs', hkept.1, hkept.2⟩

end Arrays

/-! ## Tables -/

section Tables

variable {N σ : Type} [Number N] [ValueHash N]

/-- What a script does to the properties of an object. -/
inductive TableOp (N : Type) where
  | setTableValue (index value : Value N)
  | deleteTableProperty (index : Value N)
  | clear

/-- An object that was cleared has no table, until a property is put in again. -/
def TableOp.apply (m : Memory N) (table : Table) : TableOp N → Option (Memory N × Table)
  | .setTableValue index value => (Core.setTableValue m table index value).map fun r => (r.1, r.2.1)
  | .deleteTableProperty index =>
    if table.heads = none then some (m, table)
    else (Core.deleteTableProperty m table index).map fun r => (r.1, r.2.1)
  | .clear => clearTable m table

def applyTableOps : List (TableOp N) → Memory N → Table → Option (Memory N × Table)
  | [], m, table => some (m, table)
  | op :: ops, m, table => (op.apply m table).bind fun r => applyTableOps ops r.1 r.2

/-- A table being sorted, with the array of its property pointers. -/
structure TableSort (N σ : Type) where
  mem : Memory N
  table : Table
  props : List Ref
  user : σ

/-- The properties are read through the pointers, which are what is exchanged. -/
def tableMachine (comp : UserComparator σ (Value N × Value N) (TableOp N)) : Machine (TableSort N σ) where
  compare t i j := do
    let c ← t.props[i]?
    let d ← t.props[j]?
    let p ← t.mem.prop c
    let q ← t.mem.prop d
    let r ← applyTableOps (comp t.user p q).2.1 t.mem t.table
    return ((comp t.user p q).1, { t with mem := r.1, table := r.2, user := (comp t.user p q).2.2 })
  swap t i j := if i < t.props.length ∧ j < t.props.length then some { t with props := t.props.swap i j } else none

/-- `sortTable`: after `qsort` the count of the table is read again. -/
def sortTableUser (comp : UserComparator σ (Value N × Value N) (TableOp N)) (m : Memory N) (table : Table) (user : σ)
    (reorder : Bool) : Option (Memory N × Table × σ) :=
  if table.count > 1 then do
    let props ← collectProps m (table.count + 1) table.first
    let t ← (Program.qsort table.count).exec (tableMachine comp) ⟨m, table, props, user⟩
    if t.table.count ≤ t.props.length then do
      let r ← linkProps t.mem t.table reorder (t.props.take (max t.table.count 1))
      return (r.1, r.2, t.user)
    else none
  else some (m, table, user)

/-- The properties of the table are those the pointers point to. -/
def KeepsProps (t : TableSort N σ) : Prop :=
  ∃ cs, collectProps t.mem (t.table.count + 1) t.table.first = some cs ∧ cs.Perm t.props

/-- **The comparisons of the sort keep the properties**. -/
def KeepsTable (comp : UserComparator σ (Value N × Value N) (TableOp N)) (m : Memory N) (table : Table) (user : σ) : Prop :=
  ∀ props, collectProps m (table.count + 1) table.first = some props →
    (Program.qsort table.count).Meets (tableMachine comp) KeepsProps ⟨m, table, props, user⟩

theorem tableOp_linked {m : Memory N} {table : Table} {cs : List Ref} (h : table.Linked m cs) (hm : Bounded m) (op : TableOp N) :
    ∃ m' table' cs', op.apply m table = some (m', table') ∧ table'.Linked m' cs' ∧ Bounded m' := by
  cases op with
  | setTableValue index value =>
    obtain ⟨m', table', prop, cs', he, hlinked, ht, -⟩ := setTableValue_linked h hm index value
    exact ⟨m', table', cs', by rw [TableOp.apply, he]; rfl, hlinked, ht.bounded⟩
  | deleteTableProperty index =>
    by_cases hheads : table.heads = none
    · exact ⟨m, table, cs, by rw [TableOp.apply, if_pos hheads], h, hm⟩
    · rcases deleteTableProperty_linked h hm hheads index with
        ⟨m', table', xs, c, ys, -, -, he, hlinked, ht, -⟩ | ⟨he, -⟩
      · exact ⟨m', table', _, by rw [TableOp.apply, if_neg hheads, he]; rfl, hlinked, ht.bounded⟩
      · exact ⟨m, table, cs, by rw [TableOp.apply, if_neg hheads, he]; rfl, h, hm⟩
  | clear =>
    obtain ⟨m', he, ht⟩ := clearTable_linked h hm
    exact ⟨m', _, [], he, Table.new_linked m', ht.bounded⟩

theorem applyTableOps_linked : ∀ (ops : List (TableOp N)) {m : Memory N} {table : Table} {cs : List Ref}, table.Linked m cs →
    Bounded m → ∃ m' table' cs', applyTableOps ops m table = some (m', table') ∧ table'.Linked m' cs' ∧ Bounded m'
  | [], m, table, cs, h, hm => ⟨m, table, cs, rfl, h, hm⟩
  | op :: ops, m, table, cs, h, hm => by
    obtain ⟨m1, table1, cs1, he, h1, hm1⟩ := tableOp_linked h hm op
    obtain ⟨m', table', cs', hes, h', hm'⟩ := applyTableOps_linked ops h1 hm1
    exact ⟨m', table', cs', by rw [applyTableOps, he]; exact hes, h', hm'⟩

/-- The pointers point to the properties of the table, of which there are `num`. -/
structure PointsTo (num : Nat) (t : TableSort N σ) (cs : List Ref) : Prop where
  linked : t.table.Linked t.mem cs
  bounded : Bounded t.mem
  perm : cs.Perm t.props
  length_eq : t.props.length = num

/-- **A table is sorted safely** when its comparisons leave it its properties. -/
theorem sortTableUser_safe (comp : UserComparator σ (Value N × Value N) (TableOp N)) {m : Memory N} {table : Table}
    {cs : List Ref} (h : table.Linked m cs) (hm : Bounded m) (user : σ) (reorder : Bool) (hkeeps : KeepsTable comp m table user) :
    ∃ m' table' user' cs', sortTableUser comp m table user reorder = some (m', table', user') ∧ table'.Linked m' cs' ∧
      Bounded m' ∧ cs'.length = cs.length := by
  have hcount := h.count
  by_cases hmany : table.count > 1
  · have hcollect := collectProps_some cs (table.count + 1) table.first h.list.forward h.live (by omega)
    have hcompare : ∀ (t : TableSort N σ) (i j : Nat), (∃ ds, PointsTo table.count t ds) → i < table.count → j < table.count →
        ∃ c t', (tableMachine comp).compare t i j = some (c, t') ∧ (KeepsProps t' → ∃ ds, PointsTo table.count t' ds) := by
      rintro t i j ⟨ds, ht⟩ hi hj
      have hi' : i < t.props.length := by rw [ht.length_eq]; exact hi
      have hj' : j < t.props.length := by rw [ht.length_eq]; exact hj
      have hlive (k : Nat) (hk : k < t.props.length) : t.mem.prop t.props[k] = some (content t.mem t.props[k]) :=
        prop_of_live (ht.linked.live _ (ht.perm.mem_iff.2 (List.getElem_mem hk)))
      generalize hanswer : comp t.user (content t.mem t.props[i]) (content t.mem t.props[j]) = answer
      obtain ⟨m', table', ds', he, h', hm'⟩ := applyTableOps_linked answer.2.1 ht.linked ht.bounded
      refine ⟨answer.1, { t with mem := m', table := table', user := answer.2.2 }, ?_, ?_⟩
      · simp only [tableMachine, List.getElem?_eq_getElem hi', List.getElem?_eq_getElem hj', hlive i hi', hlive j hj', hanswer, he,
          Option.bind_eq_bind, Option.bind_some, Option.pure_def]
      · rintro ⟨es, hes, hperm⟩
        have hlen := h'.count
        have hsame := collectProps_some ds' (table'.count + 1) table'.first h'.list.forward h'.live (by omega)
        obtain rfl : es = ds' := Option.some.inj (hes.symm.trans hsame)
        exact ⟨es, h', hm', hperm, ht.length_eq⟩
    have hswap : ∀ (t : TableSort N σ) (i j : Nat), (∃ ds, PointsTo table.count t ds) → i < table.count → j < table.count →
        ∃ t', (tableMachine comp).swap t i j = some t' ∧ ∃ ds, PointsTo table.count t' ds := by
      rintro t i j ⟨ds, ht⟩ hi hj
      have hin : i < t.props.length ∧ j < t.props.length := by
        rw [ht.length_eq]
        exact ⟨hi, hj⟩
      have hperm : (t.props.swap i j).Perm t.props := List.swap_perm t.props i j
      exact ⟨{ t with props := t.props.swap i j }, by simp only [tableMachine, if_pos hin],
        ds, ht.linked, ht.bounded, ht.perm.trans hperm.symm, hperm.length_eq.trans ht.length_eq⟩
    obtain ⟨t, he, ds, ht⟩ := Program.exec_safe hcompare hswap (Program.qsort table.count) ⟨m, table, cs, user⟩
      (Program.qsort_inRange table.count) (hkeeps cs hcollect) ⟨cs, h, hm, .refl cs, hcount.symm⟩
    have hlen : t.table.count = t.props.length := ht.linked.count.trans ht.perm.length_eq
    have hne : t.props ≠ [] := fun hnil => by
      have := ht.length_eq
      rw [hnil, List.length_nil] at this
      omega
    have hpos := List.length_pos_iff.2 hne
    have htake : t.props.take (max t.table.count 1) = t.props := List.take_of_length_le (by omega)
    obtain ⟨m', table', hlink, hlinked, htouches, -⟩ := linkProps_linked ht.linked ht.bounded reorder ht.perm.symm hne
    refine ⟨m', table', t.user, t.props, ?_, hlinked, htouches.bounded, by rw [ht.length_eq, hcount]⟩
    rw [sortTableUser, if_pos hmany]
    simp only [hcollect, he, htake, hlink, if_pos (Nat.le_of_eq hlen), Option.bind_eq_bind, Option.bind_some, Option.pure_def]
  · exact ⟨m, table, user, cs, if_neg hmany, h, hm, rfl⟩

end Tables

/-! ## Both -/

/-- **Sorting is safe under mutation** in every run whose comparisons leave an array its buffer and as many elements, or a
table its properties: no freed buffer and no freed property is read or written, and what was sorted is consistent. -/
theorem sorts_safely {V N σ : Type} [DecidableEq V] [Number N] [ValueHash N] (compareArray : UserComparator σ V (ArrayOp V))
    (compareProps : UserComparator σ (Value N × Value N) (TableOp N)) (user : σ) :
    (∀ s : ArrayState V, s.Consistent →
      (Program.qsort s.count).Meets (arrayMachine s.buf compareArray) (KeepsBuffer s) (s, user) →
      ∃ s' user', sortArray compareArray s user = some (s', user') ∧ s'.Consistent ∧ s'.buf = s.buf ∧ s.count ≤ s'.count) ∧
    ∀ (m : Memory N) (table : Table) (cs : List Ref) (reorder : Bool), table.Linked m cs → Bounded m →
      KeepsTable compareProps m table user →
      ∃ m' table' user' cs', sortTableUser compareProps m table user reorder = some (m', table', user') ∧ table'.Linked m' cs' ∧
        Bounded m' ∧ cs'.length = cs.length :=
  ⟨fun _ h hmeets => sortArray_safe compareArray user h hmeets,
    fun _ _ _ reorder h hm hkeeps => sortTableUser_safe compareProps h hm user reorder hkeeps⟩

/-- An array with the capacity that `vectorReserveCapacity` begins with. -/
def smallArray (vs : List Nat) : ArrayState Nat :=
  { blocks := fun b => if b = 0 then some vs else none, fresh := 1, buf := some 0, count := vs.length, capacity := 4, held := vs }

theorem smallArray_consistent {vs : List Nat} (h : vs.length ≤ 4) : (smallArray vs).Consistent := by
  refine ⟨vs, ?_, rfl, h, fun hnone => (by cases hnone), .refl _, fun b hb => ?_⟩
  · simp [smallArray, ArrayState.elements]
  · by_cases h0 : b = 0
    · rw [h0]
      exact Nat.one_pos
    · simp [smallArray, h0] at hb

/-- The first element is set by the comparison, and one is pushed where there is room for it. -/
theorem sorts_safely_set : ∃ s' : ArrayState Nat × Unit,
    sortArray (fun _ _ _ => (1, [.set 0 7, .push 5], ())) (smallArray [3, 4]) () = some s' ∧ s'.1.Consistent ∧
      s'.1.elements = some [7, 4, 5] := by
  have hmeets : (Program.qsort 2).Meets (arrayMachine (some 0) fun _ _ _ => (1, [.set 0 7, .push 5], ()))
      (KeepsBuffer (smallArray [3, 4])) (smallArray [3, 4], ()) := by
    refine fun c t' h => ?_
    cases h
    exact ⟨⟨rfl, by decide⟩, fun t' h => by cases h; trivial⟩
  obtain ⟨s', user', he, h, -⟩ := (sorts_safely (N := Int) (fun _ _ _ => (1, [.set 0 7, .push 5], ())) (fun _ _ _ => (1, [], ()))
    ()).1 (smallArray [3, 4]) (smallArray_consistent (by decide)) hmeets
  refine ⟨(s', user'), he, h, ?_⟩
  cases he
  rfl

/-- **A comparator that pushes onto a full array moves the buffer**, and the next elements are compared in the freed one. -/
theorem push_while_sorting : ¬ ∀ (comp : UserComparator Unit Nat (ArrayOp Nat)) (s : ArrayState Nat), s.Consistent →
    ∃ s' user', sortArray comp s () = some (s', user') := by
  intro h
  obtain ⟨s', user', he⟩ := h (fun _ _ _ => (0, [.push 7], ())) (smallArray [3, 4, 5, 6]) (smallArray_consistent (by decide))
  cases he

end Core
end ObjectScript
