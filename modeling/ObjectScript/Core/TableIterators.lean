import ObjectScript.Core.TableRuns
/-!
# Iterating over a table that changes

An `IteratorState` hangs off its table and points to the property it will yield next.  A deletion moves every iterator that
points to the deleted property on, a clear detaches all of them, and a step goes on before the caller sees what it yields.  So
an iterator always stands in the list of the table, in front of those it will still yield (`Stands`), whatever happens between
its steps.  `Effect` says once what an operation does to the list and to the iterators.

The states are told apart by numbers, which stand for their addresses; a number is given once.
-/
namespace ObjectScript
namespace Core

open Links Memory

variable {N : Type}

/-- A table, its memory, and the iterators of the table with their numbers. -/
structure Iteration (N : Type) where
  mem : Memory N
  table : Table
  iterators : List (Nat × IteratorState)
  fresh : Nat

namespace Iteration

def start : Iteration N := { mem := Memory.empty, table := Table.new, iterators := [], fresh := 0 }

def tableOf (s : Iteration N) : Table := { s.table with iterators := s.iterators.map Prod.snd }

/-- The memory and the table after an operation on it. -/
def put (s : Iteration N) (m : Memory N) (table : Table) : Iteration N :=
  { s with mem := m, table := table, iterators := (s.iterators.map Prod.fst).zip table.iterators }

/-- `removeIterator`, if it is one of the table. -/
def removeIterator (s : Iteration N) (k : Nat) : Iteration N := { s with iterators := s.iterators.filter fun p => p.1 != k }

/-- `iter->prop = iter->ascending ? iter->prop->next : iter->prop->prev` -/
def advance (m : Memory N) (prop : Ref) (iter : IteratorState) : IteratorState :=
  { iter with prop := if iter.ascending then m.next prop else m.prev prop }

end Iteration

inductive IterOp (N : Type) where
  | setTableValue (index value : Value N)
  | deleteTableProperty (index : Value N)
  | clearTable
  | iterator (ascending : Bool)
  | iteratorStep (k : Nat)
  | iteratorStateDestructor (k : Nat)

/-- What a step yields: the iterator, the property, its index and its value. -/
abbrev Yield (N : Type) := Nat × Ref × (Value N × Value N)

section Model

variable [Number N] [ValueHash N]

open Iteration

def stepIter (s : Iteration N) : IterOp N → Option (Iteration N × Option (Yield N))
  | .setTableValue index value => (setTableValue s.mem s.tableOf index value).map fun r => (s.put r.1 r.2.1, none)
  | .deleteTableProperty index => (deleteTableProperty s.mem s.tableOf index).map fun r => (s.put r.1 r.2.1, none)
  | .clearTable => (clearTable s.mem s.tableOf).map fun r => (s.put r.1 r.2, none)
  | .iterator ascending =>
    if s.table.count > 0 then
      let iter : IteratorState := { prop := if ascending then s.table.first else s.table.last, ascending := ascending }
      some ({ s with iterators := (s.fresh, iter) :: s.iterators, fresh := s.fresh + 1 }, none)
    else some ({ s with fresh := s.fresh + 1 }, none)
  | .iteratorStep k =>
    match s.iterators.find? fun p => p.1 == k with
    | none => some (s, none)
    | some (_, iter) =>
      match iter.prop with
      | some prop => do
        let p ← s.mem.prop prop
        return ({ s with iterators := s.iterators.map fun q => (q.1, if q.1 = k then advance s.mem prop q.2 else q.2) },
          some (k, prop, p))
      | none => some (s.removeIterator k, none)
  | .iteratorStateDestructor k => some (s.removeIterator k, none)

def runIter : Iteration N → List (IterOp N) → Option (Iteration N × List (Yield N))
  | s, [] => some (s, [])
  | s, op :: ops => do
    let (s, y) ← stepIter s op
    let (s, ys) ← runIter s ops
    return (s, y.toList ++ ys)

end Model

/-! ## Places in the list -/

def direction (ascending : Bool) (cs : List Ref) : List Ref := if ascending then cs else cs.reverse

theorem mem_direction {ascending : Bool} {cs : List Ref} {c : Ref} : c ∈ direction ascending cs ↔ c ∈ cs := by
  cases ascending with
  | true => exact Iff.rfl
  | false => exact List.mem_reverse

theorem nodup_direction {ascending : Bool} {cs : List Ref} : (direction ascending cs).Nodup ↔ cs.Nodup := by
  cases ascending with
  | true => exact Iff.rfl
  | false => exact List.nodup_reverse

/-- **The iterator stands in the list `cs`**, in front of `rest`, which it will still yield. -/
def Stands (cs : List Ref) (iter : IteratorState) (rest : List Ref) : Prop :=
  iter.prop = rest.head? ∧ ∃ passed, direction iter.ascending cs = passed ++ rest

section

variable {cs rest order : List Ref} {iter : IteratorState}

theorem Stands.mem (h : Stands cs iter rest) {c : Ref} (hc : c ∈ rest) : c ∈ cs := by
  obtain ⟨passed, hp⟩ := h.2
  exact mem_direction.1 (hp ▸ List.mem_append_right _ hc)

theorem Stands.nodup (h : Stands cs iter rest) (hnd : cs.Nodup) : rest.Nodup := by
  obtain ⟨passed, hp⟩ := h.2
  exact (hp ▸ nodup_direction.2 hnd : (passed ++ rest).Nodup).of_append_right

/-- A property at the end of the list is yielded last, or not at all. -/
theorem Stands.append (h : Stands cs iter rest) (c : Ref) : ∃ more, Stands (cs ++ [c]) iter (rest ++ more) ∧ ∀ d ∈ more, d = c := by
  obtain ⟨passed, hp⟩ := h.2
  cases hasc : iter.ascending with
  | true =>
    rw [hasc] at hp
    cases rest with
    | nil =>
      refine ⟨[], ⟨h.1, passed ++ [c], ?_⟩, by simp⟩
      rw [hasc, direction, if_pos rfl]
      rw [direction, if_pos rfl, List.append_nil] at hp
      rw [hp, List.append_nil, List.append_nil]
    | cons d rest =>
      refine ⟨[c], ⟨h.1, passed, ?_⟩, by simp⟩
      rw [hasc, direction, if_pos rfl]
      rw [direction, if_pos rfl] at hp
      rw [hp, List.append_assoc]
  | false =>
    rw [hasc, direction, if_neg (by simp)] at hp
    refine ⟨[], ⟨by rw [List.append_nil]; exact h.1, c :: passed, ?_⟩, by simp⟩
    rw [hasc, direction, if_neg (by simp), List.reverse_append, hp, List.append_nil]
    rfl

/-- A list with a cell taken out, split where it was split before. -/
theorem split_remove {passed before after : List Ref} {c : Ref} (hnd : (before ++ c :: after).Nodup)
    (h : before ++ c :: after = passed ++ rest) :
    ∃ passed' rest', before ++ after = passed' ++ rest' ∧ rest'.Sublist rest ∧ (∀ d ∈ rest, d ∈ rest' ∨ d = c) ∧
      rest'.head? = if rest.head? = some c then after.head? else rest.head? := by
  rcases List.append_eq_append_iff.1 h with ⟨xs, rfl, hxs⟩ | ⟨xs, rfl, hxs⟩
  · cases xs with
    | nil =>
      refine ⟨before, after, rfl, ?_, ?_, ?_⟩ <;> rw [List.nil_append] at hxs <;> subst hxs
      · exact List.sublist_cons_self _ _
      · exact fun d hd => (List.mem_cons.1 hd).symm
      · rw [List.head?_cons, if_pos rfl]
    | cons x xs =>
      obtain ⟨rfl, rfl⟩ := List.cons.inj hxs
      refine ⟨before ++ xs, rest, (List.append_assoc _ _ _).symm, List.Sublist.refl _, fun d hd => .inl hd, ?_⟩
      rw [if_neg]
      intro hhead
      have hc : c ∈ xs ++ rest := List.mem_append_right _ (List.mem_of_head? hhead)
      rw [List.nodup_middle, List.nodup_cons] at hnd
      exact hnd.1 (List.mem_append_right _ hc)
  · refine ⟨passed, xs ++ after, List.append_assoc _ _ _, ?_, ?_, ?_⟩ <;> rw [hxs]
    · exact List.Sublist.append_left (List.sublist_cons_self _ _) _
    · intro d hd
      simp only [List.mem_append, List.mem_cons] at hd ⊢
      grind
    · cases xs with
      | nil => rw [List.nil_append, List.nil_append, List.head?_cons, if_pos rfl]
      | cons x xs =>
        rw [List.cons_append, List.cons_append, List.head?_cons, List.head?_cons, if_neg]
        rintro ⟨⟩
        rw [List.nodup_middle, List.nodup_cons] at hnd
        exact hnd.1 (by simp)

/-- **A deletion moves the iterator on** if it pointed to the deleted property. -/
theorem Stands.remove {xs ys : List Ref} {c : Ref} (h : Stands (xs ++ c :: ys) iter rest) (hnd : (xs ++ c :: ys).Nodup) :
    ∃ rest', Stands (xs ++ ys) (skipped xs ys c iter) rest' ∧ rest'.Sublist rest ∧ ∀ d ∈ rest, d ∈ rest' ∨ d = c := by
  obtain ⟨passed, hp⟩ := h.2
  have hprop (after : List Ref) (rest' : List Ref)
      (hafter : after.head? = if iter.ascending then ys.head? else xs.getLast?)
      (hhead : rest'.head? = if rest.head? = some c then after.head? else rest.head?) :
      (skipped xs ys c iter).prop = rest'.head? := by
    rw [hhead, hafter, ← h.1]
    unfold skipped
    split
    · rfl
    · rfl
  have hasc : (skipped xs ys c iter).ascending = iter.ascending := by
    unfold skipped
    split <;> rfl
  cases hi : iter.ascending with
  | true =>
    rw [hi, direction, if_pos rfl] at hp
    obtain ⟨passed', rest', heq, hsub, hkeep, hhead⟩ := split_remove hnd hp
    refine ⟨rest', ⟨hprop ys rest' (by rw [hi, if_pos rfl]) hhead, passed', ?_⟩, hsub, hkeep⟩
    rw [hasc, hi, direction, if_pos rfl]
    exact heq
  | false =>
    have hrev : (xs ++ c :: ys).reverse = ys.reverse ++ c :: xs.reverse := by
      rw [List.reverse_append, List.reverse_cons, List.append_assoc, List.singleton_append]
    rw [hi, direction, if_neg (by simp), hrev] at hp
    obtain ⟨passed', rest', heq, hsub, hkeep, hhead⟩ := split_remove (hrev ▸ List.nodup_reverse.2 hnd) hp
    refine ⟨rest', ⟨hprop xs.reverse rest' (by rw [hi, if_neg (by simp), List.head?_reverse]) hhead, passed', ?_⟩, hsub, hkeep⟩
    rw [hasc, hi, direction, if_neg (by simp), List.reverse_append]
    exact heq

/-- The next property of the list, in the order of the iterator. -/
theorem Stands.advance [ValueHash N] {m : Memory N} {table : Table} {c : Ref} (h : Stands cs iter (c :: rest))
    (hlinked : table.Linked m cs) : Stands cs (Iteration.advance m c iter) rest := by
  obtain ⟨passed, hp⟩ := h.2
  refine ⟨?_, passed ++ [c], by rw [List.append_assoc]; exact hp⟩
  unfold Iteration.advance
  cases hi : iter.ascending with
  | true =>
    rw [hi, direction, if_pos rfl] at hp
    have hlist := hlinked.list
    rw [hp] at hlist
    exact hlist.next_eq
  | false =>
    rw [hi, direction, if_neg (by simp)] at hp
    have hlist := hlinked.list
    rw [← List.reverse_reverse cs, hp, List.reverse_append, List.reverse_cons, List.append_assoc, List.singleton_append] at hlist
    have hprev := hlist.prev_eq
    rwa [List.getLast?_reverse] at hprev

end

/-! ## What an operation does -/

section

variable [Number N] [ValueHash N]

open Iteration

/-- **What an operation does** to the list `cs` of a table and to its iterators. -/
inductive Effect (s : Iteration N) (cs : List Ref) : IterOp N → Iteration N → List Ref → Option (Yield N) → Prop
  | kept (op : IterOp N) (m : Memory N) (table : Table) : Effect s cs op { s with mem := m, table := table } cs none
  | appended (op : IterOp N) (m : Memory N) (table : Table) :
    Effect s cs op { s with mem := m, table := table } (cs ++ [s.mem.fresh]) none
  | deleted (op : IterOp N) (m : Memory N) (table : Table) (xs : List Ref) (c : Ref) (ys : List Ref) (h : cs = xs ++ c :: ys) :
    Effect s cs op
      { s with mem := m, table := table, iterators := s.iterators.map fun p => (p.1, skipped xs ys c p.2) } (xs ++ ys) none
  | cleared (op : IterOp N) (m : Memory N) (table : Table) :
    Effect s cs op { s with mem := m, table := table, iterators := [] } [] none
  | started (ascending : Bool) :
    Effect s cs (.iterator ascending)
      { s with iterators := (s.fresh, ⟨(direction ascending cs).head?, ascending⟩) :: s.iterators, fresh := s.fresh + 1 } cs none
  | unstarted (ascending : Bool) (h : cs = []) : Effect s cs (.iterator ascending) { s with fresh := s.fresh + 1 } cs none
  | yielded (k : Nat) (iter : IteratorState) (c : Ref) (h : (k, iter) ∈ s.iterators) (hprop : iter.prop = some c) :
    Effect s cs (.iteratorStep k)
      { s with iterators := s.iterators.map fun q => (q.1, if q.1 = k then advance s.mem c q.2 else q.2) } cs
      (some (k, c, content s.mem c))
  | ended (k : Nat) (iter : IteratorState) (h : (k, iter) ∈ s.iterators) (hprop : iter.prop = none) :
    Effect s cs (.iteratorStep k) (s.removeIterator k) cs none
  | detached (k : Nat) (h : ∀ iter, (k, iter) ∉ s.iterators) : Effect s cs (.iteratorStep k) s cs none
  | destroyed (k : Nat) : Effect s cs (.iteratorStateDestructor k) (s.removeIterator k) cs none

/-- **The table links `cs`** and each of its iterators stands in this list. -/
structure Iterating (s : Iteration N) (cs : List Ref) : Prop where
  linked : s.table.Linked s.mem cs
  bounded : Bounded s.mem
  numbers : (s.iterators.map Prod.fst).Nodup
  fresh : ∀ p ∈ s.iterators, p.1 < s.fresh
  stands : ∀ p ∈ s.iterators, ∃ rest, Stands cs p.2 rest

omit [Number N] in
theorem start_iterating : Iterating (start : Iteration N) [] where
  linked := Table.new_linked _
  bounded := fun c hc => by cases hc
  numbers := List.nodup_nil
  fresh := by simp [start]
  stands := by simp [start]

omit [Number N] in
theorem Iterating.state_unique {s : Iteration N} {cs : List Ref} (h : Iterating s cs) {k : Nat} {iter iter' : IteratorState}
    (hi : (k, iter) ∈ s.iterators) (hi' : (k, iter') ∈ s.iterators) : iter = iter' :=
  congrArg Prod.snd (List.inj_on_of_nodup_map h.numbers hi hi' rfl)

omit [Number N] in
theorem tableOf_linked {s : Iteration N} {cs : List Ref} (h : s.table.Linked s.mem cs) : s.tableOf.Linked s.mem cs :=
  ⟨h.list, h.live, h.count, h.missing, h.mask, h.chains⟩

theorem zip_map (l : List (Nat × IteratorState)) (f : IteratorState → IteratorState) :
    (l.map Prod.fst).zip ((l.map Prod.snd).map f) = l.map fun p => (p.1, f p.2) := by
  rw [List.map_map, List.zip_map']
  rfl

omit [Number N] [ValueHash N] in
theorem put_kept (s : Iteration N) (m : Memory N) {table : Table} (h : table.iterators = s.tableOf.iterators) :
    s.put m table = { s with mem := m, table := table } := by
  have hzip := zip_map s.iterators id
  rw [List.map_id] at hzip
  rw [put, h, tableOf, hzip]
  exact congrArg (fun l => { s with mem := m, table := table, iterators := l }) (List.map_id _)

omit [Number N] in
theorem head_direction {s : Iteration N} {cs : List Ref} (h : Iterating s cs) (ascending : Bool) :
    (direction ascending cs).head? = if ascending then s.table.first else s.table.last := by
  rw [h.linked.list.first_eq, h.linked.list.last_eq]
  cases ascending with
  | true => rfl
  | false => exact List.head?_reverse

/-- **Each operation has one of these effects.** -/
theorem step_effect {s s' : Iteration N} {cs : List Ref} {op : IterOp N} {y : Option (Yield N)} (h : Iterating s cs)
    (hs : stepIter s op = some (s', y)) :
    ∃ cs', Effect s cs op s' cs' y ∧ s'.table.Linked s'.mem cs' ∧ Bounded s'.mem ∧ s.mem.fresh ≤ s'.mem.fresh := by
  have htable := tableOf_linked h.linked
  cases op with
  | setTableValue index value =>
    obtain ⟨m, table, prop, cs', he, hlinked, ht, ⟨-, -, rfl, rfl, -⟩ | ⟨-, rfl, -, -, -, hiter⟩⟩ :=
      setTableValue_linked htable h.bounded index value
    · rw [stepIter, he] at hs
      cases hs
      rw [put_kept s m rfl]
      exact ⟨cs', .kept _ _ _, hlinked, ht.bounded, ht.fresh⟩
    · rw [stepIter, he] at hs
      cases hs
      rw [put_kept s m hiter]
      exact ⟨_, .appended _ _ _, hlinked, ht.bounded, ht.fresh⟩
  | deleteTableProperty index =>
    have hheads : s.tableOf.heads ≠ none := fun hh => by
      rw [stepIter, deleteTableProperty_missing _ hh] at hs
      cases hs
    rcases deleteTableProperty_linked htable h.bounded hheads index with
      ⟨m, table, xs, c, ys, hcs, -, he, hlinked, ht, -, -, -, hiter⟩ | ⟨he, -⟩
    · rw [stepIter, he] at hs
      cases hs
      have hput : s.put m table =
          { s with mem := m, table := table, iterators := s.iterators.map fun p => (p.1, skipped xs ys c p.2) } := by
        rw [put, hiter, tableOf, zip_map]
      rw [hput]
      exact ⟨_, .deleted _ _ _ xs c ys hcs, hlinked, ht.bounded, ht.fresh⟩
    · rw [stepIter, he] at hs
      cases hs
      rw [put_kept s s.mem rfl]
      exact ⟨cs, .kept _ _ _, htable, h.bounded, Nat.le_refl _⟩
  | clearTable =>
    obtain ⟨m, he, ht⟩ := clearTable_linked htable h.bounded
    rw [stepIter, he] at hs
    cases hs
    have hput : s.put m Table.new = { s with mem := m, table := Table.new, iterators := [] } := by
      rw [put, Table.new, List.zip_nil_right]
    rw [hput]
    exact ⟨[], .cleared _ _ _, Table.new_linked m, ht.bounded, ht.fresh⟩
  | iterator ascending =>
    rw [stepIter] at hs
    split at hs
    · cases hs
      rw [← head_direction h ascending]
      exact ⟨cs, .started ascending, h.linked, h.bounded, Nat.le_refl _⟩
    · rename_i hcount
      cases hs
      have hcs : cs = [] := List.length_eq_zero_iff.1 (by rw [← h.linked.count]; omega)
      exact ⟨cs, .unstarted ascending hcs, h.linked, h.bounded, Nat.le_refl _⟩
  | iteratorStep k =>
    rw [stepIter] at hs
    split at hs
    · rename_i hfind
      cases hs
      refine ⟨cs, .detached k fun iter hmem => ?_, h.linked, h.bounded, Nat.le_refl _⟩
      simpa using List.find?_eq_none.1 hfind _ hmem
    · rename_i j iter hfind
      obtain rfl : j = k := by simpa using List.find?_some hfind
      have hmem := List.mem_of_find?_eq_some hfind
      split at hs
      · rename_i c hprop
        simp only [Option.bind_eq_bind, Option.bind_eq_some_iff, Option.pure_def, Option.some.injEq, Prod.mk.injEq] at hs
        obtain ⟨p, hp, rfl, rfl⟩ := hs
        rw [← content_of_prop hp]
        exact ⟨cs, .yielded j iter c hmem hprop, h.linked, h.bounded, Nat.le_refl _⟩
      · rename_i hprop
        cases hs
        exact ⟨cs, .ended j iter hmem hprop, h.linked, h.bounded, Nat.le_refl _⟩
  | iteratorStateDestructor k =>
    cases hs
    exact ⟨cs, .destroyed k, h.linked, h.bounded, Nat.le_refl _⟩

omit [Number N] in
theorem removeIterator_iterating {s : Iteration N} {cs : List Ref} (h : Iterating s cs) (k : Nat) :
    Iterating (s.removeIterator k) cs :=
  { linked := h.linked
    bounded := h.bounded
    numbers := h.numbers.sublist (List.filter_sublist.map _)
    fresh := fun p hp => h.fresh p (List.mem_of_mem_filter hp)
    stands := fun p hp => h.stands p (List.mem_of_mem_filter hp) }

omit [Number N] in
/-- **An operation keeps every iterator in the list.** -/
theorem effect_iterating {s s' : Iteration N} {cs cs' : List Ref} {op : IterOp N} {y : Option (Yield N)} (h : Iterating s cs)
    (he : Effect s cs op s' cs' y) (hlinked : s'.table.Linked s'.mem cs') (hbounded : Bounded s'.mem) : Iterating s' cs' := by
  have hnumbers (f : Nat → IteratorState → IteratorState) :
      ((s.iterators.map fun p => (p.1, f p.1 p.2)).map Prod.fst).Nodup := by
    rw [List.map_map]
    exact h.numbers
  have hfresh (f : Nat → IteratorState → IteratorState) : ∀ p ∈ s.iterators.map (fun p => (p.1, f p.1 p.2)), p.1 < s.fresh := by
    intro p hp
    obtain ⟨q, hq, rfl⟩ := List.mem_map.1 hp
    exact h.fresh q hq
  cases he with
  | kept => exact ⟨hlinked, hbounded, h.numbers, h.fresh, h.stands⟩
  | appended =>
    refine ⟨hlinked, hbounded, h.numbers, h.fresh, fun p hp => ?_⟩
    obtain ⟨rest, hrest⟩ := h.stands p hp
    obtain ⟨more, hmore, -⟩ := hrest.append s.mem.fresh
    exact ⟨_, hmore⟩
  | deleted _ _ _ xs c ys hcs =>
    refine ⟨hlinked, hbounded, hnumbers fun _ => skipped xs ys c, hfresh fun _ => skipped xs ys c, fun p hp => ?_⟩
    obtain ⟨q, hq, rfl⟩ := List.mem_map.1 hp
    obtain ⟨rest, hrest⟩ := h.stands q hq
    subst hcs
    obtain ⟨rest', hrest', -⟩ := hrest.remove h.linked.list.nodup
    exact ⟨rest', hrest'⟩
  | cleared => exact ⟨hlinked, hbounded, List.nodup_nil, by simp, by simp⟩
  | started ascending =>
    refine ⟨hlinked, hbounded, ?_, fun p hp => ?_, fun p hp => ?_⟩
    · refine List.nodup_cons.2 ⟨fun hmem => ?_, h.numbers⟩
      obtain ⟨p, hp, heq⟩ := List.mem_map.1 hmem
      exact absurd (h.fresh p hp) (heq ▸ Nat.lt_irrefl _)
    · rcases List.mem_cons.1 hp with rfl | hp
      · exact Nat.lt_succ_self _
      · exact Nat.lt_succ_of_lt (h.fresh p hp)
    · rcases List.mem_cons.1 hp with rfl | hp
      · exact ⟨direction ascending cs, rfl, [], rfl⟩
      · exact h.stands p hp
  | unstarted ascending hcs =>
    exact ⟨hlinked, hbounded, h.numbers, fun p hp => Nat.lt_succ_of_lt (h.fresh p hp), h.stands⟩
  | yielded k iter c hk hprop =>
    refine ⟨hlinked, hbounded, hnumbers fun j i => if j = k then advance s.mem c i else i,
      hfresh fun j i => if j = k then advance s.mem c i else i, fun p hp => ?_⟩
    obtain ⟨q, hq, rfl⟩ := List.mem_map.1 hp
    obtain ⟨rest, hrest⟩ := h.stands q hq
    dsimp only
    split
    · rename_i hqk
      obtain rfl : q.2 = iter := h.state_unique (k := k) (by rw [← hqk]; exact hq) hk
      have hhead := hrest.1
      rw [hprop] at hhead
      obtain ⟨rest, rfl⟩ : ∃ t, rest = c :: t := List.head?_eq_some_iff.1 hhead.symm
      exact ⟨rest, hrest.advance h.linked⟩
    · exact ⟨rest, hrest⟩
  | ended k iter hk hprop => exact removeIterator_iterating h k
  | detached k hk => exact h
  | destroyed k => exact removeIterator_iterating h k

/-! ## One iterator -/

/-- What the iterator `k` yields, in order. -/
def yieldsOf (k : Nat) (tr : List (Yield N)) : List Ref := (tr.filter fun y => y.1 == k).map fun y => y.2.1

/-- The properties of `order` among others. -/
def among (order cs : List Ref) : List Ref := cs.filter fun c => decide (c ∈ order)

theorem among_append (order cs ds : List Ref) : among order (cs ++ ds) = among order cs ++ among order ds :=
  List.filter_append _ _

/-- **The iterator `k`, which started with the list `order`, has yielded `ys`**: of `order` no more than what is still in the
table, and what it will yield follows in order. -/
structure Tracks (s : Iteration N) (cs : List Ref) (k : Nat) (order ys : List Ref) : Prop where
  number : k < s.fresh
  known : ∀ c, c ∈ order ∨ c ∈ ys → c < s.mem.fresh
  nodup : ys.Nodup
  sublist : (among order ys).Sublist order
  attached : ∀ iter, (k, iter) ∈ s.iterators → ∃ rest, Stands cs iter rest ∧ (∀ c ∈ ys, c ∉ rest) ∧
    (∀ c ∈ order, c ∈ cs → c ∈ ys ∨ c ∈ rest) ∧ (among order ys ++ among order rest).Sublist order
  detached : (∀ iter, (k, iter) ∉ s.iterators) → ∀ c ∈ order, c ∈ cs → c ∈ ys

omit [Number N] [ValueHash N] in
theorem Tracks.same {s s' : Iteration N} {cs order ys : List Ref} {k : Nat} (h : Tracks s cs k order ys)
    (hmem : s.mem.fresh ≤ s'.mem.fresh) (hfresh : s.fresh ≤ s'.fresh)
    (hiter : ∀ iter, (k, iter) ∈ s'.iterators ↔ (k, iter) ∈ s.iterators) : Tracks s' cs k order ys where
  number := Nat.lt_of_lt_of_le h.number hfresh
  known := fun c hc => Nat.lt_of_lt_of_le (h.known c hc) hmem
  nodup := h.nodup
  sublist := h.sublist
  attached := fun iter hi => h.attached iter ((hiter iter).1 hi)
  detached := fun hd => h.detached fun iter hi => hd iter ((hiter iter).2 hi)

omit [Number N] [ValueHash N] in
theorem mem_removeIterator {s : Iteration N} {j k : Nat} {iter : IteratorState} :
    (k, iter) ∈ (s.removeIterator j).iterators ↔ (k, iter) ∈ s.iterators ∧ k ≠ j := by
  rw [removeIterator, List.mem_filter]
  simp

omit [Number N] in
/-- **An operation keeps track of the iterator**, unless it destroys it. -/
theorem effect_tracks {s s' : Iteration N} {cs cs' order ys : List Ref} {k : Nat} {op : IterOp N} {y : Option (Yield N)}
    (h : Iterating s cs) (ht : Tracks s cs k order ys) (he : Effect s cs op s' cs' y) (hfresh : s.mem.fresh ≤ s'.mem.fresh)
    (hop : op ≠ .iteratorStateDestructor k) : Tracks s' cs' k order (ys ++ yieldsOf k y.toList) := by
  have hnone : ys ++ yieldsOf k (none : Option (Yield N)).toList = ys := List.append_nil ys
  cases he with
  | kept =>
    rw [hnone]
    exact ht.same hfresh (Nat.le_refl _) fun _ => Iff.rfl
  | appended =>
    rw [hnone]
    -- the new property is neither one of the start nor one yielded
    have hold (c : Ref) (hc : c ∈ order ∨ c ∈ ys) : c ≠ s.mem.fresh := Nat.ne_of_lt (ht.known c hc)
    have hin (c : Ref) (hc : c ∈ order) (hmem : c ∈ cs ++ [s.mem.fresh]) : c ∈ cs := by
      rcases List.mem_append.1 hmem with hmem | hmem
      · exact hmem
      · exact absurd (List.mem_singleton.1 hmem) (hold c (.inl hc))
    refine ⟨ht.number, fun c hc => Nat.lt_of_lt_of_le (ht.known c hc) hfresh, ht.nodup, ht.sublist, fun iter hi => ?_,
      fun hd c hc hmem => ht.detached hd c hc (hin c hc hmem)⟩
    obtain ⟨rest, hrest, hys, hall, hsub⟩ := ht.attached iter hi
    obtain ⟨more, hmore, hnew⟩ := hrest.append s.mem.fresh
    refine ⟨rest ++ more, hmore, fun c hc hmem => ?_, fun c hc hmem => ?_, ?_⟩
    · rcases List.mem_append.1 hmem with hmem | hmem
      · exact hys c hc hmem
      · exact hold c (.inr hc) (hnew c hmem)
    · exact (hall c hc (hin c hc hmem)).imp_right (List.mem_append_left _)
    · have hfilter : among order more = [] := List.filter_eq_nil_iff.2 fun c hc hmem => by
        rw [decide_eq_true_eq] at hmem
        exact hold c (.inl hmem) (hnew c hc)
      rw [among_append, hfilter, List.append_nil]
      exact hsub
  | deleted _ _ _ xs c ys' hcs =>
    rw [hnone]
    subst hcs
    have hin (d : Ref) (hd : d ∈ xs ++ ys') : d ∈ xs ++ c :: ys' ∧ d ≠ c := by
      have hnd := h.linked.list.nodup
      rw [List.nodup_middle, List.nodup_cons] at hnd
      refine ⟨?_, fun hdc => hnd.1 (hdc ▸ hd)⟩
      simp only [List.mem_append, List.mem_cons] at hd ⊢
      grind
    refine ⟨ht.number, fun d hd => Nat.lt_of_lt_of_le (ht.known d hd) hfresh, ht.nodup, ht.sublist, fun iter hi => ?_,
      fun hd d hdo hmem => ?_⟩
    · obtain ⟨q, hq, heq⟩ := List.mem_map.1 hi
      obtain ⟨rfl, rfl⟩ := Prod.mk.inj heq
      obtain ⟨rest, hrest, hys, hall, hsub⟩ := ht.attached q.2 hq
      obtain ⟨rest', hrest', hsub', hkeep⟩ := hrest.remove h.linked.list.nodup
      refine ⟨rest', hrest', fun d hd hmem => hys d hd (hsub'.subset hmem), fun d hd hmem => ?_, ?_⟩
      · obtain ⟨hmem, hne⟩ := hin d hmem
        exact (hall d hd hmem).imp_right fun hdr => (hkeep d hdr).resolve_right hne
      · exact (List.Sublist.append_left (hsub'.filter _) _).trans hsub
    · refine ht.detached (fun iter hi => hd (skipped xs ys' c iter) ?_) d hdo (hin d hmem).1
      exact List.mem_map_of_mem (f := fun p => (p.1, skipped xs ys' c p.2)) hi
  | cleared =>
    rw [hnone]
    exact ⟨ht.number, fun c hc => Nat.lt_of_lt_of_le (ht.known c hc) hfresh, ht.nodup, ht.sublist, by simp, by simp⟩
  | started ascending =>
    rw [hnone]
    refine ht.same hfresh (Nat.le_succ _) fun iter => ?_
    rw [List.mem_cons, or_iff_right]
    intro heq
    exact absurd ht.number ((Prod.mk.inj heq).1 ▸ Nat.lt_irrefl _)
  | unstarted ascending hcs =>
    rw [hnone]
    exact ht.same hfresh (Nat.le_succ _) fun _ => Iff.rfl
  | yielded j iter c hj hprop =>
    by_cases hjk : j = k
    · subst hjk
      have hys : yieldsOf j (some (j, c, content s.mem c)).toList = [c] := by simp [yieldsOf]
      rw [hys]
      obtain ⟨rest, hrest, hout, hall, hsub⟩ := ht.attached iter hj
      have hhead := hrest.1
      rw [hprop] at hhead
      obtain ⟨rest, rfl⟩ : ∃ t, rest = c :: t := List.head?_eq_some_iff.1 hhead.symm
      have hc : c ∈ cs := hrest.mem List.mem_cons_self
      have hnd := List.nodup_cons.1 (hrest.nodup h.linked.list.nodup)
      have hcys : c ∉ ys := fun hmem => hout c hmem List.mem_cons_self
      have hsub' : (among order (ys ++ [c]) ++ among order rest).Sublist order := by
        rw [among_append, List.append_assoc, ← among_append, List.singleton_append]
        exact hsub
      refine ⟨ht.number, fun d hd => ?_, ?_, (List.sublist_append_left _ _).trans hsub', fun iter' hi => ?_, fun hd => ?_⟩
      · rcases hd with hd | hd
        · exact ht.known d (.inl hd)
        · rcases List.mem_append.1 hd with hd | hd
          · exact ht.known d (.inr hd)
          · rw [List.mem_singleton.1 hd]
            exact h.linked.lt_fresh h.bounded c hc
      · exact List.nodup_append.2 ⟨ht.nodup, List.nodup_singleton c, fun d hd e he hde => hcys (by
          rw [← List.mem_singleton.1 he, ← hde]
          exact hd)⟩
      · obtain ⟨q, hq, heq⟩ := List.mem_map.1 hi
        obtain ⟨hq1, rfl⟩ := Prod.mk.inj heq
        obtain rfl : q.2 = iter := h.state_unique (k := j) (by rw [← hq1]; exact hq) hj
        rw [if_pos hq1]
        refine ⟨rest, hrest.advance h.linked, fun d hd hmem => ?_, fun d hd hmem => ?_, hsub'⟩
        · rcases List.mem_append.1 hd with hd | hd
          · exact hout d hd (List.mem_cons_of_mem _ hmem)
          · exact hnd.1 (List.mem_singleton.1 hd ▸ hmem)
        · rcases hall d hd hmem with hdy | hdr
          · exact .inl (List.mem_append_left _ hdy)
          · rcases List.mem_cons.1 hdr with rfl | hdr
            · exact .inl (by simp)
            · exact .inr hdr
      · refine absurd ?_ (hd (advance s.mem c iter))
        refine List.mem_map.2 ⟨(j, iter), hj, ?_⟩
        dsimp only
        rw [if_pos rfl]
    · have hys : yieldsOf k (some (j, c, content s.mem c)).toList = [] := by simp [yieldsOf, hjk]
      rw [hys, List.append_nil]
      refine ht.same hfresh (Nat.le_refl _) fun iter' => ?_
      constructor
      · intro hi
        obtain ⟨q, hq, heq⟩ := List.mem_map.1 hi
        obtain ⟨rfl, rfl⟩ := Prod.mk.inj heq
        rw [if_neg (fun hqj => hjk hqj.symm)]
        exact hq
      · intro hi
        refine List.mem_map.2 ⟨(k, iter'), hi, ?_⟩
        dsimp only
        rw [if_neg (fun hkj => hjk hkj.symm)]
  | ended j iter hj hprop =>
    rw [hnone]
    by_cases hjk : j = k
    · subst hjk
      refine ⟨ht.number, ht.known, ht.nodup, ht.sublist, fun iter' hi => absurd rfl (mem_removeIterator.1 hi).2, fun _ c hc hmem => ?_⟩
      obtain ⟨rest, hrest, -, hall, -⟩ := ht.attached iter hj
      have hhead := hrest.1
      rw [hprop] at hhead
      rw [List.head?_eq_none_iff.1 hhead.symm] at hall
      exact (hall c hc hmem).resolve_right List.not_mem_nil
    · exact ht.same hfresh (Nat.le_refl _) fun iter' => mem_removeIterator.trans (and_iff_left fun hkj => hjk hkj.symm)
  | detached j hj =>
    rw [hnone]
    exact ht
  | destroyed j =>
    rw [hnone]
    have hjk : k ≠ j := fun hkj => hop (by rw [hkj])
    exact ht.same hfresh (Nat.le_refl _) fun iter' => mem_removeIterator.trans (and_iff_left hjk)

/-! ## Runs -/

theorem run_iterating : ∀ (ops : List (IterOp N)) {s s' : Iteration N} {cs : List Ref} {tr : List (Yield N)}, Iterating s cs →
    runIter s ops = some (s', tr) → ∃ cs', Iterating s' cs'
  | [], _, _, cs, _, h, hr => by
    cases hr
    exact ⟨cs, h⟩
  | op :: ops, s, s', cs, tr, h, hr => by
    simp only [runIter, Option.bind_eq_bind, Option.bind_eq_some_iff] at hr
    obtain ⟨⟨s1, y⟩, hs, ⟨s2, ys⟩, hr, heq⟩ := hr
    cases heq
    obtain ⟨cs1, he, hlinked, hbounded, -⟩ := step_effect h hs
    exact run_iterating ops (effect_iterating h he hlinked hbounded) hr

theorem run_tracks : ∀ (ops : List (IterOp N)) {s s' : Iteration N} {cs order ys : List Ref} {k : Nat} {tr : List (Yield N)},
    Iterating s cs → Tracks s cs k order ys → (∀ op ∈ ops, op ≠ .iteratorStateDestructor k) → runIter s ops = some (s', tr) →
    ∃ cs', Iterating s' cs' ∧ Tracks s' cs' k order (ys ++ yieldsOf k tr)
  | [], _, _, cs, order, ys, k, _, h, ht, _, hr => by
    cases hr
    refine ⟨cs, h, ?_⟩
    rw [yieldsOf, List.filter_nil, List.map_nil, List.append_nil]
    exact ht
  | op :: ops, s, s', cs, order, ys, k, tr, h, ht, hop, hr => by
    simp only [runIter, Option.bind_eq_bind, Option.bind_eq_some_iff] at hr
    obtain ⟨⟨s1, y⟩, hs, ⟨s2, tr'⟩, hr, heq⟩ := hr
    cases heq
    obtain ⟨cs1, he, hlinked, hbounded, hfresh⟩ := step_effect h hs
    have ht1 := effect_tracks h ht he hfresh (hop op List.mem_cons_self)
    obtain ⟨cs', h', ht'⟩ := run_tracks ops (effect_iterating h he hlinked hbounded) ht1
      (fun op hmem => hop op (List.mem_cons_of_mem _ hmem)) hr
    refine ⟨cs', h', ?_⟩
    rw [yieldsOf, List.filter_append, List.map_append, ← List.append_assoc]
    exact ht'

theorem started_tracks {s s' : Iteration N} {cs : List Ref} {ascending : Bool} {y : Option (Yield N)} (h : Iterating s cs)
    (hs : stepIter s (.iterator ascending) = some (s', y)) :
    y = none ∧ Iterating s' cs ∧ Tracks s' cs s.fresh (direction ascending cs) [] := by
  have hmissing (iter : IteratorState) : (s.fresh, iter) ∉ s.iterators := fun hi => Nat.lt_irrefl _ (h.fresh _ hi)
  have hknown (c : Ref) (hc : c ∈ direction ascending cs ∨ c ∈ []) : c < s.mem.fresh :=
    h.linked.lt_fresh h.bounded c (mem_direction.1 (hc.resolve_right List.not_mem_nil))
  have hself : among (direction ascending cs) (direction ascending cs) = direction ascending cs :=
    List.filter_eq_self.2 fun c hc => decide_eq_true hc
  rw [stepIter] at hs
  split at hs
  · cases hs
    rw [← head_direction h ascending]
    refine ⟨rfl, effect_iterating h (.started ascending) h.linked h.bounded, Nat.lt_succ_self _, hknown, List.nodup_nil,
      List.nil_sublist _, fun iter hi => ?_, fun hd => absurd List.mem_cons_self (hd _)⟩
    rcases List.mem_cons.1 hi with heq | hi
    · obtain ⟨-, rfl⟩ := Prod.mk.inj heq
      exact ⟨direction ascending cs, ⟨rfl, [], rfl⟩, by simp, fun c hc _ => .inr hc, by rw [hself]; exact List.Sublist.refl _⟩
    · exact absurd hi (hmissing iter)
  · rename_i hcount
    cases hs
    have hcs : cs = [] := List.length_eq_zero_iff.1 (by rw [← h.linked.count]; omega)
    refine ⟨rfl, effect_iterating h (.unstarted ascending hcs) h.linked h.bounded, Nat.lt_succ_self _, hknown, List.nodup_nil,
      List.nil_sublist _, fun iter hi => absurd hi (hmissing iter), fun _ c hc => ?_⟩
    rw [hcs] at hc
    cases ascending <;> exact absurd hc List.not_mem_nil

/-- **A step of an iterator reads no freed property**: it has a result, and what it yields is in the table. -/
theorem iteratorStep_some {s : Iteration N} {cs : List Ref} (h : Iterating s cs) (k : Nat) :
    ∃ s' y, stepIter s (.iteratorStep k) = some (s', y) ∧ ∀ j c p, y = some (j, c, p) → c ∈ cs ∧ p = content s.mem c := by
  rw [stepIter]
  split
  · exact ⟨s, none, rfl, by simp⟩
  · rename_i j iter hfind
    have hmem := List.mem_of_find?_eq_some hfind
    split
    · rename_i c hprop
      obtain ⟨rest, hrest⟩ := h.stands _ hmem
      have hhead := hrest.1
      rw [hprop] at hhead
      have hc : c ∈ cs := hrest.mem (List.mem_of_head? hhead.symm)
      rw [prop_of_live (h.linked.live c hc)]
      refine ⟨_, _, rfl, fun j' c' p hy => ?_⟩
      cases hy
      exact ⟨hc, rfl⟩
    · exact ⟨_, none, rfl, by simp⟩

/-- **What the iterator `k` that started with `order` has yielded** of a table that now links `cs`, is to be: no property twice,
those of `order` in order, and when it yields no more, each of them that still is in the table. -/
structure Iterates (s : Iteration N) (cs : List Ref) (k : Nat) (order ys : List Ref) : Prop where
  nodup : ys.Nodup
  sublist : (among order ys).Sublist order
  ahead : ∀ c ∈ order, c ∈ ys ∨ c ∉ cs ∨ ∃ iter rest, (k, iter) ∈ s.iterators ∧ Stands cs iter rest ∧ c ∈ rest
  ended : ∀ s', stepIter s (.iteratorStep k) = some (s', none) → ∀ c ∈ order, c ∈ ys ∨ c ∉ cs

theorem Tracks.yields_kept {s : Iteration N} {cs order ys : List Ref} {k : Nat} (ht : Tracks s cs k order ys) :
    Iterates s cs k order ys := by
  refine ⟨ht.nodup, ht.sublist, fun c hc => ?_, fun s' hs c hc => ?_⟩
  · by_cases hmem : c ∈ cs
    · by_cases hi : ∃ iter, (k, iter) ∈ s.iterators
      · obtain ⟨iter, hi⟩ := hi
        obtain ⟨rest, hrest, -, hall, -⟩ := ht.attached iter hi
        exact (hall c hc hmem).imp_right fun hr => .inr ⟨iter, rest, hi, hrest, hr⟩
      · exact .inl (ht.detached (fun iter hk => hi ⟨iter, hk⟩) c hc hmem)
    · exact .inr (.inl hmem)
  · by_cases hmem : c ∈ cs
    · rw [stepIter] at hs
      split at hs
      · rename_i hfind
        refine .inl (ht.detached (fun iter hi => ?_) c hc hmem)
        simpa using List.find?_eq_none.1 hfind _ hi
      · rename_i j iter hfind
        obtain rfl : j = k := by simpa using List.find?_some hfind
        split at hs
        · rw [Option.bind_eq_bind, Option.bind_eq_some_iff] at hs
          obtain ⟨p, -, hs⟩ := hs
          cases hs
        · rename_i hprop
          obtain ⟨rest, hrest, -, hall, -⟩ := ht.attached iter (List.mem_of_find?_eq_some hfind)
          have hhead := hrest.1
          rw [hprop] at hhead
          rw [List.head?_eq_none_iff.1 hhead.symm] at hall
          exact .inl ((hall c hc hmem).resolve_right List.not_mem_nil)
    · exact .inr hmem

/-- **Every iterator of every run** yields the properties of its start that are not deleted before, once and in order, and no
step of an iterator reads a freed property. -/
theorem iterates (before after : List (IterOp N)) (ascending : Bool) {s s' : Iteration N} {tr₀ tr : List (Yield N)}
    (h₀ : runIter Iteration.start before = some (s, tr₀)) (h : runIter s (.iterator ascending :: after) = some (s', tr))
    (hk : ∀ op ∈ after, op ≠ .iteratorStateDestructor s.fresh) :
    ∃ cs cs', s.table.Linked s.mem cs ∧ s'.table.Linked s'.mem cs' ∧
      Iterates s' cs' s.fresh (direction ascending cs) (yieldsOf s.fresh tr) ∧
      ∀ j, ∃ s'' y, stepIter s' (.iteratorStep j) = some (s'', y) ∧ ∀ i c p, y = some (i, c, p) → c ∈ cs' ∧ p = content s'.mem c := by
  obtain ⟨cs, hs⟩ := run_iterating before start_iterating h₀
  simp only [runIter, Option.bind_eq_bind, Option.bind_eq_some_iff] at h
  obtain ⟨⟨s1, y⟩, h1, ⟨s2, tr'⟩, hr, heq⟩ := h
  cases heq
  obtain ⟨rfl, hs1, ht1⟩ := started_tracks hs h1
  obtain ⟨cs', hs', ht'⟩ := run_tracks after hs1 ht1 hk hr
  exact ⟨cs, cs', hs.linked, hs'.linked, ht'.yields_kept, iteratorStep_some hs'⟩

end

/-- The second property is deleted after the first one was yielded. -/
theorem iterates_two : ∃ (s s' : Iteration Int) (cs cs' : List Ref) (tr : List (Yield Int)),
    runIter s [.iterator true, .iteratorStep 0, .deleteTableProperty (.bool true), .iteratorStep 0] = some (s', tr) ∧
      Iterates s' cs' s.fresh (direction true cs) (yieldsOf s.fresh tr) := by
  have hsome : ((runIter (Iteration.start : Iteration Int) [.setTableValue .null .null, .setTableValue (.bool true) .null]).bind
      fun r => runIter r.1 [.iterator true, .iteratorStep 0, .deleteTableProperty (.bool true), .iteratorStep 0]).isSome := by
    decide +kernel
  obtain ⟨⟨s', tr⟩, hr⟩ := Option.isSome_iff_exists.1 hsome
  obtain ⟨⟨s, tr₀⟩, h₀, h⟩ := Option.bind_eq_some_iff.1 hr
  obtain ⟨cs, cs', -, -, hiter, -⟩ := iterates [.setTableValue .null .null, .setTableValue (.bool true) .null]
    [.iteratorStep 0, .deleteTableProperty (.bool true), .iteratorStep 0] true h₀ h (by simp)
  exact ⟨s, s', cs, cs', tr, h, hiter⟩

end Core
end ObjectScript
