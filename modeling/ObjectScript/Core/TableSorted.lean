import ObjectScript.Core.QsortPointers
import ObjectScript.Core.TableRuns
/-!
# Sorted tables

With a comparator that answers by a total preorder, `sortTable` leaves the properties in ascending order, each found under
its key, and numbers them when the keys are reordered.  The numbering is inside `if(table->count > 1)`, so that a table of
one property keeps its key, and an empty one its `next_index` (`sortTable_iff`).  The pointers to sort are allocated by a
size that is an `int`, which is less than `qsort` asks for (`Pointers.qsort_eq`).
-/
namespace ObjectScript
namespace Core

open Links Memory

variable {N σ : Type}

theorem reindex_getElem? [Number N] : ∀ (es : List (Value N × Value N)) (i j : Nat),
    (reindex i es)[j]? = es[j]?.map fun e => (.number (Number.ofInt (i + j : Nat)), e.2)
  | [], _, _ => rfl
  | e :: es, i, 0 => rfl
  | e :: es, i, j + 1 => by
    rw [reindex, List.getElem?_cons_succ, List.getElem?_cons_succ, reindex_getElem? es (i + 1) j, Nat.add_right_comm, Nat.add_assoc]

section

variable [Number N] [ValueHash N]

/-- `get` finds every property under its key. -/
def Table.Finds (m : Memory N) (table : Table) (cs : List Ref) : Prop := ∀ c ∈ cs, get m table (content m c).1 = some (some c)

/-- The keys are the indexes from 0 on, and the next one is the count. -/
structure Table.Numbered (m : Memory N) (table : Table) (cs : List Ref) : Prop where
  keys : ∀ (i : Nat) (c : Ref), cs[i]? = some c → (content m c).1 = .number (Number.ofInt i)
  nextIndex : table.nextIndex = table.count

/-- **What sorting by `le` is to leave** of a table that linked `cs`: a rearrangement in ascending order, linked both ways. -/
structure Table.Sorted (le : Value N × Value N → Value N × Value N → Prop) (reorder : Bool) (m m' : Memory N) (table : Table)
    (cs cs' : List Ref) : Prop where
  perm : cs'.Perm cs
  linked : table.Linked m' cs'
  ascending : (entries m cs').Pairwise le
  values : ∀ c ∈ cs', (content m' c).2 = (content m c).2
  finds : table.Finds m' cs'
  keys : reorder = false → ∀ c ∈ cs', (content m' c).1 = (content m c).1
  numbered : reorder = true → table.Numbered m' cs'

/-- `sortTable` has a result, which is as it is to be. -/
def SortsTable (comp : Comparator σ (Value N × Value N)) (le : Value N × Value N → Value N × Value N → Prop) (s : σ)
    (reorder : Bool) (m : Memory N) (table : Table) (cs : List Ref) : Prop :=
  ∃ m' table' s' cs', sortTable m table comp s reorder = some (m', table', s') ∧ table'.Sorted le reorder m m' cs cs'

/-- A key that equals itself and no other one is found. -/
theorem Table.Linked.get_self {m : Memory N} {table : Table} {cs : List Ref} (h : table.Linked m cs) (hm : Bounded m) {c : Ref}
    (hc : c ∈ cs) (hself : (content m c).1.equalExactly (content m c).1 = true)
    (hother : ∀ d ∈ cs, (content m c).1.equalExactly (content m d).1 = true → d = c) :
    get m table (content m c).1 = some (some c) := by
  rcases get_linked h hm (content m c).1 with ⟨d, hd, hget, heq, -⟩ | ⟨-, hno⟩
  · rw [hget, hother d hd heq]
  · have := hno c hc rfl
    rw [hself] at this
    cases this

variable [LawfulNumber N]

/-- **Numbered properties are found**, as long as their numbers are `int`s. -/
theorem Table.Numbered.finds {m : Memory N} {table : Table} {cs : List Ref} (hn : table.Numbered m cs) (h : table.Linked m cs)
    (hm : Bounded m) (hint : cs.length ≤ 2 ^ 31) : table.Finds m cs := by
  intro c hc
  obtain ⟨i, hi, hic⟩ := List.getElem_of_mem hc
  have hci : cs[i]? = some c := by rw [List.getElem?_eq_getElem hi, hic]
  have heq : ∀ d j, cs[j]? = some d → ((content m c).1.equalExactly (content m d).1 = true ↔ i = j) := by
    intro d j hj
    have hjlt := (List.getElem?_eq_some_iff.1 hj).1
    rw [hn.keys i c hci, hn.keys j d hj, Value.equalExactly, LawfulNumber.equal_ofInt (by omega) (by omega) (by omega) (by omega)]
    omega
  refine h.get_self hm hc ((heq c i hci).2 rfl) fun d hd hcd => ?_
  obtain ⟨j, hj, hjd⟩ := List.getElem_of_mem hd
  have hdj : cs[j]? = some d := by rw [List.getElem?_eq_getElem hj, hjd]
  obtain rfl := (heq d j hdj).1 hcd
  exact Option.some.inj (hdj.symm.trans hci)

omit [Number N] [ValueHash N] [LawfulNumber N] in
theorem content_of_entries {m m' : Memory N} {cs : List Ref} (h : entries m' cs = entries m cs) {c : Ref} (hc : c ∈ cs) :
    content m' c = content m c :=
  List.map_inj_left.1 h c hc

omit [ValueHash N] [LawfulNumber N] in
theorem content_of_reindex {m m' : Memory N} {cs : List Ref} (h : entries m' cs = reindex 0 (entries m cs)) {i : Nat} {c : Ref}
    (hi : cs[i]? = some c) : content m' c = (.number (Number.ofInt i), (content m c).2) := by
  have hget := congrArg (fun es => es[i]?) h
  rw [reindex_getElem?, entries, entries, List.getElem?_map, List.getElem?_map, hi, Nat.zero_add] at hget
  exact Option.some.inj hget

/-- Two properties or more are sorted, and found when they were or are numbered. -/
theorem sortsTable_of_many {m : Memory N} {table : Table} {cs : List Ref} (h : table.Linked m cs) (hm : Bounded m)
    (hint : cs.length ≤ 2 ^ 31) {comp : Comparator σ (Value N × Value N)} {le : Value N × Value N → Value N × Value N → Prop}
    (ho : Orders comp le) (s : σ) (reorder : Bool) (hmany : 1 < table.count) (hfinds : reorder = false → table.Finds m cs) :
    SortsTable comp le s reorder m table cs := by
  obtain ⟨m', table', s', cs', he, hlinked, ht, hperm, hsort, hentries, hnext, -, hget⟩ :=
    sortTable_linked h hm comp s reorder hmany
  have hasc : (entries m cs').Pairwise le := qsort_sorted ho hsort
  refine ⟨m', table', s', cs', he, ?_⟩
  cases reorder with
  | false =>
    have hcontent : ∀ c ∈ cs', content m' c = content m c := fun c hc => content_of_entries hentries hc
    refine ⟨hperm, hlinked, hasc, fun c hc => by rw [hcontent c hc], fun c hc => ?_, fun _ c hc => by rw [hcontent c hc], by simp⟩
    rw [hcontent c hc, hget rfl]
    exact hfinds rfl c (hperm.mem_iff.1 hc)
  | true =>
    have hnumbered : table'.Numbered m' cs' := by
      refine ⟨fun i c hi => by rw [content_of_reindex hentries hi], hnext.trans ?_⟩
      rw [if_pos rfl, hlinked.count, hperm.length_eq, h.count]
    refine ⟨hperm, hlinked, hasc, fun c hc => ?_, hnumbered.finds hlinked ht.bounded (by rw [hperm.length_eq]; exact hint),
      by simp, fun _ => hnumbered⟩
    obtain ⟨i, hi, hic⟩ := List.getElem_of_mem hc
    rw [content_of_reindex hentries (i := i) (by rw [List.getElem?_eq_getElem hi, hic])]

omit [LawfulNumber N] in
/-- A table of one property at most is left as it is. -/
theorem sortsTable_of_few {m : Memory N} {table : Table} {cs : List Ref} (h : table.Linked m cs)
    (comp : Comparator σ (Value N × Value N)) (le : Value N × Value N → Value N × Value N → Prop) (s : σ) (reorder : Bool)
    (hfew : ¬ 1 < table.count) :
    SortsTable comp le s reorder m table cs ↔ table.Finds m cs ∧ (reorder = true → table.Numbered m cs) := by
  have hsort : sortTable m table comp s reorder = some (m, table, s) := if_neg hfew
  have hlen : cs.length ≤ 1 := by
    rw [← h.count]
    omega
  constructor
  · rintro ⟨m', table', s', cs', he, hsorted⟩
    obtain ⟨rfl, rfl, rfl⟩ : m = m' ∧ table = table' ∧ s = s' := by
      rw [hsort] at he
      cases he
      exact ⟨rfl, rfl, rfl⟩
    -- one property has one order only
    have hsame : cs' = cs := by
      have hperm := hsorted.perm
      match cs, hlen with
      | [], _ => exact hperm.eq_nil
      | [c], _ => exact List.perm_singleton.1 hperm
    rw [← hsame]
    exact ⟨hsorted.finds, hsorted.numbered⟩
  · rintro ⟨hfinds, hnumbered⟩
    refine ⟨m, table, s, cs, hsort, .refl cs, h, ?_, fun _ _ => rfl, hfinds, fun _ _ _ => rfl, hnumbered⟩
    match cs, hlen with
    | [], _ => exact .nil
    | [c], _ => exact List.pairwise_singleton _ _

/-- **`sortTable` sorts** the properties that `get` finds, and when the keys are reordered exactly the tables of two properties
or more and those whose keys are in order already. -/
theorem sortTable_iff {m : Memory N} {table : Table} {cs : List Ref} (h : table.Linked m cs) (hm : Bounded m)
    (hint : 8 * cs.length < 2 ^ 31) {comp : Comparator σ (Value N × Value N)}
    {le : Value N × Value N → Value N × Value N → Prop} (ho : Orders comp le) (s : σ) (reorder : Bool) :
    SortsTable comp le s reorder m table cs ↔
      (reorder = true → 1 < table.count ∨ table.Numbered m cs) ∧ (reorder = false → table.Finds m cs) := by
  by_cases hmany : 1 < table.count
  · refine ⟨fun hsorts => ⟨fun _ => .inl hmany, fun hr c hc => ?_⟩, fun hcond =>
      sortsTable_of_many h hm (by omega) ho s reorder hmany hcond.2⟩
    obtain ⟨m', table', s', cs', he, hsorted⟩ := hsorts
    obtain ⟨m'', table'', s'', cs'', he', -, -, -, -, -, -, -, hget⟩ := sortTable_linked h hm comp s reorder hmany
    obtain ⟨rfl, rfl, rfl⟩ : m' = m'' ∧ table' = table'' ∧ s' = s'' := by
      rw [he] at he'
      cases he'
      exact ⟨rfl, rfl, rfl⟩
    have hc' := hsorted.perm.mem_iff.2 hc
    have hfound := hsorted.finds c hc'
    rwa [hget hr, hsorted.keys hr c hc'] at hfound
  · rw [sortsTable_of_few h comp le s reorder hmany]
    constructor
    · rintro ⟨hfinds, hnumbered⟩
      exact ⟨fun hr => .inr (hnumbered hr), fun _ => hfinds⟩
    · rintro ⟨hnumbered, hfinds⟩
      cases reorder with
      | false => exact ⟨hfinds rfl, by simp⟩
      | true =>
        have hn := (hnumbered rfl).resolve_left hmany
        exact ⟨hn.finds h hm (by omega), fun _ => hn⟩

end

/-! ## Integers for numbers -/

def sameOrder : Comparator Unit (Value Int × Value Int) := fun s _ _ => (0, s)

theorem sameOrder_orders : Orders sameOrder fun _ _ => True where
  total _ _ := .inl trivial
  trans _ _ := trivial
  nonpos_iff _ _ _ := iff_of_true (Int.le_refl 0) trivial
  nonneg_iff _ _ _ := iff_of_true (Int.le_refl 0) trivial

/-- A table of the properties null and true, whose keys are reordered. -/
theorem sortTable_iff_two : ∃ (m : Memory Int) (table : Table) (cs : List Ref), entries m cs = [(.null, .null), (.bool true, .null)] ∧
    SortsTable sameOrder (fun _ _ => True) () true m table cs := by
  have hempty : Bounded (Memory.empty : Memory Int) := fun c hc => by cases hc
  obtain ⟨m₁, t₁, -, h₁, ht₁, he₁, -⟩ := addTableProperty_linked (Table.new_linked Memory.empty) hempty .null .null
  obtain ⟨m₂, t₂, -, h₂, ht₂, he₂, -⟩ := addTableProperty_linked h₁ ht₁.bounded (.bool true) .null
  refine ⟨m₂, t₂, _, by rw [he₂, he₁]; rfl, (sortTable_iff h₂ ht₂.bounded (by simp) sameOrder_orders () true).2 ⟨fun _ => .inl ?_, by simp⟩⟩
  rw [h₂.count]
  simp

/-- **The only property of a table keeps its key**, here 5, when the keys are reordered. -/
theorem single_not_numbered : ∃ (m : Memory Int) (table : Table) (cs : List Ref), table.Linked m cs ∧ Bounded m ∧
    entries m cs = [(.number 5, .null)] ∧ ¬ SortsTable sameOrder (fun _ _ => True) () true m table cs := by
  have hempty : Bounded (Memory.empty : Memory Int) := fun c hc => by cases hc
  obtain ⟨m, t, -, h, ht, he, -⟩ := addTableProperty_linked (Table.new_linked Memory.empty) hempty (.number 5) .null
  refine ⟨m, t, _, h, ht.bounded, he, fun hsorts => ?_⟩
  have hfew : ¬ 1 < t.count := by
    rw [h.count]
    decide
  have hkey := (((sortsTable_of_few h sameOrder (fun _ _ => True) () true hfew).1 hsorts).2 rfl).keys 0 _ rfl
  have hfive : (content m (Memory.empty : Memory Int).fresh).1 = .number 5 := congrArg Prod.fst (List.head_eq_of_cons_eq he)
  rw [hfive] at hkey
  cases hkey

end Core
end ObjectScript
