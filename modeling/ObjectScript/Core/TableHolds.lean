import Mathlib.Data.List.Pairwise
import ObjectScript.Core.Table
/-!
# What a table holds

`Table.Holds m table cs` says that the list of `table` links the cells `cs` in this order, both ways, that its chains
sort the same cells by the slot of their index, that `count` counts them and that no two of them have equal indexes.
Each operation is one lemma: from a table that holds `cs` it has a result, which holds the cells the operation says,
with the entries it says, and it touches no cell of another table (`Touches`).
-/
namespace ObjectScript
namespace Core

open Links Memory

variable {N : Type}

/-! ## Cells -/

def entries (m : Memory N) (cs : List Ref) : List (Value N × Value N) := cs.map (content m)

/-- The two memories have the same property at `c`. -/
structure Same (m m' : Memory N) (c : Ref) : Prop where
  prop : m'.prop c = m.prop c
  hashNext : m'.hashNext c = m.hashNext c
  prev : m'.prev c = m.prev c
  next : m'.next c = m.next c

def Bounded (m : Memory N) : Prop := ∀ c, (m.prop c).isSome → c < m.fresh

/-- **From `m` to `m'` only the cells `cs` and new ones were touched**, and the cells `cs'` are among these. -/
structure Touches (m m' : Memory N) (cs cs' : List Ref) : Prop where
  same : ∀ c, c ∉ cs → c < m.fresh → Same m m' c
  fresh : m.fresh ≤ m'.fresh
  bounded : Bounded m'
  cells : ∀ c ∈ cs', c ∈ cs ∨ m.fresh ≤ c

theorem content_congr {m m' : Memory N} {c : Ref} (h : m'.prop c = m.prop c) : content m' c = content m c := by
  rw [content, content, h]

theorem entries_congr {m m' : Memory N} {cs : List Ref} (h : ∀ c ∈ cs, m'.prop c = m.prop c) :
    entries m' cs = entries m cs :=
  List.map_congr_left fun c hc => content_congr (h c hc)

theorem content_of_prop {m : Memory N} {c : Ref} {p : Value N × Value N} (h : m.prop c = some p) :
    content m c = p := by
  rw [content, h, Option.getD_some]

theorem prop_of_live {m : Memory N} {c : Ref} (h : (m.prop c).isSome) : m.prop c = some (content m c) := by
  obtain ⟨p, hp⟩ := Option.isSome_iff_exists.1 h
  rw [content_of_prop hp, hp]

section

variable [Number N] [ValueHash N]

def slotOf (m : Memory N) (headMask : Nat) (c : Ref) : Nat := slot headMask (content m c).1

def DistinctKeys (es : List (Value N × Value N)) : Prop := es.Pairwise fun p q => p.1.equalExactly q.1 = false

/-- **The table links the properties `cs`**, in the order of its list; their indexes may be anything. -/
structure Table.Linked (m : Memory N) (table : Table) (cs : List Ref) : Prop where
  list : Doubly m.next m.prev table.first table.last cs
  live : ∀ c ∈ cs, (m.prop c).isSome
  count : table.count = cs.length
  missing : table.heads = none → cs = [] ∧ table.headMask = 0
  mask : ∀ heads, table.heads = some heads → heads.length = table.headMask + 1
  chains : ∀ heads, table.heads = some heads → Buckets m.hashNext (slotOf m table.headMask) heads cs

/-- **The table holds the properties `cs`**, in the order of its list. -/
structure Table.Holds (m : Memory N) (table : Table) (cs : List Ref) : Prop where
  list : Doubly m.next m.prev table.first table.last cs
  live : ∀ c ∈ cs, (m.prop c).isSome
  count : table.count = cs.length
  keys : DistinctKeys (entries m cs)
  missing : table.heads = none → cs = [] ∧ table.headMask = 0
  mask : ∀ heads, table.heads = some heads → heads.length = table.headMask + 1
  chains : ∀ heads, table.heads = some heads → Buckets m.hashNext (slotOf m table.headMask) heads cs

theorem Table.Holds.linked {m : Memory N} {table : Table} {cs : List Ref} (h : table.Holds m cs) : table.Linked m cs :=
  ⟨h.list, h.live, h.count, h.missing, h.mask, h.chains⟩

theorem Table.Linked.holds {m : Memory N} {table : Table} {cs : List Ref} (h : table.Linked m cs)
    (hkeys : DistinctKeys (entries m cs)) : table.Holds m cs :=
  ⟨h.list, h.live, h.count, hkeys, h.missing, h.mask, h.chains⟩

omit [Number N] in
theorem Table.new_linked (m : Memory N) : Table.new.Linked m [] where
  list := ⟨rfl, rfl⟩
  live := by simp
  count := rfl
  missing := fun _ => ⟨rfl, rfl⟩
  mask := by intro heads h; cases h
  chains := by intro heads h; cases h

theorem Table.new_holds (m : Memory N) : Table.new.Holds m [] := (Table.new_linked m).holds List.Pairwise.nil

omit [Number N] in
/-- **A table does not see what happens to other cells.** -/
theorem Table.Linked.frame {m m' : Memory N} {table : Table} {cs : List Ref} (h : table.Linked m cs)
    (hs : ∀ c ∈ cs, Same m m' c) : table.Linked m' cs where
  list := h.list.congr (fun c hc => (hs c hc).next.symm) (fun c hc => (hs c hc).prev.symm)
  live := fun c hc => by rw [(hs c hc).prop]; exact h.live c hc
  count := h.count
  missing := h.missing
  mask := h.mask
  chains := fun heads hh => (h.chains heads hh).congr (fun _ => Iff.rfl) (fun c hc => (hs c hc).hashNext.symm)
    fun c hc => by rw [slotOf, slotOf, content_congr (hs c hc).prop]

theorem Table.Holds.frame {m m' : Memory N} {table : Table} {cs : List Ref} (h : table.Holds m cs)
    (hs : ∀ c ∈ cs, Same m m' c) : table.Holds m' cs :=
  (h.linked.frame hs).holds (by rw [entries_congr fun c hc => (hs c hc).prop]; exact h.keys)

omit [Number N] in
theorem slot_lt {headMask n : Nat} (h : n = headMask + 1) (index : Value N) : slot headMask index < n := by
  have : slot headMask index ≤ headMask := Nat.and_le_right
  omega

omit [Number N] in
theorem Table.Linked.lt_fresh {m : Memory N} {table : Table} {cs : List Ref} (h : table.Linked m cs) (hm : Bounded m) :
    ∀ c ∈ cs, c < m.fresh := fun c hc => hm c (h.live c hc)

theorem Table.Holds.lt_fresh {m : Memory N} {table : Table} {cs : List Ref} (h : table.Holds m cs) (hm : Bounded m) :
    ∀ c ∈ cs, c < m.fresh := h.linked.lt_fresh hm

/-- Cells that were all handed out are no more than the addresses handed out: every walk has steps enough. -/
theorem length_le_fresh {cs : List Ref} {n : Nat} (hnd : cs.Nodup) (h : ∀ c ∈ cs, c < n) : cs.length ≤ n := by
  have : cs.Subperm (List.range n) := List.subperm_of_subset hnd fun c hc => List.mem_range.2 (h c hc)
  simpa using this.length_le

/-! ## get -/

omit [ValueHash N] in
theorem sameIndex_live {m : Memory N} {c : Ref} (h : (m.prop c).isSome) (index : Value N) :
    sameIndex m index c = some (index.equalExactly (content m c).1) := by
  rw [sameIndex, prop_of_live h, Option.map_some]

variable [LawfulNumber N]

omit [ValueHash N] in
/-- Among entries with distinct keys an index equals one at most. -/
theorem eq_of_equalExactly {m : Memory N} {cs : List Ref} (h : DistinctKeys (entries m cs)) {index : Value N}
    {c d : Ref} (hc : c ∈ cs) (hd : d ∈ cs) (hic : index.equalExactly (content m c).1 = true)
    (hid : index.equalExactly (content m d).1 = true) : c = d := by
  have hcd := equalExactly_trans (equalExactly_symm hic) hid
  have : Std.Symm fun a b : Ref => (content m a).1.equalExactly (content m b).1 = false :=
    ⟨fun a b hab => by rw [equalExactly_comm]; exact hab⟩
  by_contra hne
  have hfalse := (List.pairwise_map.1 h).forall hc hd hne
  rw [hfalse] at hcd
  cases hcd

variable [LawfulHash N]

/-- The property of an index is found on the chain of its slot, together with the cell before it. -/
theorem walk_of_find {m : Memory N} {table : Table} {cs : List Ref} (h : table.Holds m cs) (hm : Bounded m)
    {heads : List (Option Ref)} (hh : table.heads = some heads) {index : Value N} {c : Ref} (hc : c ∈ cs)
    (hic : index.equalExactly (content m c).1 = true) :
    ∃ p xs ys, heads[slot table.headMask index]? = some p ∧ Chain m.hashNext p (xs ++ c :: ys) ∧
      walk m.hashNext (sameIndex m index) (m.fresh + 1) none p = some (xs.getLast?, some c) ∧
      slotOf m table.headMask c = slot table.headMask index := by
  have hslot : slotOf m table.headMask c = slot table.headMask index := by
    rw [slotOf, slot, slot, LawfulHash.hash_eq hic]
  have hlt := slot_lt (h.mask heads hh) index
  obtain ⟨ds, hd, hds⟩ := (h.chains heads hh).chains _ _ (List.getElem?_eq_getElem hlt)
  obtain ⟨xs, ys, rfl⟩ := List.append_of_mem ((hds c).2 ⟨hc, hslot⟩)
  refine ⟨_, xs, ys, List.getElem?_eq_getElem hlt, hd, ?_, hslot⟩
  have hnd := chain_nodup hd
  have hcells : ∀ d ∈ xs ++ c :: ys, d ∈ cs := fun d hd => ((hds d).1 hd).1
  have hlen := length_le_fresh hnd fun d hd => h.lt_fresh hm d (hcells d hd)
  have hcstop : sameIndex m index c = some true := by rw [sameIndex_live (h.live c hc), hic]
  have hxs : ∀ d ∈ xs, sameIndex m index d = some false := by
    intro d hdx
    have hdc := hcells d (List.mem_append_left _ hdx)
    rw [sameIndex_live (h.live d hdc)]
    refine congrArg some (Bool.eq_false_iff.2 fun hid => ?_)
    obtain rfl := eq_of_equalExactly h.keys hc hdc hic hid
    exact (List.disjoint_of_nodup_append hnd) hdx List.mem_cons_self
  rw [walk_found hcstop xs _ none _ hd (by simp only [List.length_append] at hlen; omega) hxs, Option.or_none]

omit [LawfulNumber N] [LawfulHash N] in
theorem walk_of_absent {m : Memory N} {table : Table} {cs : List Ref} (h : table.Holds m cs) (hm : Bounded m)
    {heads : List (Option Ref)} (hh : table.heads = some heads) {index : Value N}
    (hno : ∀ c ∈ cs, index.equalExactly (content m c).1 = false) :
    ∃ p b, heads[slot table.headMask index]? = some p ∧
      walk m.hashNext (sameIndex m index) (m.fresh + 1) none p = some (b, none) := by
  have hlt := slot_lt (h.mask heads hh) index
  obtain ⟨ds, hd, hds⟩ := (h.chains heads hh).chains _ _ (List.getElem?_eq_getElem hlt)
  have hcells : ∀ d ∈ ds, d ∈ cs := fun d hd => ((hds d).1 hd).1
  have hlen := length_le_fresh (chain_nodup hd) fun d hd => h.lt_fresh hm d (hcells d hd)
  refine ⟨_, _, List.getElem?_eq_getElem hlt, walk_missed ds _ none _ hd (by omega) fun d hdd => ?_⟩
  rw [sameIndex_live (h.live d (hcells d hdd)), hno d (hcells d hdd)]

omit [LawfulNumber N] [LawfulHash N] in
/-- The walk along the chain of an index, without asking anything of the indexes: it meets the first property of the chain
whose index is equal, with the cell before it, or there is none on it. -/
theorem walk_linked {m : Memory N} {table : Table} {cs : List Ref} (h : table.Linked m cs) (hm : Bounded m)
    {heads : List (Option Ref)} (hh : table.heads = some heads) (index : Value N) :
    ∃ p, heads[slot table.headMask index]? = some p ∧
      ((∃ c xs ys, c ∈ cs ∧ index.equalExactly (content m c).1 = true ∧ Chain m.hashNext p (xs ++ c :: ys) ∧
          walk m.hashNext (sameIndex m index) (m.fresh + 1) none p = some (xs.getLast?, some c) ∧
          slotOf m table.headMask c = slot table.headMask index) ∨
        ∃ b, walk m.hashNext (sameIndex m index) (m.fresh + 1) none p = some (b, none) ∧
          ∀ c ∈ cs, slotOf m table.headMask c = slot table.headMask index → index.equalExactly (content m c).1 = false) := by
  have hlt := slot_lt (h.mask heads hh) index
  obtain ⟨ds, hd, hds⟩ := (h.chains heads hh).chains _ _ (List.getElem?_eq_getElem hlt)
  have hcells : ∀ d ∈ ds, d ∈ cs := fun d hd => ((hds d).1 hd).1
  have hlen := length_le_fresh (chain_nodup hd) fun d hd => h.lt_fresh hm d (hcells d hd)
  refine ⟨_, List.getElem?_eq_getElem hlt, ?_⟩
  cases hf : ds.find? fun c => index.equalExactly (content m c).1 with
  | none =>
    have hno : ∀ c ∈ ds, index.equalExactly (content m c).1 = false := by simpa using hf
    refine .inr ⟨_, walk_missed ds _ none _ hd (by omega) fun d hdd => ?_, fun c hc hslot => hno c ((hds c).2 ⟨hc, hslot⟩)⟩
    rw [sameIndex_live (h.live d (hcells d hdd)), hno d hdd]
  | some c =>
    obtain ⟨hic, xs, ys, rfl, hxs⟩ := List.find?_eq_some_iff_append.1 hf
    have hc := (hds c).1 (by simp)
    have hstop : sameIndex m index c = some true := by rw [sameIndex_live (h.live c hc.1), hic]
    refine .inl ⟨c, xs, ys, hc.1, hic, hd, ?_, hc.2⟩
    rw [walk_found hstop xs _ none _ hd (by simp only [List.length_append] at hlen; omega) fun d hdx => ?_, Option.or_none]
    have hid : index.equalExactly (content m d).1 = false := by simpa using hxs d hdx
    rw [sameIndex_live (h.live d (hcells d (List.mem_append_left _ hdx))), hid]

omit [LawfulNumber N] [LawfulHash N] in
/-- `get` meets a property with an equal index, or there is none on the chain of the index. -/
theorem get_linked {m : Memory N} {table : Table} {cs : List Ref} (h : table.Linked m cs) (hm : Bounded m) (index : Value N) :
    (∃ c ∈ cs, get m table index = some (some c) ∧ index.equalExactly (content m c).1 = true ∧
        slotOf m table.headMask c = slot table.headMask index) ∨
      get m table index = some none ∧
        ∀ c ∈ cs, slotOf m table.headMask c = slot table.headMask index → index.equalExactly (content m c).1 = false := by
  unfold get
  cases hh : table.heads with
  | none =>
    refine .inr ⟨rfl, fun c hc => ?_⟩
    rw [(h.missing hh).1] at hc
    cases hc
  | some heads =>
    obtain ⟨p, hp, ⟨c, xs, ys, hc, hic, -, hw, hslot⟩ | ⟨b, hw, hno⟩⟩ := walk_linked h hm hh index
    · refine .inl ⟨c, hc, ?_, hic, hslot⟩
      simp only [hp, hw, Option.bind_eq_bind, Option.bind_some, Option.pure_def]
    · refine .inr ⟨?_, hno⟩
      simp only [hp, hw, Option.bind_eq_bind, Option.bind_some, Option.pure_def]

/-- **`get` finds the property whose index is equal**, and needs no bucket array for it. -/
theorem get_eq {m : Memory N} {table : Table} {cs : List Ref} (h : table.Holds m cs) (hm : Bounded m)
    (index : Value N) : get m table index = some (cs.find? fun c => index.equalExactly (content m c).1) := by
  unfold get
  cases hh : table.heads with
  | none => rw [(h.missing hh).1, List.find?_nil]
  | some heads =>
    cases hf : cs.find? fun c => index.equalExactly (content m c).1 with
    | none =>
      have hno : ∀ c ∈ cs, index.equalExactly (content m c).1 = false := by simpa using hf
      obtain ⟨p, b, hp, hw⟩ := walk_of_absent h hm hh hno
      simp only [hp, hw, Option.bind_eq_bind, Option.bind_some, Option.pure_def]
    | some c =>
      have hic : index.equalExactly (content m c).1 = true := by simpa using List.find?_some hf
      obtain ⟨p, xs, ys, hp, -, hw, -⟩ := walk_of_find h hm hh (List.mem_of_find?_eq_some hf) hic
      simp only [hp, hw, Option.bind_eq_bind, Option.bind_some, Option.pure_def]

/-! ## Writing fields of allocated properties -/

omit [Number N] [ValueHash N] [LawfulNumber N] [LawfulHash N] in
theorem setNext_live {m : Memory N} {c : Ref} (h : (m.prop c).isSome) (v : Option Ref) :
    m.setNext c v = some { m with next := Function.update m.next c v } := by rw [setNext, if_pos h]

omit [Number N] [ValueHash N] [LawfulNumber N] [LawfulHash N] in
theorem setPrev_live {m : Memory N} {c : Ref} (h : (m.prop c).isSome) (v : Option Ref) :
    m.setPrev c v = some { m with prev := Function.update m.prev c v } := by rw [setPrev, if_pos h]

omit [Number N] [ValueHash N] [LawfulNumber N] [LawfulHash N] in
theorem setHashNext_live {m : Memory N} {c : Ref} (h : (m.prop c).isSome) (v : Option Ref) :
    m.setHashNext c v = some { m with hashNext := Function.update m.hashNext c v } := by rw [setHashNext, if_pos h]

/-! ## addTableProperty -/

omit [Number N] [LawfulNumber N] [LawfulHash N] in
/-- The properties from `cur` on are put into the buckets, after those of `done`. -/
theorem rehash_some (headMask : Nat) : ∀ (cs : List Ref) (n : Nat) (m : Memory N) (heads : List (Option Ref))
    (cur : Option Ref) (done : List Ref), Chain m.next cur cs → (∀ c ∈ cs, (m.prop c).isSome) →
    (∀ c ∈ cs, c ∉ done) → cs.length < n → heads.length = headMask + 1 →
    Buckets m.hashNext (slotOf m headMask) heads done →
    ∃ f heads', rehash headMask n m heads cur = some ({ m with hashNext := f }, heads') ∧
      heads'.length = headMask + 1 ∧ (∀ c, c ∉ cs → f c = m.hashNext c) ∧
      Buckets f (slotOf m headMask) heads' (cs.reverse ++ done)
  | [], n + 1, m, heads, _, done, rfl, _, _, _, hlen, hb => ⟨m.hashNext, heads, rfl, hlen, fun _ _ => rfl, hb⟩
  | c :: cs, n + 1, m, heads, _, done, ⟨rfl, hnext⟩, hlive, hdone, hn, hlen, hb => by
    have hc := hlive c List.mem_cons_self
    have hnd : (c :: cs).Nodup := chain_nodup (f := m.next) (p := some c) ⟨rfl, hnext⟩
    have hlt := slot_lt hlen (content m c).1
    have hp := List.getElem?_eq_getElem hlt
    have hpush := hb.push (c := c) (hdone c List.mem_cons_self) hp
    obtain ⟨f, heads', he, hlen', hf, hb'⟩ := rehash_some headMask cs n
      { m with hashNext := Function.update m.hashNext c heads[slot headMask (content m c).1] }
      (heads.set (slot headMask (content m c).1) (some c)) (m.next c) (c :: done) hnext
      (fun d hd => hlive d (List.mem_cons_of_mem _ hd))
      (fun d hd hmem => by
        rcases List.mem_cons.1 hmem with rfl | hmem
        · exact (List.nodup_cons.1 hnd).1 hd
        · exact hdone d (List.mem_cons_of_mem _ hd) hmem)
      (by simpa using hn) (by rw [List.length_set]; exact hlen) hpush
    refine ⟨f, heads', ?_, hlen', fun d hd => ?_, ?_⟩
    · simp only [rehash, prop_of_live hc, hp, setHashNext_live hc, Option.bind_eq_bind, Option.bind_some]
      exact he
    · obtain ⟨hdc, hd⟩ := not_or.1 (mt List.mem_cons.2 hd)
      exact (hf d hd).trans (Function.update_of_ne hdc _ _)
    · rw [List.reverse_cons, List.append_assoc]
      exact hb'

omit [Number N] [LawfulNumber N] [LawfulHash N] in
/-- **Growing keeps what a table links** and leaves it with buckets. -/
theorem growHeads_some {m : Memory N} {table : Table} {cs : List Ref} (h : table.Linked m cs) (hm : Bounded m) :
    ∃ f heads headMask, growHeads m table =
        some ({ m with hashNext := f }, { table with heads := some heads, headMask := headMask }) ∧
      (∀ c, c ∉ cs → f c = m.hashNext c) ∧
      Table.Linked { m with hashNext := f } { table with heads := some heads, headMask := headMask } cs := by
  unfold growHeads
  split
  · have hlen := length_le_fresh h.list.nodup (h.lt_fresh hm)
    have hsize : newSize table = newSize table - 1 + 1 := by unfold newSize; split <;> omega
    obtain ⟨f, heads', he, hlen, hf, hb⟩ := rehash_some (newSize table - 1) cs (m.fresh + 1) m
      (List.replicate (newSize table) none) table.first [] h.list.forward h.live (by simp) (by omega)
      (by rw [List.length_replicate]; exact hsize) (Buckets.empty _ _ _)
    refine ⟨f, heads', newSize table - 1, ?_, hf, ?_⟩
    · simp only [he, Option.bind_eq_bind, Option.bind_some, Option.pure_def]
    · refine ⟨h.list, h.live, h.count, by simp, ?_, ?_⟩
      · rintro _ ⟨⟩
        exact hlen
      · rintro _ ⟨⟩
        exact hb.congr (by simp) (fun _ _ => rfl) (fun _ _ => rfl)
  · rename_i hge
    cases hh : table.heads with
    | none =>
      -- the first property always comes with buckets
      rw [(h.missing hh).2] at hge
      exact absurd (Nat.zero_le _) hge
    | some heads =>
      refine ⟨m.hashNext, heads, table.headMask, ?_, fun _ _ => rfl, ?_⟩
      · rw [← hh]
      · rw [← hh]
        exact h

omit [Number N] [ValueHash N] [LawfulNumber N] [LawfulHash N] in
theorem newProperty_same (m : Memory N) (index value : Value N) {c : Ref} (hc : c < m.fresh) :
    Same m (m.newProperty index value).1 c := by
  have hne : c ≠ m.fresh := Nat.ne_of_lt hc
  exact ⟨Function.update_of_ne hne _ _, Function.update_of_ne hne _ _, Function.update_of_ne hne _ _,
    Function.update_of_ne hne _ _⟩

omit [Number N] [ValueHash N] [LawfulNumber N] [LawfulHash N] in
theorem newProperty_bounded {m : Memory N} (hm : Bounded m) (index value : Value N) :
    Bounded (m.newProperty index value).1 := by
  intro c hc
  change c < m.fresh + 1
  by_cases h : c = m.fresh
  · exact Nat.lt_succ_of_le (Nat.le_of_eq h)
  · have hsame : (m.newProperty index value).1.prop c = m.prop c := Function.update_of_ne h _ _
    rw [hsame] at hc
    exact Nat.lt_succ_of_lt (hm c hc)

omit [Number N] [ValueHash N] [LawfulNumber N] [LawfulHash N] in
theorem linkLast_some (m : Memory N) (table : Table) {cs : List Ref} {prop : Ref}
    (h : Doubly m.next m.prev table.first table.last cs) (hlive : ∀ c ∈ cs, (m.prop c).isSome)
    (hprop : (m.prop prop).isSome) (hnew : prop ∉ cs) (hn : m.next prop = none) (hp : m.prev prop = none) :
    ∃ f g first, linkLast m table prop = some ({ m with next := f, prev := g }, { table with first := first }) ∧
      Doubly f g first (some prop) (cs ++ [prop]) ∧
      (∀ c, c ∉ prop :: cs → f c = m.next c ∧ g c = m.prev c) := by
  have hsnoc := h.snoc hnew hn
  have hfirst := h.first_eq
  have hlast := h.last_eq
  rcases List.eq_nil_or_concat cs with rfl | ⟨zs, b, rfl⟩
  · refine ⟨m.next, m.prev, some prop, ?_, ?_, fun _ _ => ⟨rfl, rfl⟩⟩
    · simp only [linkLast, hfirst, List.head?_nil]
    · rw [hlast, List.getLast?_nil] at hsnoc
      have hself : Function.update m.prev prop none = m.prev := Function.update_eq_self_iff.2 hp.symm
      rwa [hself] at hsnoc
  · rw [List.concat_eq_append] at *
    rw [List.getLast?_concat] at hlast
    obtain ⟨a, ha⟩ : ∃ a, (zs ++ [b]).head? = some a := by
      rw [List.head?_eq_some_head (by simp)]
      exact ⟨_, rfl⟩
    have hb := hlive b (by simp)
    rw [ha] at hfirst
    rw [hlast] at hsnoc
    refine ⟨_, _, table.first, ?_, hsnoc, fun c hc => ?_⟩
    · obtain ⟨heads, headMask, count, nextIndex, first, last, iterators⟩ := table
      subst hfirst hlast
      simp only [linkLast, setNext_live hb, Option.bind_eq_bind, Option.bind_some, Option.pure_def, attach]
      rw [setPrev_live (by exact hprop), Option.bind_some]
    · simp only [List.mem_cons, List.mem_append, not_or] at hc
      exact ⟨Function.update_of_ne hc.2.2.1 _ _, Function.update_of_ne hc.1 _ _⟩

omit [LawfulNumber N] [LawfulHash N] in
/-- **Adding a property** appends it, whatever its index. -/
theorem addTableProperty_linked {m : Memory N} {table : Table} {cs : List Ref} (h : table.Linked m cs) (hm : Bounded m)
    (index value : Value N) :
    ∃ m' table', addTableProperty m table index value = some (m', table', m.fresh) ∧
      table'.Linked m' (cs ++ [m.fresh]) ∧ Touches m m' cs (cs ++ [m.fresh]) ∧
      entries m' (cs ++ [m.fresh]) = entries m cs ++ [(index, value)] ∧ table'.heads ≠ none ∧
      (∀ c ∈ cs, m'.prop c = m.prop c) ∧ table'.nextIndex = bumpNextIndex table.nextIndex index ∧
      table'.iterators = table.iterators := by
  have hlt := h.lt_fresh hm
  have hnew : m.fresh ∉ cs := fun hmem => Nat.lt_irrefl _ (hlt _ hmem)
  have hsame : ∀ c ∈ cs, Same m (m.newProperty index value).1 c := fun c hc => newProperty_same m index value (hlt c hc)
  have hm0 := newProperty_bounded hm index value
  obtain ⟨f, heads, headMask, hgrow, hf, h1⟩ := growHeads_some (h.frame hsame) hm0
  -- the memory once the buckets are there
  generalize hM : (m.newProperty index value).1 = M at *
  have hprop : M.prop m.fresh = some (index, value) := by rw [← hM]; exact Function.update_self _ _ _
  have hnext : M.next m.fresh = none := by rw [← hM]; exact Function.update_self _ _ _
  have hprev : M.prev m.fresh = none := by rw [← hM]; exact Function.update_self _ _ _
  have hlive : (M.prop m.fresh).isSome := by rw [hprop]; rfl
  have hslot : slotOf M headMask m.fresh = slot headMask index := by rw [slotOf, content_of_prop hprop]
  have hlen := h1.mask heads rfl
  obtain ⟨p, hp⟩ : ∃ p, heads[slot headMask index]? = some p := ⟨_, List.getElem?_eq_getElem (slot_lt hlen index)⟩
  have hpush := (h1.chains heads rfl).push hnew (p := p) (by exact hslot ▸ hp)
  have hlink := linkLast_some { M with hashNext := Function.update f m.fresh p }
    { table with heads := some (heads.set (slot headMask index) (some m.fresh)), headMask := headMask }
    h1.list h1.live hlive hnew hnext hprev
  obtain ⟨g, g', first, hlink, hdoubly, hg⟩ := hlink
  have hout : ∀ c, c ∉ m.fresh :: cs → Function.update f m.fresh p c = M.hashNext c := fun c hc => by
    obtain ⟨hne, hc⟩ := not_or.1 (mt List.mem_cons.2 hc)
    rw [Function.update_of_ne hne, hf c hc]
  have hentries : entries M (cs ++ [m.fresh]) = entries m cs ++ [(index, value)] := by
    rw [entries, List.map_append, List.map_singleton, content_of_prop hprop]
    exact congrArg (· ++ [(index, value)]) (entries_congr fun c hc => (hsame c hc).prop)
  refine ⟨{ M with hashNext := Function.update f m.fresh p, next := g, prev := g' },
    { heads := some (heads.set (slot headMask index) (some m.fresh)), headMask := headMask, count := table.count + 1,
      nextIndex := bumpNextIndex table.nextIndex index, first := first, last := some m.fresh,
      iterators := table.iterators }, ?_, ⟨hdoubly, ?_, ?_, by simp, ?_, ?_⟩, ⟨?_, ?_, hm0, ?_⟩, hentries, by simp,
    fun c hc => (hsame c hc).prop, rfl, rfl⟩
  · have hset : setHashNext { M with hashNext := f } m.fresh p = some { M with hashNext := Function.update f m.fresh p } :=
      setHashNext_live (by exact hlive) p
    have hnewp : m.newProperty index value = (M, m.fresh) := by rw [← hM]; rfl
    simp only [addTableProperty, hnewp, hgrow, hp, hset, hlink, Option.bind_eq_bind, Option.bind_some, Option.pure_def]
  · intro c hc
    rcases List.mem_append.1 hc with hc | hc
    · exact h1.live c hc
    · rw [List.mem_singleton.1 hc]
      exact hlive
  · rw [List.length_append, h.count]
    rfl
  · rintro _ ⟨⟩
    rw [List.length_set]
    exact hlen
  · rintro _ ⟨⟩
    rw [← hslot]
    exact hpush.congr (by simp [or_comm]) (fun _ _ => rfl) (fun _ _ => rfl)
  · intro c hc hcm
    have hcM := newProperty_same m index value hcm
    rw [hM] at hcM
    have hnc : c ∉ m.fresh :: cs := by
      rw [List.mem_cons, not_or]
      exact ⟨Nat.ne_of_lt hcm, hc⟩
    exact ⟨hcM.prop, (hout c hnc).trans hcM.hashNext, (hg c hnc).2.trans hcM.prev, (hg c hnc).1.trans hcM.next⟩
  · change m.fresh ≤ M.fresh
    rw [← hM]
    exact Nat.le_succ _
  · intro c hc
    rcases List.mem_append.1 hc with hc | hc
    · exact Or.inl hc
    · exact Or.inr (Nat.le_of_eq (List.mem_singleton.1 hc).symm)

omit [LawfulHash N] in
/-- **Adding a property of an absent index** appends it. -/
theorem addTableProperty_some {m : Memory N} {table : Table} {cs : List Ref} (h : table.Holds m cs) (hm : Bounded m)
    {index : Value N} (value : Value N) (habsent : ∀ c ∈ cs, index.equalExactly (content m c).1 = false) :
    ∃ m' table', addTableProperty m table index value = some (m', table', m.fresh) ∧
      table'.Holds m' (cs ++ [m.fresh]) ∧ Touches m m' cs (cs ++ [m.fresh]) ∧
      entries m' (cs ++ [m.fresh]) = entries m cs ++ [(index, value)] ∧ table'.heads ≠ none := by
  obtain ⟨m', table', he, hlinked, ht, hentries, hheads, -⟩ := addTableProperty_linked h.linked hm index value
  refine ⟨m', table', he, hlinked.holds ?_, ht, hentries, hheads⟩
  rw [hentries]
  refine List.pairwise_append.2 ⟨h.keys, List.pairwise_singleton _ _, fun q hq r hr => ?_⟩
  obtain ⟨c, hc, rfl⟩ := List.mem_map.1 hq
  rw [List.mem_singleton.1 hr, equalExactly_comm]
  exact habsent c hc

/-! ## setTableValue -/

/-- The value of an index is set: in place when an entry has it, at the end otherwise. -/
def setEntry (es : List (Value N × Value N)) (index value : Value N) : List (Value N × Value N) :=
  if es.any fun e => index.equalExactly e.1 then
    es.map fun e => if index.equalExactly e.1 then (e.1, value) else e
  else es ++ [(index, value)]

omit [ValueHash N] [LawfulNumber N] [LawfulHash N] in
theorem distinctKeys_of_keys {es es' : List (Value N × Value N)} (h : es.map Prod.fst = es'.map Prod.fst)
    (hd : DistinctKeys es) : DistinctKeys es' := by
  have hmap (es : List (Value N × Value N)) :
      DistinctKeys es ↔ (es.map Prod.fst).Pairwise fun a b => a.equalExactly b = false := by
    rw [DistinctKeys, List.pairwise_map]
  rw [hmap, ← h, ← hmap]
  exact hd

omit [ValueHash N] [LawfulNumber N] [LawfulHash N] in
theorem any_entries (m : Memory N) (cs : List Ref) (index : Value N) :
    (entries m cs).any (fun e => index.equalExactly e.1) = cs.any fun c => index.equalExactly (content m c).1 := by
  rw [entries, List.any_map]
  rfl

omit [Number N] [LawfulNumber N] [LawfulHash N] in
/-- A value is written into the property `c`. -/
theorem setValue_linked {m : Memory N} {table : Table} {cs : List Ref} (h : table.Linked m cs) (hm : Bounded m)
    {c : Ref} (hc : c ∈ cs) (value : Value N) :
    ∃ m', m.setProp c (fun p => (p.1, value)) = some m' ∧ table.Linked m' cs ∧ Touches m m' cs cs ∧
      ∀ d, content m' d = if d = c then ((content m c).1, value) else content m d := by
  have hprop := prop_of_live (h.live c hc)
  have hcontent : ∀ d, content { m with prop := Function.update m.prop c (some ((content m c).1, value)) } d =
      if d = c then ((content m c).1, value) else content m d := by
    intro d
    by_cases hd : d = c
    · subst hd
      rw [if_pos rfl]
      exact content_of_prop (Function.update_self _ _ _)
    · rw [if_neg hd]
      exact content_congr (Function.update_of_ne hd _ _)
  have hkey : ∀ d, (content { m with prop := Function.update m.prop c (some ((content m c).1, value)) } d).1 =
      (content m d).1 := by
    intro d
    rw [hcontent]
    split
    · rename_i hd
      rw [hd]
    · rfl
  refine ⟨{ m with prop := Function.update m.prop c (some ((content m c).1, value)) }, by rw [setProp, hprop]; rfl,
    ⟨h.list, ?_, h.count, h.missing, h.mask, ?_⟩, ⟨?_, Nat.le_refl _, ?_, ?_⟩, hcontent⟩
  · intro d hd
    by_cases hdc : d = c
    · rw [hdc]
      exact Option.isSome_of_eq_some (Function.update_self _ _ _)
    · exact (congrArg Option.isSome (Function.update_of_ne hdc _ _)).trans (h.live d hd)
  · intro heads hh
    exact (h.chains heads hh).congr (fun _ => Iff.rfl) (fun _ _ => rfl) fun d _ => by rw [slotOf, slotOf, hkey]
  · intro d hd _
    have hdc : d ≠ c := by rintro rfl; exact hd hc
    exact ⟨Function.update_of_ne hdc _ _, rfl, rfl, rfl⟩
  · intro d hd
    by_cases hdc : d = c
    · rw [hdc]
      exact hm c (h.live c hc)
    · exact hm d ((congrArg Option.isSome (Function.update_of_ne hdc _ _)).symm.trans hd)
  · exact fun d hd => Or.inl hd

omit [LawfulNumber N] [LawfulHash N] in
theorem setValue_some {m : Memory N} {table : Table} {cs : List Ref} (h : table.Holds m cs) (hm : Bounded m)
    {c : Ref} (hc : c ∈ cs) (value : Value N) :
    ∃ m', m.setProp c (fun p => (p.1, value)) = some m' ∧ table.Holds m' cs ∧ Touches m m' cs cs ∧
      ∀ d, content m' d = if d = c then ((content m c).1, value) else content m d := by
  obtain ⟨m', he, hlinked, ht, hcontent⟩ := setValue_linked h.linked hm hc value
  refine ⟨m', he, hlinked.holds (distinctKeys_of_keys ?_ h.keys), ht, hcontent⟩
  simp only [entries, List.map_map]
  refine List.map_congr_left fun d _ => ?_
  rw [Function.comp, Function.comp, hcontent]
  split
  · rename_i hd
    rw [hd]
  · rfl

omit [LawfulNumber N] [LawfulHash N] in
/-- Setting a value writes it into the property that `get` finds, or appends one. -/
theorem setTableValue_linked {m : Memory N} {table : Table} {cs : List Ref} (h : table.Linked m cs) (hm : Bounded m)
    (index value : Value N) :
    ∃ m' table' prop cs', setTableValue m table index value = some (m', table', prop) ∧ table'.Linked m' cs' ∧
      Touches m m' cs cs' ∧
      (prop ∈ cs ∧ index.equalExactly (content m prop).1 = true ∧ cs' = cs ∧ table' = table ∧
          (∀ d, content m' d = if d = prop then ((content m prop).1, value) else content m d) ∨
        prop = m.fresh ∧ cs' = cs ++ [m.fresh] ∧ entries m' cs' = entries m cs ++ [(index, value)] ∧
          (∀ c ∈ cs, m'.prop c = m.prop c) ∧ table'.nextIndex = bumpNextIndex table.nextIndex index ∧
          table'.iterators = table.iterators) := by
  rcases get_linked h hm index with ⟨c, hc, hget, hic, -⟩ | ⟨hget, -⟩
  · obtain ⟨m', he, hlinked, ht, hcontent⟩ := setValue_linked h hm hc value
    refine ⟨m', table, c, cs, ?_, hlinked, ht, .inl ⟨hc, hic, rfl, rfl, hcontent⟩⟩
    simp only [setTableValue, hget, Option.bind_eq_bind, Option.bind_some, he, Option.pure_def]
  · obtain ⟨m', table', he, hlinked, ht, hentries, -, hprop, hnext, hiter⟩ := addTableProperty_linked h hm index value
    refine ⟨m', table', m.fresh, _, ?_, hlinked, ht, .inr ⟨rfl, rfl, hentries, hprop, hnext, hiter⟩⟩
    simp only [setTableValue, hget, Option.bind_eq_bind, Option.bind_some, he]

/-- **Setting a value** changes one entry or appends one. -/
theorem setTableValue_some {m : Memory N} {table : Table} {cs : List Ref} (h : table.Holds m cs) (hm : Bounded m)
    (index value : Value N) :
    ∃ m' table' prop cs', setTableValue m table index value = some (m', table', prop) ∧ table'.Holds m' cs' ∧
      Touches m m' cs cs' ∧ entries m' cs' = setEntry (entries m cs) index value := by
  have hget := get_eq h hm index
  cases hf : cs.find? fun c => index.equalExactly (content m c).1 with
  | none =>
    have hno : ∀ c ∈ cs, index.equalExactly (content m c).1 = false := by simpa using hf
    obtain ⟨m', table', he, hholds, ht, hentries, -⟩ := addTableProperty_some h hm value hno
    refine ⟨m', table', m.fresh, _, ?_, hholds, ht, ?_⟩
    · simp only [setTableValue, hget, hf, Option.bind_eq_bind, Option.bind_some, he]
    · have hany : cs.any (fun c => index.equalExactly (content m c).1) = false := by simpa using hno
      rw [hentries, setEntry, any_entries, hany]
      rfl
  | some c =>
    have hc := List.mem_of_find?_eq_some hf
    have hic : index.equalExactly (content m c).1 = true := by simpa using List.find?_some hf
    obtain ⟨m', he, hholds, ht, hcontent⟩ := setValue_some h hm hc value
    refine ⟨m', table, c, cs, ?_, hholds, ht, ?_⟩
    · simp only [setTableValue, hget, hf, Option.bind_eq_bind, Option.bind_some, he, Option.pure_def]
    · have hany : cs.any (fun c => index.equalExactly (content m c).1) = true := List.any_eq_true.2 ⟨c, hc, hic⟩
      rw [setEntry, any_entries, hany, if_pos rfl, entries, entries, List.map_map]
      refine List.map_congr_left fun d hd => ?_
      rw [hcontent, Function.comp]
      by_cases hdc : d = c
      · rw [if_pos hdc, hdc, if_pos hic]
      · rw [if_neg hdc, if_neg]
        exact fun hid => hdc (eq_of_equalExactly h.keys hd hc hid hic)

end

end Core
end ObjectScript
