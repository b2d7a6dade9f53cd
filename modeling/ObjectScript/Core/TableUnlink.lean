import ObjectScript.Core.TableHolds
/-!
# Taking properties out

`deleteTableProperty` and `clearTable`.  A deletion needs the bucket array: on a table that has none it reads a null
pointer, which `Table::get` asks for first (`deleteTableProperty_missing`).

The property is taken out of two lists, the order of the table and the chain of its bucket, before it is freed.
What is left is `Linked` again, and its entries are those that were there
without the one that was taken out.
-/
namespace ObjectScript
namespace Core

open Links Memory

variable {N : Type}

/-! ## The list -/

section

variable {m : Memory N} {table : Table} {xs ys : List Ref} {c : Ref}

/-- What was before `c` skips it; the property after it may have been told that it is the first now. -/
theorem unlinkBefore_some (h : Doubly m.next m.prev table.first table.last (xs ++ c :: ys))
    (hlive : ∀ d ∈ xs ++ c :: ys, (m.prop d).isSome) :
    ∃ g, unlinkBefore m table c = some ({ m with next := bypass m.next xs.getLast? c, prev := g },
        { table with first := bypassHead m.next table.first xs.getLast? c }) ∧
      ∀ d, ys.head? ≠ some d → g d = m.prev d := by
  have hfirst := h.first_eq
  have hnext := h.next_eq
  have hnd := h.nodup
  rcases List.eq_nil_or_concat xs with rfl | ⟨zs, b, rfl⟩
  · rw [List.nil_append, List.head?_cons] at hfirst
    cases ys with
    | nil =>
      refine ⟨m.prev, ?_, fun _ _ => rfl⟩
      simp only [unlinkBefore, hfirst, if_true, hnext, List.head?_nil, List.getLast?_nil, bypass, bypassHead]
    | cons d ys =>
      have hd := hlive d (by simp)
      refine ⟨Function.update m.prev d none, ?_, fun e he => Function.update_of_ne ?_ _ _⟩
      · simp only [unlinkBefore, hfirst, if_true, hnext, List.head?_cons, setPrev_live hd, List.getLast?_nil, bypass,
          bypassHead, Option.bind_eq_bind, Option.bind_some, Option.pure_def]
      · rintro rfl
        exact he rfl
  · rw [List.concat_eq_append] at *
    have hb := hlive b (by simp)
    have hc : table.first ≠ some c := by
      rw [hfirst, List.head?_append_of_ne_nil _ (by simp)]
      intro hh
      exact (List.disjoint_of_nodup_append hnd) (List.mem_of_head? hh) List.mem_cons_self
    have hprev := h.prev_eq
    rw [List.getLast?_concat] at hprev ⊢
    refine ⟨m.prev, ?_, fun _ _ => rfl⟩
    simp only [unlinkBefore, if_neg hc, hprev, setNext_live hb, bypass, bypassHead, Option.bind_eq_bind, Option.bind_some,
      Option.pure_def]

/-- Then what was after `c` skips it as well. -/
theorem unlinkAfter_some {f g : LinkField Ref} (first : Option Ref)
    (h : Doubly m.next m.prev table.first table.last (xs ++ c :: ys))
    (hlive : ∀ d ∈ xs ++ c :: ys, (m.prop d).isSome) (hf : f = bypass m.next xs.getLast? c)
    (hg : ∀ d, ys.head? ≠ some d → g d = m.prev d) :
    unlinkAfter { m with next := f, prev := g } { table with first := first } c =
      some ({ m with next := bypass m.next xs.getLast? c, prev := bypass m.prev ys.head? c },
        { table with first := first, last := bypassHead m.prev table.last ys.head? c }) := by
  have hlast := h.last_eq
  have hnext := h.next_eq
  have hprev := h.prev_eq
  have hnd := h.nodup
  cases ys with
  | nil =>
    rw [List.getLast?_concat] at hlast
    have hgc : g c = xs.getLast? := by rw [hg c (by simp), hprev]
    have hgm : g = m.prev := funext fun d => hg d (by simp)
    cases hx : xs.getLast? with
    | none => simp [unlinkAfter, hlast, hx, hf, hgm, bypass, bypassHead, hprev]
    | some b =>
      have hb := hlive b (List.mem_append_left _ (List.mem_of_getLast? hx))
      rw [hx] at hgc hf
      have hset : setNext { m with next := f, prev := g } b none = some { m with next := f, prev := g } := by
        rw [setNext_live (by exact hb), hf]
        simp [bypass, hnext]
      simp only [unlinkAfter, hlast, if_true, hgc, hset, Option.bind_eq_bind, Option.bind_some, Option.pure_def,
        List.head?_nil, bypassHead, hprev, hx]
      rw [hf, hgm]
      rfl
  | cons d ys =>
    have hd := hlive d (by simp)
    rw [List.nodup_append, List.nodup_cons, List.mem_cons] at hnd
    have hcd : c ≠ d := fun hcd => hnd.2.1.1 (Or.inl hcd)
    have hc : table.last ≠ some c := by
      rw [hlast, List.getLast?_append_of_ne_nil _ (by simp), List.getLast?_cons_cons]
      intro hl
      exact hnd.2.1.1 (by simpa using List.mem_of_getLast? hl)
    have hfc : f c = some d := by
      rw [hf, bypass_of_not_mem, hnext]
      · rfl
      · rintro e he rfl
        exact hnd.2.2 c (List.mem_of_getLast? he) c List.mem_cons_self rfl
    have hgc : g c = m.prev c := hg c (by simpa using hcd.symm)
    have hgd : Function.update g d (m.prev c) = Function.update m.prev d (m.prev c) := by
      funext e
      by_cases he : e = d
      · rw [he, Function.update_self, Function.update_self]
      · rw [Function.update_of_ne he, Function.update_of_ne he, hg e (by simpa using Ne.symm he)]
    have hset : setPrev { m with next := f, prev := g } d (g c) =
        some { m with next := f, prev := Function.update m.prev d (m.prev c) } := by
      rw [setPrev_live (by exact hd), hgc, hgd]
    simp only [unlinkAfter, if_neg hc, hfc, hset, Option.bind_eq_bind, Option.bind_some, Option.pure_def,
      List.head?_cons, bypassHead]
    rw [hf]
    rfl

/-- The cell before `c` on its chain skips it, or the bucket does. -/
theorem unlinkChain_some (m : Memory N) (table : Table) {heads : List (Option Ref)} {i : Nat} {p chainPrev : Option Ref}
    (hh : table.heads = some heads) (hp : heads[i]? = some p) (hlive : ∀ b, chainPrev = some b → (m.prop b).isSome) :
    unlinkChain m table i chainPrev c = some ({ m with hashNext := bypass m.hashNext chainPrev c },
      { table with heads := some (heads.set i (bypassHead m.hashNext p chainPrev c)) }) := by
  cases chainPrev with
  | none => simp only [unlinkChain, hh, bypass, bypassHead, Option.bind_eq_bind, Option.bind_some, Option.pure_def]
  | some b =>
    have hset : heads.set i p = heads := by
      obtain ⟨hlt, rfl⟩ := List.getElem?_eq_some_iff.1 hp
      exact List.set_getElem_self hlt
    obtain ⟨heads', headMask, count, nextIndex, first, last, iterators⟩ := table
    cases hh
    simp only [unlinkChain, setHashNext_live (hlive b rfl), bypass, bypassHead, hset, Option.bind_eq_bind,
      Option.bind_some, Option.pure_def]

end

/-! ## deleteTableProperty -/

/-- The memory once the property `c` is freed: on its list it was after `b` and before `e`, on its chain after `w`. -/
def freedMemory (m : Memory N) (b e w : Option Ref) (c : Ref) : Memory N where
  prop := Function.update m.prop c none
  hashNext := Function.update (bypass m.hashNext w c) c none
  prev := Function.update (bypass m.prev e c) c none
  next := Function.update (bypass m.next b c) c none
  fresh := m.fresh

theorem freedMemory_same {m : Memory N} {b e w : Option Ref} {c d : Ref} (hd : d ≠ c) (hb : b ≠ some d)
    (he : e ≠ some d) (hw : w ≠ some d) : Same m (freedMemory m b e w c) d := by
  refine ⟨Function.update_of_ne hd _ _, ?_, ?_, ?_⟩
  · exact (Function.update_of_ne hd _ _).trans (bypass_of_not_mem fun x hx hdx => hw (by rw [hx, hdx]))
  · exact (Function.update_of_ne hd _ _).trans (bypass_of_not_mem fun x hx hdx => he (by rw [hx, hdx]))
  · exact (Function.update_of_ne hd _ _).trans (bypass_of_not_mem fun x hx hdx => hb (by rw [hx, hdx]))

section

variable [Number N] [ValueHash N]

def deleteEntry (es : List (Value N × Value N)) (index : Value N) : List (Value N × Value N) :=
  es.filter fun e => !index.equalExactly e.1

/-- **Without a bucket array there is no deletion**, whatever the index. -/
theorem deleteTableProperty_missing (m : Memory N) {table : Table} (h : table.heads = none) (index : Value N) :
    deleteTableProperty m table index = none := by
  simp only [deleteTableProperty, h, Option.bind_eq_bind, Option.bind_none]

variable [LawfulNumber N] [LawfulHash N]

omit [Number N] [LawfulNumber N] [LawfulHash N] in
/-- The memory and the table once the property `c` is freed. -/
theorem freed_linked {m : Memory N} {table : Table} {xs ys ws zs : List Ref} {c : Ref} {p : Option Ref}
    (h : table.Linked m (xs ++ c :: ys)) {heads : List (Option Ref)} (hh : table.heads = some heads) {index : Value N}
    (hp : heads[slot table.headMask index]? = some p) (hchain : Chain m.hashNext p (ws ++ c :: zs))
    (hslot : slotOf m table.headMask c = slot table.headMask index) (iterators : List IteratorState) :
    Table.Linked (freedMemory m xs.getLast? ys.head? ws.getLast? c)
      { heads := some (heads.set (slot table.headMask index) (bypassHead m.hashNext p ws.getLast? c))
        headMask := table.headMask
        count := table.count - 1
        nextIndex := table.nextIndex
        first := bypassHead m.next table.first xs.getLast? c
        last := bypassHead m.prev table.last ys.head? c
        iterators := iterators } (xs ++ ys) := by
  have hnd := h.list.nodup
  have hmem : ∀ d, d ∈ xs ++ ys ↔ d ∈ xs ++ c :: ys ∧ d ≠ c := by
    intro d
    rw [List.nodup_middle, List.nodup_cons] at hnd
    have hc : c ∉ xs ++ ys := hnd.1
    simp only [List.mem_append, List.mem_cons] at hc ⊢
    constructor
    · intro hd
      refine ⟨by grind, ?_⟩
      rintro rfl
      exact hc hd
    · grind
  have hne : ∀ d ∈ xs ++ ys, d ≠ c := fun d hd => ((hmem d).1 hd).2
  have hcontent : ∀ d ∈ xs ++ ys, (freedMemory m xs.getLast? ys.head? ws.getLast? c).prop d = m.prop d := fun d hd =>
    Function.update_of_ne (hne d hd) _ _
  refine ⟨h.list.remove.congr ?_ ?_, ?_, ?_, by simp, ?_, ?_⟩
  · exact fun d hd => (Function.update_of_ne (hne d hd) _ _).symm
  · exact fun d hd => (Function.update_of_ne (hne d hd) _ _).symm
  · intro d hd
    exact (congrArg Option.isSome (hcontent d hd)).trans (h.live d ((hmem d).1 hd).1)
  · have := h.count
    simp only [List.length_append, List.length_cons] at this ⊢
    omega
  · rintro _ ⟨⟩
    rw [List.length_set]
    exact h.mask heads hh
  · rintro _ ⟨⟩
    have := (h.chains heads hh).remove (c := c) (by rw [hslot]; exact hp) hchain hmem
    rw [hslot] at this
    refine this.congr (fun _ => Iff.rfl) (fun d hd => (Function.update_of_ne (hne d hd) _ _).symm) fun d hd => ?_
    exact congrArg (fun q => slot table.headMask q.1) (content_congr (hcontent d hd)).symm

/-- An iterator at `cur`, with the list it is in as cells in front of `cur` and behind it. -/
def skipped (xs ys : List Ref) (c : Ref) (iter : IteratorState) : IteratorState :=
  if iter.prop = some c then { iter with prop := if iter.ascending then ys.head? else xs.getLast? } else iter

omit [LawfulNumber N] [LawfulHash N] in
/-- **Deleting** takes the property met on the chain out of the list, or leaves all as it is where none is met. -/
theorem deleteTableProperty_linked {m : Memory N} {table : Table} {cs : List Ref} (h : table.Linked m cs)
    (hm : Bounded m) (hheads : table.heads ≠ none) (index : Value N) :
    (∃ m' table' xs c ys, cs = xs ++ c :: ys ∧ index.equalExactly (content m c).1 = true ∧
        deleteTableProperty m table index = some (m', table', true) ∧ table'.Linked m' (xs ++ ys) ∧ Touches m m' cs (xs ++ ys) ∧
        m'.prop = Function.update m.prop c none ∧ table'.nextIndex = table.nextIndex ∧ table'.heads ≠ none ∧
        table'.iterators = table.iterators.map (skipped xs ys c)) ∨
      deleteTableProperty m table index = some (m, table, false) ∧
        ∀ c ∈ cs, slotOf m table.headMask c = slot table.headMask index → index.equalExactly (content m c).1 = false := by
  obtain ⟨heads, hh⟩ := Option.ne_none_iff_exists'.1 hheads
  obtain ⟨p, hp, ⟨c, ws, zs, hc, hic, hchain, hwalk, hslot⟩ | ⟨b, hwalk, hno⟩⟩ := walk_linked h hm hh index
  · obtain ⟨xs, ys, rfl⟩ := List.append_of_mem hc
    obtain ⟨g, hbefore, hg⟩ := unlinkBefore_some h.list h.live
    have hafter := unlinkAfter_some (bypassHead m.next table.first xs.getLast? c) h.list h.live rfl hg
    obtain ⟨es, he, hes⟩ := (h.chains heads hh).chains _ _ hp
    obtain rfl := chain_unique he hchain
    have hpast (b : Ref) (hb : ws.getLast? = some b) : (m.prop b).isSome :=
      h.live b ((hes b).1 (List.mem_append_left _ (List.mem_of_getLast? hb))).1
    have hunchain := unlinkChain_some { m with next := bypass m.next xs.getLast? c, prev := bypass m.prev ys.head? c }
      { table with first := bypassHead m.next table.first xs.getLast? c, last := bypassHead m.prev table.last ys.head? c }
      (c := c) hh hp hpast
    have hlive := h.live c hc
    have hlinked := freed_linked h hh hp hchain hslot
    have hnd := h.list.nodup
    rw [List.nodup_middle, List.nodup_cons] at hnd
    -- the links of the property itself are read after its neighbours' were written
    have hnext : bypass m.next xs.getLast? c c = ys.head? := by
      rw [bypass_of_not_mem, h.list.next_eq]
      rintro d hd rfl
      exact hnd.1 (List.mem_append_left _ (List.mem_of_getLast? hd))
    have hprev : bypass m.prev ys.head? c c = xs.getLast? := by
      rw [bypass_of_not_mem, h.list.prev_eq]
      rintro d hd rfl
      exact hnd.1 (List.mem_append_right _ (List.mem_of_head? hd))
    have hskip : skipProperty { m with
        hashNext := bypass m.hashNext ws.getLast? c
        prev := bypass m.prev ys.head? c
        next := bypass m.next xs.getLast? c } c = skipped xs ys c := by
      funext iter
      unfold skipProperty skipped
      dsimp only
      rw [hnext, hprev]
    refine .inl ⟨freedMemory m xs.getLast? ys.head? ws.getLast? c, _, xs, c, ys, rfl, hic, ?_,
      hlinked (table.iterators.map (skipProperty { m with
        hashNext := bypass m.hashNext ws.getLast? c
        prev := bypass m.prev ys.head? c
        next := bypass m.next xs.getLast? c } c)), ⟨?_, Nat.le_refl _, ?_, ?_⟩, rfl, rfl, by simp, by rw [hskip]⟩
    · rw [deleteTableProperty, hh]
      simp only [hp, hwalk, hbefore, hafter, hunchain, freeProperty, hlive, if_true, Option.bind_eq_bind,
        Option.bind_some, Option.pure_def]
      rfl
    · intro d hd _
      refine freedMemory_same ?_ ?_ ?_ ?_
      · rintro rfl
        exact hd hc
      · exact fun hb => hd (List.mem_append_left _ (List.mem_of_getLast? hb))
      · exact fun he => hd (List.mem_append_right _ (List.mem_cons_of_mem _ (List.mem_of_head? he)))
      · exact fun hw => hd ((hes d).1 (List.mem_append_left _ (List.mem_of_getLast? hw))).1
    · intro d hd
      by_cases hdc : d = c
      · rw [hdc]
        exact hm c hlive
      · exact hm d ((congrArg Option.isSome (Function.update_of_ne hdc _ _)).symm.trans hd)
    · intro d hd
      refine Or.inl ?_
      rcases List.mem_append.1 hd with hd | hd
      · exact List.mem_append_left _ hd
      · exact List.mem_append_right _ (List.mem_cons_of_mem _ hd)
  · refine .inr ⟨?_, hno⟩
    simp only [deleteTableProperty, hh, hp, hwalk, Option.bind_eq_bind, Option.bind_some, Option.pure_def]

/-- **Deleting an index** takes its entry out and leaves the others in their order. -/
theorem deleteTableProperty_some {m : Memory N} {table : Table} {cs : List Ref} (h : table.Holds m cs)
    (hm : Bounded m) (hheads : table.heads ≠ none) (index : Value N) :
    ∃ m' table' found cs', deleteTableProperty m table index = some (m', table', found) ∧ table'.Holds m' cs' ∧
      Touches m m' cs cs' ∧ entries m' cs' = deleteEntry (entries m cs) index ∧ table'.heads ≠ none := by
  rcases deleteTableProperty_linked h.linked hm hheads index with
    ⟨m', table', xs, c, ys, rfl, hic, he, hlinked, ht, hprop, -, hheads', -⟩ | ⟨he, hno⟩
  · have hnd := h.list.nodup
    rw [List.nodup_middle, List.nodup_cons] at hnd
    have hmem : ∀ d ∈ xs ++ ys, d ∈ xs ++ c :: ys := fun d hd => by
      rcases List.mem_append.1 hd with hd | hd
      · exact List.mem_append_left _ hd
      · exact List.mem_append_right _ (List.mem_cons_of_mem _ hd)
    have hrest : ∀ d ∈ xs ++ ys, index.equalExactly (content m d).1 = false := by
      intro d hd
      refine Bool.eq_false_iff.2 fun hid => ?_
      obtain rfl := eq_of_equalExactly h.keys (hmem d hd) (by simp) hid hic
      exact hnd.1 hd
    have hentries : entries m' (xs ++ ys) = entries m (xs ++ ys) := entries_congr fun d hd => by
      rw [hprop]
      refine Function.update_of_ne ?_ _ _
      rintro rfl
      exact hnd.1 hd
    refine ⟨m', table', true, xs ++ ys, he, hlinked.holds ?_, ht, ?_, hheads'⟩
    · rw [hentries]
      exact h.keys.sublist ((List.Sublist.append_left (List.sublist_cons_self c ys) xs).map _)
    · rw [hentries]
      simp only [entries, deleteEntry, List.map_append, List.map_cons, List.filter_append, List.filter_cons, hic,
        Bool.not_true, Bool.false_eq_true, if_false]
      rw [← List.filter_append, ← List.map_append, List.filter_eq_self.2]
      intro e he
      obtain ⟨d, hd, rfl⟩ := List.mem_map.1 he
      rw [hrest d hd]
      rfl
  · refine ⟨m, table, false, cs, he, h, ⟨fun c _ _ => ⟨rfl, rfl, rfl, rfl⟩, Nat.le_refl _, hm, fun c hc => Or.inl hc⟩, ?_,
      hheads⟩
    refine (List.filter_eq_self.2 fun e hemem => ?_).symm
    obtain ⟨c, hc, rfl⟩ := List.mem_map.1 hemem
    by_cases hic : index.equalExactly (content m c).1 = true
    · have hslot : slotOf m table.headMask c = slot table.headMask index := by
        rw [slotOf, slot, slot, LawfulHash.hash_eq hic]
      rw [hno c hc hslot]
      rfl
    · rw [Bool.eq_false_iff.2 hic]
      rfl

end

/-! ## clearTable -/

theorem freeProperties_some : ∀ (cs : List Ref) (n : Nat) (m : Memory N) (cur : Option Ref), Chain m.prev cur cs →
    (∀ c ∈ cs, (m.prop c).isSome) → cs.length < n →
    ∃ m', freeProperties n m cur = some m' ∧ m'.fresh = m.fresh ∧ (∀ c, c ∉ cs → Same m m' c) ∧
      ∀ c, (m'.prop c).isSome → (m.prop c).isSome
  | [], n + 1, m, _, rfl, _, _ => ⟨m, rfl, rfl, fun _ _ => ⟨rfl, rfl, rfl, rfl⟩, fun _ h => h⟩
  | c :: cs, n + 1, m, _, ⟨rfl, hprev⟩, hlive, hn => by
    have hc := hlive c List.mem_cons_self
    have hnd : (c :: cs).Nodup := chain_nodup (f := m.prev) (p := some c) ⟨rfl, hprev⟩
    have hne : ∀ d ∈ cs, d ≠ c := by
      rintro d hd rfl
      exact (List.nodup_cons.1 hnd).1 hd
    obtain ⟨M, hM⟩ : ∃ M, m.freeProperty c = some M := ⟨_, if_pos hc⟩
    have hMdef : M = { prop := Function.update m.prop c none
                       hashNext := Function.update m.hashNext c none
                       prev := Function.update m.prev c none
                       next := Function.update m.next c none
                       fresh := m.fresh } := by
      rw [freeProperty, if_pos hc] at hM
      exact (Option.some.inj hM).symm
    have hsame : ∀ d, d ≠ c → Same m M d := by
      intro d hd
      rw [hMdef]
      exact ⟨Function.update_of_ne hd _ _, Function.update_of_ne hd _ _, Function.update_of_ne hd _ _,
        Function.update_of_ne hd _ _⟩
    obtain ⟨m', he, hfresh, hrest, hsub⟩ := freeProperties_some cs n M (m.prev c)
      ((trail_congr fun d hd => (hsame d (hne d hd)).prev.symm).1 hprev)
      (fun d hd => by rw [(hsame d (hne d hd)).prop]; exact hlive d (List.mem_cons_of_mem _ hd)) (by simpa using hn)
    refine ⟨m', ?_, ?_, fun d hd => ?_, fun d hd => ?_⟩
    · simp only [freeProperties, hM, Option.bind_eq_bind, Option.bind_some, he]
    · rw [hfresh, hMdef]
    · obtain ⟨hdc, hd⟩ := not_or.1 (mt List.mem_cons.2 hd)
      have h1 := hsame d hdc
      have h2 := hrest d hd
      exact ⟨h2.prop.trans h1.prop, h2.hashNext.trans h1.hashNext, h2.prev.trans h1.prev, h2.next.trans h1.next⟩
    · by_cases hdc : d = c
      · rw [hdc]
        exact hc
      · rw [← (hsame d hdc).prop]
        exact hsub d hd

/-- **Clearing** frees every property and leaves a new table, without buckets. -/
theorem clearTable_linked [ValueHash N] {m : Memory N} {table : Table} {cs : List Ref} (h : table.Linked m cs) (hm : Bounded m) :
    ∃ m', clearTable m table = some (m', Table.new) ∧ Touches m m' cs [] := by
  have hlen := length_le_fresh h.list.nodup (h.lt_fresh hm)
  obtain ⟨m', he, hfresh, hsame, hsub⟩ := freeProperties_some cs.reverse (m.fresh + 1) m table.last h.list.backward
    (fun c hc => h.live c (List.mem_reverse.1 hc)) (by rw [List.length_reverse]; omega)
  refine ⟨m', ?_, ⟨fun c hc _ => hsame c (mt List.mem_reverse.1 hc), ?_, ?_, by simp⟩⟩
  · simp only [clearTable, he, Option.bind_eq_bind, Option.bind_some, Option.pure_def]
  · exact Nat.le_of_eq hfresh.symm
  · intro c hc
    rw [hfresh]
    exact hm c (hsub c hc)

theorem clearTable_some [Number N] [ValueHash N] {m : Memory N} {table : Table} {cs : List Ref}
    (h : table.Holds m cs) (hm : Bounded m) :
    ∃ m', clearTable m table = some (m', Table.new) ∧ Table.new.Holds m' [] ∧ Touches m m' cs [] := by
  obtain ⟨m', he, ht⟩ := clearTable_linked h.linked hm
  exact ⟨m', he, Table.new_holds m', ht⟩

end Core
end ObjectScript
