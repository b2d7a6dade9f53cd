import ObjectScript.Core.TableHolds
/-!
# Sorting a table

`sortTable` links the properties again in the order `qsort` gives them and, when the keys are reordered, gives them
the indexes from 0 on and new chains.  The list is then what `qsort` makes of the entries (`sortEntries`), whatever
the comparator answers.

`collectProps` copies the list to an array, `qsort` sorts the array, and `linkProps` links it again.  That each step
works on the same properties is what keeps the table `Linked`; whether they are in order then is a matter of the
comparator.
-/
namespace ObjectScript
namespace Core

open Links Memory

variable {N σ : Type}

theorem collectProps_some {m : Memory N} : ∀ (cs : List Ref) (n : Nat) (cur : Option Ref), Chain m.next cur cs →
    (∀ c ∈ cs, (m.prop c).isSome) → cs.length < n → collectProps m n cur = some cs
  | [], n + 1, _, rfl, _, _ => rfl
  | c :: cs, n + 1, _, ⟨rfl, hnext⟩, hlive, hn => by
    have ih := collectProps_some cs n (m.next c) hnext (fun d hd => hlive d (List.mem_cons_of_mem _ hd)) (by simpa using hn)
    simp only [collectProps, prop_of_live (hlive c List.mem_cons_self), ih, Option.bind_eq_bind, Option.bind_some,
      Option.pure_def]

/-- The list is linked from `c` to its end; what is before `c` stays as it was. -/
theorem relink_some : ∀ (cs : List Ref) (m : Memory N) (c : Ref), (c :: cs).Nodup →
    (∀ d ∈ c :: cs, (m.prop d).isSome) →
    ∃ f g last, relink m c cs = some ({ m with next := f, prev := g }, last) ∧ Trail f (some c) (c :: cs) none ∧
      Trail g (some last) (c :: cs).reverse (m.prev c) ∧ g c = m.prev c ∧
      ∀ d, d ∉ c :: cs → f d = m.next d ∧ g d = m.prev d
  | [], m, c, _, hlive => by
    refine ⟨Function.update m.next c none, m.prev, c, ?_, ⟨rfl, Function.update_self _ _ _⟩, ⟨rfl, rfl⟩, rfl, ?_⟩
    · simp only [relink, setNext_live (hlive c List.mem_cons_self), Option.bind_eq_bind, Option.bind_some, Option.pure_def]
    · intro d hd
      exact ⟨Function.update_of_ne (fun h => hd (by simp [h])) _ _, rfl⟩
  | d :: cs, m, c, hnd, hlive => by
    have hc := hlive c List.mem_cons_self
    have hd := hlive d (by simp)
    obtain ⟨hcn, hnd'⟩ := List.nodup_cons.1 hnd
    have hcd : c ≠ d := fun h => hcn (by simp [h])
    obtain ⟨f, g, last, he, hf, hg, hgd, hout⟩ := relink_some cs
      { m with next := Function.update m.next c (some d), prev := Function.update m.prev d (some c) } d hnd'
      (fun e he => hlive e (List.mem_cons_of_mem _ he))
    have hfc : f c = some d := (hout c hcn).1.trans (Function.update_self _ _ _)
    have hgc : g c = m.prev c := (hout c hcn).2.trans (Function.update_of_ne hcd _ _)
    refine ⟨f, g, last, ?_, ⟨rfl, by rw [hfc]; exact hf⟩, ?_, hgc, fun e hee => ?_⟩
    · have hset : setPrev { m with next := Function.update m.next c (some d) } d (some c) =
          some { m with next := Function.update m.next c (some d), prev := Function.update m.prev d (some c) } :=
        setPrev_live (by exact hd) _
      simp only [relink, setNext_live hc, hset, Option.bind_eq_bind, Option.bind_some, he]
    · rw [List.reverse_cons]
      refine (trail_append _ _ _ _ _).2 ⟨some c, ?_, rfl, hgc⟩
      have hdc : Function.update m.prev d (some c) d = some c := Function.update_self _ _ _
      exact hdc ▸ hg
    · obtain ⟨hec, hee⟩ := not_or.1 (mt List.mem_cons.2 hee)
      obtain ⟨hed, -⟩ := not_or.1 (mt List.mem_cons.2 hee)
      exact ⟨(hout e hee).1.trans (Function.update_of_ne hec _ _), (hout e hee).2.trans (Function.update_of_ne hed _ _)⟩

section

variable [Number N] [ValueHash N]

/-- The entries with the indexes from `i` on. -/
def reindex : Nat → List (Value N × Value N) → List (Value N × Value N)
  | _, [] => []
  | i, e :: es => (.number (Number.ofInt i), e.2) :: reindex (i + 1) es

def sortEntries (comp : Comparator σ (Value N × Value N)) (s : σ) (reorder : Bool) (es : List (Value N × Value N)) :
    Option (List (Value N × Value N)) :=
  if es.length > 1 then (qsort comp s es).map fun r => if reorder then reindex 0 r.1 else r.1 else some es

/-- What `sortTable` does after `qsort`. -/
def linkProps (m : Memory N) (table : Table) (reorder : Bool) : List Ref → Option (Memory N × Table)
  | [] => none
  | prop :: rest => do
    let m ← m.setPrev prop none
    let (m, last) ← relink m prop rest
    let table := { table with first := some prop, last := some last }
    if reorder then do
      let heads ← table.heads
      let (m, heads) ← reorderKeys table.headMask m (heads.map fun _ => none) 0 (prop :: rest)
      return (m, { table with heads := some heads, nextIndex := table.count })
    else return (m, table)

theorem sortTable_eq (m : Memory N) (table : Table) (comp : Comparator σ (Value N × Value N)) (s : σ) (reorder : Bool) :
    sortTable m table comp s reorder =
      if table.count > 1 then
        (collectProps m (table.count + 1) table.first).bind fun props =>
          (qsort (comparing (content m) comp) s props).bind fun r =>
            (linkProps m table reorder r.1).map fun q => (q.1, q.2, r.2)
      else some (m, table, s) := by
  unfold sortTable
  split
  · rw [Option.bind_eq_bind]
    refine Option.bind_congr fun props _ => ?_
    rw [Option.bind_eq_bind]
    refine Option.bind_congr fun ⟨sorted, s'⟩ _ => ?_
    cases sorted with
    | nil => rfl
    | cons prop rest =>
      dsimp only
      cases hset : m.setPrev prop none with
      | none => simp only [linkProps, hset, Option.bind_eq_bind, Option.bind_none, Option.map_none]
      | some m1 =>
        cases hrelink : relink m1 prop rest with
        | none => simp only [linkProps, hset, hrelink, Option.bind_eq_bind, Option.bind_some, Option.bind_none, Option.map_none]
        | some r =>
          cases reorder with
          | false => simp [linkProps, hset, hrelink]
          | true =>
            cases hheads : table.heads with
            | none => simp [linkProps, hset, hheads]
            | some heads =>
              simp only [linkProps, hset, hrelink, hheads, Option.bind_eq_bind, Option.bind_some, Option.pure_def, if_true,
                Option.map_bind]
              rfl
  · rfl

/-- The properties get their new indexes and go into the buckets, after those of `done`. -/
theorem reorderKeys_some (headMask : Nat) : ∀ (cs : List Ref) (m : Memory N) (heads : List (Option Ref)) (i : Nat)
    (done : List Ref), cs.Nodup → (∀ c ∈ cs, (m.prop c).isSome) → (∀ c ∈ cs, c ∉ done) →
    heads.length = headMask + 1 → Buckets m.hashNext (slotOf m headMask) heads done →
    ∃ P f heads', reorderKeys headMask m heads i cs = some ({ m with prop := P, hashNext := f }, heads') ∧
      heads'.length = headMask + 1 ∧ (∀ c, c ∉ cs → P c = m.prop c ∧ f c = m.hashNext c) ∧
      (∀ c, (P c).isSome = (m.prop c).isSome) ∧
      entries { m with prop := P, hashNext := f } cs = reindex i (entries m cs) ∧
      Buckets f (slotOf { m with prop := P, hashNext := f } headMask) heads' (cs.reverse ++ done)
  | [], m, heads, i, done, _, _, _, hlen, hb =>
    ⟨m.prop, m.hashNext, heads, rfl, hlen, fun _ _ => ⟨rfl, rfl⟩, fun _ => rfl, rfl, hb⟩
  | c :: cs, m, heads, i, done, hnd, hlive, hdone, hlen, hb => by
    have hc := hlive c List.mem_cons_self
    obtain ⟨hcn, hnd'⟩ := List.nodup_cons.1 hnd
    -- the memory once `c` has its index and its place on a chain
    generalize hindex : (Value.number (Number.ofInt i) : Value N) = index
    obtain ⟨p, hp⟩ : ∃ p, heads[slot headMask index]? = some p := ⟨_, List.getElem?_eq_getElem (slot_lt hlen index)⟩
    obtain ⟨M, hM⟩ : ∃ M : Memory N, M = { m with
      prop := Function.update m.prop c (some (index, (content m c).2))
      hashNext := Function.update m.hashNext c p } := ⟨_, rfl⟩
    have hMprop : ∀ d, d ≠ c → M.prop d = m.prop d := fun d hd => by rw [hM]; exact Function.update_of_ne hd _ _
    have hMhash : ∀ d, d ≠ c → M.hashNext d = m.hashNext d := fun d hd => by
      rw [hM]; exact Function.update_of_ne hd _ _
    have hMc : M.prop c = some (index, (content m c).2) := by rw [hM]; exact Function.update_self _ _ _
    have hMlive : ∀ d, (M.prop d).isSome = (m.prop d).isSome := fun d => by
      by_cases hd : d = c
      · rw [hd, hMc, hc]
        rfl
      · rw [hMprop d hd]
    have hslot : slotOf M headMask c = slot headMask index := by rw [slotOf, content_of_prop hMc]
    have hdonec : ∀ d ∈ done, d ≠ c := by
      rintro d hd rfl
      exact hdone d List.mem_cons_self hd
    have hbM : Buckets m.hashNext (slotOf M headMask) heads done := hb.congr (fun _ => Iff.rfl) (fun _ _ => rfl)
      fun d hd => by rw [slotOf, slotOf, content_congr (hMprop d (hdonec d hd))]
    have hpush := hbM.push (hdone c List.mem_cons_self) (by rw [hslot]; exact hp)
    have hMf : M.hashNext = Function.update m.hashNext c p := by rw [hM]
    rw [hslot, ← hMf] at hpush
    obtain ⟨P, f, heads', he, hlen', hout, hPlive, hentries, hb'⟩ := reorderKeys_some headMask cs M
      (heads.set (slot headMask index) (some c)) (i + 1) (c :: done) hnd'
      (fun d hd => by rw [hMlive]; exact hlive d (List.mem_cons_of_mem _ hd))
      (fun d hd hmem => by
        rcases List.mem_cons.1 hmem with rfl | hmem
        · exact hcn hd
        · exact hdone d (List.mem_cons_of_mem _ hd) hmem)
      (by rw [List.length_set]; exact hlen) hpush
    have hmem : ({ M with prop := P, hashNext := f } : Memory N) = { m with prop := P, hashNext := f } := by rw [hM]
    rw [hmem] at he hentries hb'
    refine ⟨P, f, heads', ?_, hlen', fun d hd => ?_, fun d => by rw [hPlive, hMlive], ?_, ?_⟩
    · have hset : m.setProp c (fun q => (index, q.2)) =
          some { m with prop := Function.update m.prop c (some (index, (content m c).2)) } := by
        rw [setProp, prop_of_live hc]
        rfl
      have hset' : setHashNext { m with prop := Function.update m.prop c (some (index, (content m c).2)) } c p =
          some M := by
        rw [hM, setHashNext_live]
        exact Option.isSome_of_eq_some (Function.update_self _ _ _)
      simp only [reorderKeys, hindex, hset, hp, hset', Option.bind_eq_bind, Option.bind_some, he]
    · obtain ⟨hdc, hd⟩ := not_or.1 (mt List.mem_cons.2 hd)
      exact ⟨(hout d hd).1.trans (hMprop d hdc), (hout d hd).2.trans (hMhash d hdc)⟩
    · have hPc : content { m with prop := P, hashNext := f } c = (index, (content m c).2) :=
        content_of_prop ((hout c hcn).1.trans hMc)
      have hrest : entries M cs = entries m cs := entries_congr fun d hd => hMprop d (by rintro rfl; exact hcn hd)
      rw [entries, List.map_cons, hPc, entries, List.map_cons, reindex, hindex]
      exact congrArg ((index, (content m c).2) :: ·) (hentries.trans (by rw [hrest]; rfl))
    · rw [List.reverse_cons, List.append_assoc]
      exact hb'

omit [ValueHash N] in
theorem mem_reindex : ∀ {es : List (Value N × Value N)} {i : Nat} {e : Value N × Value N}, e ∈ reindex i es →
    ∃ j, i ≤ j ∧ j < i + es.length ∧ e.1 = .number (Number.ofInt j)
  | _ :: es, i, e, h => by
    rcases List.mem_cons.1 h with rfl | h
    · exact ⟨i, Nat.le_refl i, by simp, rfl⟩
    · obtain ⟨j, h1, h2, h3⟩ := mem_reindex h
      exact ⟨j, by omega, by rw [List.length_cons]; omega, h3⟩

omit [Number N] [ValueHash N] in
theorem entries_perm {m : Memory N} {cs ds : List Ref} (h : ds.Perm cs) : (entries m ds).Perm (entries m cs) :=
  h.map _

variable [LawfulNumber N]

omit [ValueHash N] in
/-- The new indexes are different numbers, as long as they are `int`s. -/
theorem distinctKeys_reindex : ∀ (es : List (Value N × Value N)) (i : Nat), i + es.length ≤ 2 ^ 31 →
    DistinctKeys (reindex i es)
  | [], _, _ => List.Pairwise.nil
  | e :: es, i, h => by
    rw [List.length_cons] at h
    refine List.Pairwise.cons (fun q hq => ?_) (distinctKeys_reindex es (i + 1) (by omega))
    obtain ⟨j, h1, h2, hj⟩ := mem_reindex hq
    rw [hj, Value.equalExactly, Bool.eq_false_iff]
    intro heq
    have := (LawfulNumber.equal_ofInt (by omega) (by omega) (by omega) (by omega)).1 heq
    omega

omit [ValueHash N] in
theorem distinctKeys_perm {es es' : List (Value N × Value N)} (h : es'.Perm es) (hd : DistinctKeys es) :
    DistinctKeys es' :=
  (h.symm.pairwise_iff fun {a b} hab => by rw [equalExactly_comm]; exact hab).1 hd

omit [ValueHash N] in
/-- The entries of a sorted table have distinct keys, old or new ones. -/
theorem distinctKeys_sortEntries {comp : Comparator σ (Value N × Value N)} {s : σ} {reorder : Bool}
    {es es' : List (Value N × Value N)} (h : sortEntries comp s reorder es = some es') (hd : DistinctKeys es)
    (hint : es.length ≤ 2 ^ 31) : DistinctKeys es' := by
  unfold sortEntries at h
  split at h
  · obtain ⟨b, s', hsort, hperm⟩ := qsort_perm comp s es
    rw [hsort, Option.map_some, Option.some.injEq] at h
    cases reorder with
    | false =>
      rw [← h]
      exact distinctKeys_perm hperm hd
    | true =>
      rw [← h]
      exact distinctKeys_reindex b 0 (by rw [hperm.length_eq]; omega)
  · cases h
    exact hd

omit [Number N] [LawfulNumber N] in
theorem relinked_linked {m : Memory N} {table : Table} {cs ds : List Ref} {f g : LinkField Ref} {first last : Option Ref}
    (h : table.Linked m cs) (hperm : ds.Perm cs) (hlist : Doubly f g first last ds) :
    Table.Linked { m with next := f, prev := g } { table with first := first, last := last } ds where
  list := hlist
  live := fun c hc => h.live c (hperm.mem_iff.1 hc)
  count := h.count.trans hperm.length_eq.symm
  missing := fun hh => by
    obtain ⟨rfl, hmask⟩ := h.missing hh
    exact ⟨hperm.eq_nil, hmask⟩
  mask := h.mask
  chains := fun heads hh => (h.chains heads hh).congr (fun _ => hperm.mem_iff) (fun _ _ => rfl) fun _ _ => rfl

omit [LawfulNumber N] in
/-- **The properties of a table are linked in another order**; the keys are left as they are, and so is all that `get` answers,
or are the indexes from 0 on. -/
theorem linkProps_linked {m : Memory N} {table : Table} {cs ds : List Ref} (h : table.Linked m cs) (hm : Bounded m)
    (reorder : Bool) (hperm : ds.Perm cs) (hne : ds ≠ []) :
    ∃ m' table', linkProps m table reorder ds = some (m', table') ∧ table'.Linked m' ds ∧ Touches m m' cs ds ∧
      entries m' ds = (if reorder then reindex 0 (entries m ds) else entries m ds) ∧
      table'.nextIndex = (if reorder then (table.count : Int) else table.nextIndex) ∧
      table'.iterators = table.iterators ∧ (reorder = false → ∀ index, get m' table' index = get m table index) := by
  cases ds with
  | nil => exact absurd rfl hne
  | cons d rest =>
    have hlive : ∀ c ∈ d :: rest, (m.prop c).isSome := fun c hc => h.live c (hperm.mem_iff.1 hc)
    have hnd : (d :: rest).Nodup := hperm.nodup_iff.2 h.list.nodup
    have hd := hlive d List.mem_cons_self
    obtain ⟨f, g, last, hrelink, hf, hg, -, hout⟩ := relink_some rest
      { m with prev := Function.update m.prev d none } d hnd hlive
    have hgd : Function.update m.prev d none d = none := Function.update_self _ _ _
    change Trail g (some last) (d :: rest).reverse (Function.update m.prev d none d) at hg
    rw [hgd] at hg
    have hlist : Doubly f g (some d) (some last) (d :: rest) := ⟨hf, hg⟩
    have hlinked := relinked_linked h hperm hlist
    have hsame : ∀ c, c ∉ cs → Same m { m with next := f, prev := g } c := by
      intro c hc
      have hcd : c ∉ d :: rest := mt hperm.mem_iff.1 hc
      have hne : c ≠ d := by rintro rfl; exact hcd List.mem_cons_self
      exact ⟨rfl, rfl, (hout c hcd).2.trans (Function.update_of_ne hne _ _), (hout c hcd).1⟩
    have hcells : ∀ c ∈ d :: rest, c ∈ cs ∨ m.fresh ≤ c := fun c hc => Or.inl (hperm.mem_iff.1 hc)
    cases reorder with
    | false =>
      refine ⟨{ m with next := f, prev := g }, { table with first := some d, last := some last }, ?_, hlinked,
        ⟨fun c hc _ => hsame c hc, Nat.le_refl _, hm, hcells⟩, rfl, rfl, rfl, fun _ _ => rfl⟩
      simp only [linkProps, setPrev_live hd, hrelink, Option.bind_eq_bind, Option.bind_some, Option.pure_def,
        Bool.false_eq_true, if_false]
    | true =>
      cases hh : table.heads with
      | none =>
        have hnil := (h.missing hh).1
        rw [hnil] at hperm
        exact absurd hperm.eq_nil hne
      | some heads =>
        have hnone : (heads.map fun _ => (none : Option Ref)) = List.replicate (table.headMask + 1) none := by
          rw [List.map_const', h.mask heads hh]
        obtain ⟨P, f', heads', hreorder, hlen', hout', hPlive, hentries, hb⟩ := reorderKeys_some table.headMask (d :: rest)
          { m with next := f, prev := g } (List.replicate (table.headMask + 1) none) 0 [] hnd hlive (by simp)
          (List.length_replicate) (Buckets.empty _ _ _)
        refine ⟨{ m with prop := P, hashNext := f', next := f, prev := g },
          { table with heads := some heads', nextIndex := table.count, first := some d, last := some last },
          ?_, ⟨hlist, fun c hc => ?_, hlinked.count, by simp, ?_, ?_⟩,
          ⟨fun c hc _ => ?_, Nat.le_refl _, ?_, hcells⟩, hentries, rfl, rfl, by simp⟩
        · simp only [linkProps, setPrev_live hd, hrelink, hh, hnone, hreorder, Option.bind_eq_bind, Option.bind_some,
            Option.pure_def, if_true]
        · exact (hPlive c).trans (hlive c hc)
        · rintro _ ⟨⟩
          exact hlen'
        · rintro _ ⟨⟩
          exact hb.congr (fun c => by rw [List.append_nil, List.mem_reverse]) (fun _ _ => rfl) (fun _ _ => rfl)
        · have hcd : c ∉ d :: rest := mt hperm.mem_iff.1 hc
          have hcs := hsame c hc
          exact ⟨(hout' c hcd).1, (hout' c hcd).2, hcs.prev, hcs.next⟩
        · intro c hc
          exact hm c ((hPlive c).symm.trans hc)

omit [LawfulNumber N] in
/-- **Sorting two properties or more** links them in the order `qsort` gives their entries. -/
theorem sortTable_linked {m : Memory N} {table : Table} {cs : List Ref} (h : table.Linked m cs) (hm : Bounded m)
    (comp : Comparator σ (Value N × Value N)) (s : σ) (reorder : Bool) (hmany : table.count > 1) :
    ∃ m' table' s' cs', sortTable m table comp s reorder = some (m', table', s') ∧ table'.Linked m' cs' ∧
      Touches m m' cs cs' ∧ cs'.Perm cs ∧ qsort comp s (entries m cs) = some (entries m cs', s') ∧
      entries m' cs' = (if reorder then reindex 0 (entries m cs') else entries m cs') ∧
      table'.nextIndex = (if reorder then (table.count : Int) else table.nextIndex) ∧
      table'.iterators = table.iterators ∧ (reorder = false → ∀ index, get m' table' index = get m table index) := by
  have hlen := h.count
  have hcollect := collectProps_some cs (table.count + 1) table.first h.list.forward h.live (by omega)
  obtain ⟨ds, s', hsort, hperm⟩ := qsort_perm (comparing (content m) comp) s cs
  have hsortE : qsort comp s (entries m cs) = some (entries m ds, s') := by rw [entries, qsort_map, hsort]; rfl
  have hne : ds ≠ [] := by
    rintro rfl
    have := hperm.length_eq
    rw [List.length_nil] at this
    omega
  obtain ⟨m', table', he, hlinked, ht, hentries, hnext, hiter, hget⟩ := linkProps_linked h hm reorder hperm hne
  refine ⟨m', table', s', ds, ?_, hlinked, ht, hperm, hsortE, hentries, hnext, hiter, hget⟩
  rw [sortTable_eq, if_pos hmany]
  simp only [hcollect, hsort, he, Option.bind_some, Option.map_some]

/-- **Sorting** leaves the entries in the order `qsort` gives them. -/
theorem sortTable_some {m : Memory N} {table : Table} {cs : List Ref} (h : table.Holds m cs) (hm : Bounded m)
    (comp : Comparator σ (Value N × Value N)) (s : σ) (reorder : Bool) (hint : cs.length ≤ 2 ^ 31) :
    ∃ m' table' s' cs', sortTable m table comp s reorder = some (m', table', s') ∧ table'.Holds m' cs' ∧
      Touches m m' cs cs' ∧ sortEntries comp s reorder (entries m cs) = some (entries m' cs') := by
  have hlen := h.count
  have helen : (entries m cs).length = cs.length := List.length_map _
  by_cases hmany : table.count > 1
  · obtain ⟨m', table', s', cs', he, hlinked, ht, -, hsort, hentries, -⟩ := sortTable_linked h.linked hm comp s reorder hmany
    have hsorted : sortEntries comp s reorder (entries m cs) = some (entries m' cs') := by
      rw [sortEntries, if_pos (by omega), hsort, hentries]
      rfl
    exact ⟨m', table', s', cs', he, hlinked.holds (distinctKeys_sortEntries hsorted h.keys (by omega)), ht, hsorted⟩
  · refine ⟨m, table, s, cs, if_neg hmany, h, ⟨fun c _ _ => ⟨rfl, rfl, rfl, rfl⟩, Nat.le_refl _, hm, fun c hc => Or.inl hc⟩, ?_⟩
    rw [sortEntries, if_neg (by omega)]

end

end Core
end ObjectScript
