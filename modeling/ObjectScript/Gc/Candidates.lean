import ObjectScript.Gc.Collect
/-!
# The table of candidates

`Holds c cs` says that the chains of `c` hold exactly `cs`, each once and in the chain of its slot.  Growing keeps what
is held, registering adds a value in front of a chain, and the loops that look for a value find it when it is there.
`Grown` is what the candidate loop needs to know of all this: while the bucket array keeps its size, a chain changes only
by what is pushed in front of it.
-/
namespace ObjectScript
namespace Gc

open Links
open ObjectScript.Core (Ref)

namespace FreeCandidateValues

/-- **The chains hold the values `cs`.** -/
structure Holds (c : FreeCandidateValues) (cs : List Ref) : Prop where
  absent : c.heads = none → cs = [] ∧ c.headMask = 0
  length : ∀ heads, c.heads = some heads → heads.length = c.headMask + 1
  buckets : ∀ heads, c.heads = some heads → Buckets c.hashNext (· &&& c.headMask) heads cs
  nodup : cs.Nodup
  count : cs.length ≤ c.count

def ChainAt (c : FreeCandidateValues) (i : Nat) (ds : List Ref) : Prop :=
  ∃ heads p, c.heads = some heads ∧ heads[i]? = some p ∧ Chain c.hashNext p ds

structure Grown (c c' : FreeCandidateValues) : Prop where
  mask : c.headMask ≤ c'.headMask
  chains : c'.headMask = c.headMask → ∀ i ds, c.ChainAt i ds → ∃ ns, c'.ChainAt i (ns ++ ds)

theorem Grown.refl (c : FreeCandidateValues) : Grown c c := ⟨Nat.le_refl _, fun _ _ _ h => ⟨[], h⟩⟩

theorem Grown.trans {c c' c'' : FreeCandidateValues} (h : Grown c c') (h' : Grown c' c'') : Grown c c'' := by
  refine ⟨Nat.le_trans h.mask h'.mask, fun hm i ds hd => ?_⟩
  have hle := h.mask
  have hle' := h'.mask
  obtain ⟨ns, hns⟩ := h.chains (by omega) i ds hd
  obtain ⟨ms, hms⟩ := h'.chains (by omega) i _ hns
  exact ⟨ms ++ ns, by rw [List.append_assoc]; exact hms⟩

theorem holds_new : Holds new [] := by
  refine ⟨fun _ => ⟨rfl, rfl⟩, fun heads h => ?_, fun heads h => ?_, List.nodup_nil, Nat.le_refl _⟩ <;> cases h

theorem and_mask_lt (r m : Nat) : r &&& m < m + 1 := Nat.lt_succ_of_le Nat.and_le_right

variable {c : FreeCandidateValues} {cs : List Ref}

theorem Holds.head (h : c.Holds cs) {heads : List (Option Ref)} (hh : c.heads = some heads) (r : Ref) :
    ∃ p ds, heads[r &&& c.headMask]? = some p ∧ Chain c.hashNext p ds ∧
      ∀ d, d ∈ ds ↔ d ∈ cs ∧ d &&& c.headMask = r &&& c.headMask := by
  have hlt : r &&& c.headMask < heads.length := by
    rw [h.length heads hh]
    exact and_mask_lt r _
  have hp := List.getElem?_eq_getElem hlt
  obtain ⟨ds, hd, hds⟩ := (h.buckets heads hh).chains _ _ hp
  exact ⟨_, ds, hp, hd, hds⟩

theorem Grown.heads {c' : FreeCandidateValues} {cs' : List Ref} (h : Grown c c') (hc : c.Holds cs) (hc' : c'.Holds cs')
    (hh : c.heads.isSome) : c'.heads.isSome := by
  obtain ⟨heads, hh⟩ := Option.isSome_iff_exists.1 hh
  cases hh' : c'.heads with
  | some heads' => rfl
  | none =>
    have hsame : c'.headMask = c.headMask := by
      have h1 := h.mask
      have h2 := (hc'.absent hh').2
      omega
    obtain ⟨p, ds, hp, hd, -⟩ := hc.head hh 0
    obtain ⟨ns, heads', p', hs, -, -⟩ := h.chains hsame _ ds ⟨heads, p, hh, hp, hd⟩
    rw [hh'] at hs
    cases hs

theorem Holds.chain_length_le (h : c.Holds cs) {p : Option Ref} {ds : List Ref} (hd : Chain c.hashNext p ds)
    (hds : ∀ d ∈ ds, d ∈ cs) : ds.length ≤ c.count :=
  Nat.le_trans ((List.subperm_of_subset (chain_nodup hd) hds).length_le) h.count

/-- The walk for a value finds it, with what comes before it. -/
theorem walk_eq (h : c.Holds cs) {heads : List (Option Ref)} (hh : c.heads = some heads) {r : Ref} (hr : r ∈ cs) :
    ∃ p xs ys, heads[r &&& c.headMask]? = some p ∧ Chain c.hashNext p (xs ++ r :: ys) ∧
      walk c.hashNext (fun candidate => some (candidate == r)) (c.count + 1) none p = some (xs.getLast?, some r) := by
  obtain ⟨p, ds, hp, hd, hds⟩ := h.head hh r
  obtain ⟨xs, ys, rfl⟩ := List.append_of_mem ((hds r).2 ⟨hr, rfl⟩)
  have hlen := h.chain_length_le hd fun d hd => ((hds d).1 hd).1
  rw [List.length_append, List.length_cons] at hlen
  have hnd := chain_nodup hd
  rw [List.nodup_middle, List.nodup_cons] at hnd
  refine ⟨p, xs, ys, hp, hd, ?_⟩
  rw [walk_found (by simp) xs (c.count + 1) none p hd (by omega) fun d hdx => ?_, Option.or_none]
  rw [beq_eq_false_iff_ne.2]
  rintro rfl
  exact hnd.1 (List.mem_append_left _ hdx)

theorem walk_eq_none (h : c.Holds cs) {heads : List (Option Ref)} (hh : c.heads = some heads) {r : Ref} (hr : r ∉ cs) :
    ∃ p prev, heads[r &&& c.headMask]? = some p ∧
      walk c.hashNext (fun candidate => some (candidate == r)) (c.count + 1) none p = some (prev, none) := by
  obtain ⟨p, ds, hp, hd, hds⟩ := h.head hh r
  have hlen := h.chain_length_le hd fun d hd => ((hds d).1 hd).1
  refine ⟨p, _, hp, walk_missed ds (c.count + 1) none p hd (by omega) fun d hdx => ?_⟩
  rw [beq_eq_false_iff_ne.2]
  rintro rfl
  exact hr ((hds d).1 hdx).1

/-- **`get` finds exactly what is held.** -/
theorem get_eq (h : c.Holds cs) (r : Ref) : c.get r = some (if r ∈ cs then some r else none) := by
  unfold get
  cases hh : c.heads with
  | none => rw [(h.absent hh).1]; rfl
  | some heads =>
    by_cases hr : r ∈ cs
    · obtain ⟨p, xs, ys, hp, -, hw⟩ := walk_eq h hh hr
      simp only [hp, hw, Option.bind_eq_bind, Option.bind_some, if_pos hr, Option.pure_def]
    · obtain ⟨p, prev, hp, hw⟩ := walk_eq_none h hh hr
      simp only [hp, hw, Option.bind_eq_bind, Option.bind_some, if_neg hr, Option.pure_def]

/-! ## Growing -/

/-- Writing the field of a cell that is on none of some chains leaves them alone. -/
theorem chains_update {f : LinkField Ref} {d : Ref} {v : Option Ref} : ∀ {ps : List (Option Ref)}
    {css : List (List Ref)}, (∀ cs ∈ css, d ∉ cs) → List.Forall₂ (Chain f) ps css →
    List.Forall₂ (Chain (Function.update f d v)) ps css
  | _, _, _, .nil => .nil
  | _, cs :: _, h, .cons hp hps =>
    .cons ((trail_update (h cs List.mem_cons_self)).2 hp) (chains_update (fun ds hds => h ds (List.mem_cons_of_mem _ hds)) hps)

/-- What the new buckets hold while the old chains `css` are still to be moved. -/
structure Moving (mask : Nat) (st : List (Option Ref) × LinkField Ref) (ps : List (Option Ref)) (done : List Ref)
    (css : List (List Ref)) : Prop where
  length : st.1.length = mask + 1
  buckets : Buckets st.2 (· &&& mask) st.1 done
  rest : List.Forall₂ (Chain st.2) ps css
  nodup : (done ++ css.flatten).Nodup

theorem rehashChain_some {mask : Nat} : ∀ (ds : List Ref) (n : Nat) (st : List (Option Ref) × LinkField Ref)
    (p : Option Ref) (ps : List (Option Ref)) (done : List Ref) (css : List (List Ref)), ds.length < n →
    Moving mask st (p :: ps) done (ds :: css) →
    ∃ st' done', rehashChain mask n st p = some st' ∧ Moving mask st' ps done' css ∧ ∀ d, d ∈ done' ↔ d ∈ done ∨ d ∈ ds
  | [], n + 1, st, p, ps, done, css, _, h => by
    obtain ⟨hp, hrest⟩ := List.forall₂_cons.1 h.rest
    cases hp
    exact ⟨st, done, rfl, ⟨h.length, h.buckets, hrest, by simpa using h.nodup⟩, by simp⟩
  | d :: ds, n + 1, (heads, hashNext), p, ps, done, css, hn, h => by
    obtain ⟨⟨rfl, hd⟩, hrest⟩ := List.forall₂_cons.1 h.rest
    have hlt : d &&& mask < heads.length := by rw [h.length]; exact and_mask_lt d mask
    have hnd := h.nodup
    rw [List.flatten_cons, List.cons_append, List.nodup_middle, List.nodup_cons] at hnd
    have hout : d ∉ done ∧ d ∉ ds ∧ ∀ cs ∈ css, d ∉ cs := by
      have := hnd.1
      simp only [List.mem_append, List.mem_flatten, not_or, not_exists, not_and] at this
      exact ⟨this.1, this.2.1, fun cs hcs => this.2.2 cs hcs⟩
    have hmove : Moving mask (heads.set (d &&& mask) (some d), Function.update hashNext d heads[d &&& mask])
        (hashNext d :: ps) (d :: done) (ds :: css) := by
      refine ⟨by rw [List.length_set]; exact h.length, ?_, ?_, ?_⟩
      · exact h.buckets.push hout.1 (List.getElem?_eq_getElem hlt)
      · refine List.Forall₂.cons ((trail_update hout.2.1).2 hd) ?_
        exact chains_update hout.2.2 hrest
      · rw [List.flatten_cons, List.cons_append, List.nodup_cons]
        exact hnd
    obtain ⟨st', done', hst, hm, hmem⟩ := rehashChain_some ds n _ (hashNext d) ps (d :: done) css
      (by simpa using hn) hmove
    refine ⟨st', done', ?_, hm, fun e => ?_⟩
    · simp only [rehashChain, List.getElem?_eq_getElem hlt, Option.bind_eq_bind, Option.bind_some, hst]
    · rw [hmem, List.mem_cons, List.mem_cons]
      grind

theorem rehash_some {mask n : Nat} : ∀ (ps : List (Option Ref)) (css : List (List Ref))
    (st : List (Option Ref) × LinkField Ref) (done : List Ref), (∀ ds ∈ css, ds.length < n) → Moving mask st ps done css →
    ∃ st' done', ps.foldlM (rehashChain mask n) st = some st' ∧ Moving mask st' [] done' [] ∧
      ∀ d, d ∈ done' ↔ d ∈ done ∨ d ∈ css.flatten
  | [], css, st, done, _, h => by
    obtain rfl : css = [] := by cases h.rest; rfl
    exact ⟨st, done, rfl, h, by simp⟩
  | p :: ps, [], st, done, _, h => by cases h.rest
  | p :: ps, ds :: css, st, done, hn, h => by
    obtain ⟨st1, done1, h1, hm1, hmem1⟩ := rehashChain_some ds n st p ps done css (hn ds List.mem_cons_self) h
    obtain ⟨st2, done2, h2, hm2, hmem2⟩ := rehash_some ps css st1 done1 (fun e he => hn e (List.mem_cons_of_mem _ he)) hm1
    refine ⟨st2, done2, by rw [List.foldlM_cons, h1]; exact h2, hm2, fun d => ?_⟩
    rw [hmem2, hmem1, List.flatten_cons, List.mem_append]
    grind

theorem Holds.all_chains (h : c.Holds cs) {heads : List (Option Ref)} (hh : c.heads = some heads) :
    ∃ css, List.Forall₂ (Chain c.hashNext) heads css ∧ css.flatten.Nodup ∧ (∀ d, d ∈ css.flatten ↔ d ∈ cs) ∧
      ∀ ds ∈ css, ds.length ≤ c.count := by
  have hb := h.buckets heads hh
  -- from any slot on, the chains that are left hold what belongs to these slots
  have hsuffix : ∀ (n : Nat) (ps : List (Option Ref)), ps = heads.drop n → ∃ css, List.Forall₂ (Chain c.hashNext) ps css ∧
      css.flatten.Nodup ∧ (∀ d, d ∈ css.flatten ↔ d ∈ cs ∧ n ≤ d &&& c.headMask) ∧ ∀ ds ∈ css, ds.length ≤ c.count := by
    intro n ps hps
    induction ps generalizing n with
    | nil =>
      have hle : heads.length ≤ n := List.drop_eq_nil_iff.1 hps.symm
      refine ⟨[], .nil, by simp, fun d => ?_, by simp⟩
      simp only [List.flatten_nil, List.not_mem_nil, false_iff, not_and, not_le]
      exact fun hd => Nat.lt_of_lt_of_le (hb.inside d hd) hle
    | cons p ps ih =>
      have hn : heads[n]? = some p := by
        rw [← List.head?_drop, ← hps]
        rfl
      obtain ⟨ds, hd, hds⟩ := hb.chains n p hn
      obtain ⟨css, hcss, hnd, hmem, hlen⟩ := ih (n + 1) (by rw [← List.tail_drop, ← hps]; rfl)
      refine ⟨ds :: css, .cons hd hcss, ?_, fun e => ?_, fun e he => ?_⟩
      · rw [List.flatten_cons, List.nodup_append]
        refine ⟨chain_nodup hd, hnd, fun e he e' he' => ?_⟩
        rintro rfl
        have h1 := ((hds e).1 he).2
        have h2 := ((hmem e).1 he').2
        omega
      · rw [List.flatten_cons, List.mem_append, hds, hmem]
        constructor
        · rintro (⟨he, hs⟩ | ⟨he, hs⟩)
          · exact ⟨he, by omega⟩
          · exact ⟨he, by omega⟩
        · rintro ⟨he, hs⟩
          rcases Nat.eq_or_lt_of_le hs with hs | hs
          · exact Or.inl ⟨he, hs.symm⟩
          · exact Or.inr ⟨he, hs⟩
      · rcases List.mem_cons.1 he with rfl | he
        · exact h.chain_length_le hd fun d hd => ((hds d).1 hd).1
        · exact hlen e he
  obtain ⟨css, hcss, hnd, hmem, hlen⟩ := hsuffix 0 heads rfl
  exact ⟨css, hcss, hnd, fun d => by simpa using hmem d, hlen⟩

structure Grew (c c' : FreeCandidateValues) : Prop where
  heads : c'.heads.isSome
  count : c'.count = c.count
  mask : c' = c ∨ c.headMask < c'.headMask ∧ (c'.headMask ≤ 2 * c.count + 1 ∨ c'.headMask ≤ 31)

/-- **Growing keeps what is held.** -/
theorem grow_some (h : c.Holds cs) : ∃ c', c.grow = some c' ∧ c'.Holds cs ∧ Grew c c' := by
  unfold grow
  split
  · rename_i hge
    have hsize : 0 < c.newSize ∧ c.headMask < c.newSize - 1 ∧ (c.newSize - 1 ≤ 2 * c.count + 1 ∨ c.newSize - 1 ≤ 31) := by
      simp only [hashGrowShift, Nat.shiftRight_zero, ge_iff_le] at hge
      unfold newSize
      cases hh : c.heads with
      | none =>
        have := (h.absent hh).2
        simp only [Option.isSome_none, Bool.false_eq_true, if_false]
        omega
      | some heads =>
        simp only [Option.isSome_some, if_true]
        omega
    have hmoving : ∃ css, Moving (c.newSize - 1) (List.replicate c.newSize none, c.hashNext) (c.heads.getD []) [] css ∧
        (∀ d, d ∈ css.flatten ↔ d ∈ cs) ∧ ∀ ds ∈ css, ds.length < c.count + 1 := by
      have hlen : (List.replicate c.newSize (none : Option Ref)).length = c.newSize - 1 + 1 := by
        rw [List.length_replicate]
        omega
      cases hh : c.heads with
      | none =>
        refine ⟨[], ⟨hlen, Buckets.empty _ _ _, .nil, by simp⟩, ?_, by simp⟩
        rw [(h.absent hh).1]
        simp
      | some heads =>
        obtain ⟨css, hcss, hnd, hmem, hle⟩ := h.all_chains hh
        exact ⟨css, ⟨hlen, Buckets.empty _ _ _, hcss, by simpa using hnd⟩, hmem, fun ds hds => Nat.lt_succ_of_le (hle ds hds)⟩
    obtain ⟨css, hm, hmem, hle⟩ := hmoving
    obtain ⟨⟨heads, hashNext⟩, done, hst, hmv, hdone⟩ := rehash_some _ _ _ _ hle hm
    refine ⟨{ c with heads := some heads, headMask := c.newSize - 1, hashNext := hashNext }, ?_, ?_, ?_⟩
    · simp only [hst, Option.bind_eq_bind, Option.bind_some, Option.pure_def]
    · refine ⟨fun h => by simp at h, fun hs he => ?_, fun hs he => ?_, h.nodup, h.count⟩
      · obtain rfl := Option.some.inj he
        exact hmv.length
      · obtain rfl := Option.some.inj he
        exact hmv.buckets.congr (fun d => by rw [hdone, hmem]; simp) (fun _ _ => rfl) fun _ _ => rfl
    · exact ⟨rfl, rfl, Or.inr ⟨hsize.2.1, hsize.2.2⟩⟩
  · rename_i hlt
    refine ⟨c, rfl, h, ?_, rfl, Or.inl rfl⟩
    simp only [hashGrowShift, Nat.shiftRight_zero, ge_iff_le, not_le] at hlt
    cases hh : c.heads with
    | none =>
      have := (h.absent hh).2
      omega
    | some heads => rfl

theorem Grew.grown {c' : FreeCandidateValues} (h : Grew c c') : Grown c c' := by
  rcases h.mask with rfl | ⟨hlt, -⟩
  · exact Grown.refl _
  · exact ⟨Nat.le_of_lt hlt, fun heq => by omega⟩

/-! ## Registering -/

theorem push_some (h : c.Holds cs) (hh : c.heads.isSome) {r : Ref} (hr : r ∉ cs) :
    ∃ c', c.push r = some c' ∧ c'.Holds (r :: cs) ∧ Grown c c' ∧ c'.count = c.count + 1 ∧ c'.headMask = c.headMask ∧
      c'.heads.isSome := by
  obtain ⟨heads, hh⟩ := Option.isSome_iff_exists.1 hh
  obtain ⟨p, ds, hp, hd, hds⟩ := h.head hh r
  refine ⟨{ c with
      hashNext := Function.update c.hashNext r p
      heads := some (heads.set (r &&& c.headMask) (some r))
      count := c.count + 1 }, ?_, ⟨?_, ?_, ?_, ?_, ?_⟩, ⟨Nat.le_refl _, fun _ i es he => ?_⟩, rfl, rfl, rfl⟩
  · simp only [push, hh, hp, Option.bind_eq_bind, Option.bind_some, Option.pure_def]
  · simp
  · rintro hs hhs
    obtain rfl := Option.some.inj hhs
    rw [List.length_set]
    exact h.length heads hh
  · rintro hs hhs
    obtain rfl := Option.some.inj hhs
    exact (h.buckets heads hh).push hr hp
  · exact List.nodup_cons.2 ⟨hr, h.nodup⟩
  · simpa using h.count
  · obtain ⟨hs, q, hhs, hq, hes⟩ := he
    obtain rfl : heads = hs := Option.some.inj (hh.symm.trans hhs)
    have hmem : r ∉ es := by
      obtain ⟨fs, hf, hfs⟩ := (h.buckets heads hh).chains i q hq
      rw [chain_unique hes hf]
      exact fun hmem => hr ((hfs r).1 hmem).1
    by_cases hi : r &&& c.headMask = i
    · subst hi
      obtain rfl : p = q := Option.some.inj (hp.symm.trans hq)
      have hlt := (List.getElem?_eq_some_iff.1 hp).1
      exact ⟨[r], _, some r, rfl, List.getElem?_set_self hlt, trail_push hmem hes⟩
    · exact ⟨[], _, q, rfl, by rw [List.getElem?_set_ne hi]; exact hq, (trail_update hmem).2 hes⟩

structure Registered (c c' : FreeCandidateValues) (cs : List Ref) (r : Ref) : Prop where
  holds : c'.Holds (r :: cs)
  grown : Grown c c'
  count : c'.count = c.count + 1
  bound : c'.headMask ≤ max c.headMask (max (2 * c.count + 1) 31)

theorem register_some (h : c.Holds cs) {r : Ref} (hr : r ∉ cs) :
    ∃ c1 c', c.grow = some c1 ∧ c1.push r = some c' ∧ Registered c c' cs r := by
  obtain ⟨c1, h1, hc1, hg⟩ := grow_some h
  obtain ⟨c', h2, hc', hgr, hcount, hmask, -⟩ := push_some hc1 hg.heads hr
  refine ⟨c1, c', h1, h2, hc', hg.grown.trans hgr, by rw [hcount, hg.count], ?_⟩
  rw [hmask]
  rcases hg.mask with rfl | ⟨-, hle | hle⟩ <;> omega

/-! ## Unlinking -/

theorem cells_subset (h : c.Holds cs) {i : Nat} {ds : List Ref} (hd : c.ChainAt i ds) :
    ∀ d, d ∈ ds ↔ d ∈ cs ∧ d &&& c.headMask = i := by
  obtain ⟨heads, p, hh, hp, hds⟩ := hd
  obtain ⟨es, he, hes⟩ := (h.buckets heads hh).chains i p hp
  rw [chain_unique hds he]
  exact hes

/-- What unlinking `r` does when it has the predecessor the loop knows of, the last of `xs`, and `pre` was pushed in front
of the chain since.  Without a predecessor, `pre` is lost. -/
structure Unlinked (c c' : FreeCandidateValues) (cs : List Ref) (i : Nat) (pre xs ys : List Ref) (r : Ref) : Prop where
  holds : c'.Holds (cs.filter fun d => d ≠ r ∧ (xs = [] → d ∉ pre))
  chain : ∃ pre', c'.ChainAt i (pre' ++ (xs ++ ys)) ∧ (pre = [] → pre' = [])
  count : c'.count = c.count - 1
  mask : c'.headMask = c.headMask

theorem mem_filter_unlinked {pre xs : List Ref} {r d : Ref} :
    d ∈ cs.filter (fun d => d ≠ r ∧ (xs = [] → d ∉ pre)) ↔ d ∈ cs ∧ d ≠ r ∧ (xs = [] → d ∉ pre) := by
  rw [List.mem_filter, decide_eq_true_eq]

theorem length_unlinked_le {pre xs : List Ref} {r : Ref} (h : c.Holds cs) (hr : r ∈ cs) :
    (cs.filter fun d => d ≠ r ∧ (xs = [] → d ∉ pre)).length ≤ c.count - 1 := by
  have hlt : (cs.filter fun d => d ≠ r ∧ (xs = [] → d ∉ pre)).length < cs.length :=
    List.length_filter_lt_length_iff_exists.2 ⟨r, hr, by simp⟩
  have := h.count
  omega

theorem unlink_some (h : c.Holds cs) {i : Nat} {pre xs ys : List Ref} {r : Ref}
    (hd : c.ChainAt i (pre ++ (xs ++ r :: ys))) :
    ∃ c', c.unlink i xs.getLast? r = some c' ∧ Unlinked c c' cs i pre xs ys r := by
  have hcells := cells_subset h hd
  obtain ⟨hr, hslot⟩ := (hcells r).1 (by simp)
  obtain ⟨heads, p, hh, hp, hds⟩ := hd
  have hb := h.buckets heads hh
  have hmemcs : ∀ d, d ∈ cs.filter (fun d => d ≠ r ∧ (xs = [] → d ∉ pre)) ↔ d ∈ cs ∧ d ≠ r ∧ (xs = [] → d ∉ pre) :=
    fun d => mem_filter_unlinked
  have hnd : (cs.filter fun d => d ≠ r ∧ (xs = [] → d ∉ pre)).Nodup := h.nodup.filter _
  have hndc := chain_nodup hds
  rcases List.eq_nil_or_concat xs with rfl | ⟨zs, b, rfl⟩
  · -- the head of the chain becomes what comes after `r`
    obtain ⟨m, -, rfl, hys⟩ := (trail_append _ _ _ _ _).1 hds
    have hrys : r ∉ ys := by
      have := (List.nodup_append.1 hndc).2.1
      rw [List.nil_append, List.nodup_cons] at this
      exact this.1
    refine ⟨{ c with
        heads := some (heads.set i (c.hashNext r))
        hashNext := Function.update c.hashNext r none
        count := c.count - 1 }, ?_, ⟨⟨by simp, ?_, ?_, hnd, length_unlinked_le h hr⟩, ⟨[], ?_, fun _ => rfl⟩, rfl, rfl⟩⟩
    · simp only [unlink, List.getLast?_nil, hh, Option.bind_eq_bind, Option.bind_some, Option.pure_def]
    · rintro hs hhs
      obtain rfl := Option.some.inj hhs
      rw [List.length_set]
      exact h.length heads hh
    · rintro hs hhs
      obtain rfl := Option.some.inj hhs
      have hdrop : Buckets c.hashNext (· &&& c.headMask) (heads.set i (c.hashNext r))
          (cs.filter fun d => d ≠ r ∧ (([] : List Ref) = [] → d ∉ pre)) := by
        have hfront : Chain c.hashNext p ((pre ++ [r]) ++ ys) := by simpa using hds
        refine hb.drop hp hfront hys fun d => ?_
        rw [hmemcs]
        simp only [List.mem_append, List.mem_singleton, not_or, forall_const]
        grind
      refine hdrop.congr (fun _ => Iff.rfl) (fun d hd => ?_) fun _ _ => rfl
      exact (Function.update_of_ne ((hmemcs d).1 hd).2.1 _ _).symm
    · exact ⟨_, c.hashNext r, rfl, List.getElem?_set_self (List.getElem?_eq_some_iff.1 hp).1, (trail_update hrys).2 hys⟩
  · -- the predecessor skips `r`
    simp only [List.concat_eq_append] at hds hmemcs hnd ⊢
    have hds' : Chain c.hashNext p ((pre ++ zs ++ [b]) ++ r :: ys) := by simpa using hds
    have hlast : (pre ++ zs ++ [b]).getLast? = some b := by simp
    have hrest : Chain (Function.update c.hashNext b (c.hashNext r)) p (pre ++ zs ++ [b] ++ ys) := by
      have := chain_remove hds'
      rwa [hlast] at this
    have hrnot : r ∉ pre ++ zs ++ [b] ++ ys := by
      have := chain_nodup hds'
      rw [List.nodup_middle, List.nodup_cons] at this
      exact this.1
    refine ⟨{ c with
        hashNext := Function.update (Function.update c.hashNext b (c.hashNext r)) r none
        count := c.count - 1 }, ?_, ⟨⟨?_, h.length, ?_, hnd, length_unlinked_le h hr⟩, ⟨pre, ?_, id⟩, rfl, rfl⟩⟩
    · simp only [unlink, List.getLast?_append, List.getLast?_singleton, Option.some_or]
    · rw [hh]
      simp
    · rintro hs hhs
      obtain rfl : heads = hs := Option.some.inj (hh.symm.trans hhs)
      have hslot' : heads[r &&& c.headMask]? = some p := by rw [hslot]; exact hp
      have hmem : ∀ d, d ∈ cs.filter (fun d => d ≠ r ∧ (zs ++ [b] = [] → d ∉ pre)) ↔ d ∈ cs ∧ d ≠ r := by
        intro d
        rw [hmemcs]
        simp
      have hrem := hb.remove hslot' hds' hmem
      rw [hlast, hslot] at hrem
      have hset : heads.set i p = heads := by
        obtain ⟨hlt, hget⟩ := List.getElem?_eq_some_iff.1 hp
        rw [← hget]
        exact List.set_getElem_self hlt
      simp only [bypass, bypassHead, hset] at hrem
      refine hrem.congr (fun _ => Iff.rfl) (fun d hd => ?_) fun _ _ => rfl
      exact (Function.update_of_ne ((hmemcs d).1 hd).2.1 _ _).symm
    · refine ⟨heads, p, hh, hp, ?_⟩
      have hshape : pre ++ (zs ++ [b] ++ ys) = pre ++ zs ++ [b] ++ ys := by simp
      rw [hshape]
      exact (trail_update hrnot).2 hrest

/-- `unregister` takes out what is held. -/
theorem unregister_some (h : c.Holds cs) (hh : c.heads.isSome) (r : Ref) :
    ∃ c', c.unregister r = some c' ∧ c'.Holds (cs.filter (· ≠ r)) ∧ c'.heads.isSome ∧
      c'.count = c.count - (if r ∈ cs then 1 else 0) := by
  obtain ⟨heads, hh⟩ := Option.isSome_iff_exists.1 hh
  by_cases hr : r ∈ cs
  · obtain ⟨p, xs, ys, hp, hchain, hw⟩ := walk_eq h hh hr
    have hat : c.ChainAt (r &&& c.headMask) ([] ++ (xs ++ r :: ys)) := ⟨heads, p, hh, hp, hchain⟩
    obtain ⟨c', hc', hu⟩ := unlink_some h hat
    refine ⟨c', ?_, ?_, ?_, ?_⟩
    · simp only [unregister, hh, hp, hw, Option.bind_eq_bind, Option.bind_some, hc']
    · have := hu.holds
      simpa using this
    · obtain ⟨_, ⟨hs, _, hhs, _⟩, _⟩ := hu.chain
      rw [hhs]
      rfl
    · rw [hu.count, if_pos hr]
  · obtain ⟨p, prev, hp, hw⟩ := walk_eq_none h hh hr
    have hfilter : cs.filter (· ≠ r) = cs := by
      refine List.filter_eq_self.2 fun d hd => ?_
      rw [decide_eq_true_eq]
      rintro rfl
      exact hr hd
    refine ⟨c, ?_, hfilter.symm ▸ h, by rw [hh]; rfl, by rw [if_neg hr]; rfl⟩
    simp only [unregister, hh, hp, hw, Option.bind_eq_bind, Option.bind_some, Option.pure_def]

end FreeCandidateValues

end Gc
end ObjectScript
