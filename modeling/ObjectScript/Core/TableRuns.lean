import ObjectScript.Core.TableUnlink
import ObjectScript.Core.TableSort
/-!
# Runs of table operations

The tables of a `World` share one memory.  `Refines` says that each of them holds properties of its own and that these
are, in the order of its list, the entries of an insertion-ordered map, a list of pairs without equal keys.  Every
operation keeps that (`step_refines`), except that a deletion from a table without a bucket array has no result
(`step_missing`); a run refines the maps exactly when its deletions meet a bucket array.
-/
namespace ObjectScript
namespace Core

open Links Memory

variable {N σ : Type}

/-! ## copyTableProperties -/

theorem Touches.refl {m : Memory N} (hm : Bounded m) (cs : List Ref) : Touches m m cs cs :=
  ⟨fun _ _ _ => ⟨rfl, rfl, rfl, rfl⟩, Nat.le_refl _, hm, fun _ hc => Or.inl hc⟩

theorem Touches.trans {m m' m'' : Memory N} {cs cs' cs'' : List Ref} (h : Touches m m' cs cs')
    (h' : Touches m' m'' cs' cs'') : Touches m m'' cs cs'' := by
  refine ⟨fun c hc hcm => ?_, Nat.le_trans h.fresh h'.fresh, h'.bounded, fun c hc => ?_⟩
  · have h1 := h.same c hc hcm
    have hc' : c ∉ cs' := fun hmem => (h.cells c hmem).elim hc fun hle => Nat.lt_irrefl _ (Nat.lt_of_lt_of_le hcm hle)
    have h2 := h'.same c hc' (Nat.lt_of_lt_of_le hcm h.fresh)
    exact ⟨h2.prop.trans h1.prop, h2.hashNext.trans h1.hashNext, h2.prev.trans h1.prev, h2.next.trans h1.next⟩
  · rcases h'.cells c hc with hc | hc
    · exact h.cells c hc
    · exact Or.inr (Nat.le_trans h.fresh hc)

section

variable [Number N] [ValueHash N]

/-- The entries of a source are set one after the other. -/
def copyEntries (es src : List (Value N × Value N)) : List (Value N × Value N) :=
  src.foldl (fun es e => setEntry es e.1 e.2) es

variable [LawfulNumber N] [LawfulHash N]

theorem copyFrom_some : ∀ (cs : List Ref) (n : Nat) (m : Memory N) (dst : Table) (ds : List Ref) (cur : Option Ref),
    dst.Holds m ds → Bounded m → Chain m.next cur cs → (∀ c ∈ cs, (m.prop c).isSome) → (∀ c ∈ cs, c ∉ ds) →
    cs.length < n →
    ∃ m' dst' ds', copyFrom n m dst cur = some (m', dst') ∧ dst'.Holds m' ds' ∧ Touches m m' ds ds' ∧
      entries m' ds' = copyEntries (entries m ds) (entries m cs)
  | [], n + 1, m, dst, ds, _, h, hm, rfl, _, _, _ => ⟨m, dst, ds, rfl, h, Touches.refl hm ds, rfl⟩
  | c :: cs, n + 1, m, dst, ds, _, h, hm, ⟨rfl, hnext⟩, hlive, hout, hn => by
    obtain ⟨m1, dst1, prop, ds1, hset, h1, ht1, he1⟩ := setTableValue_some h hm (content m c).1 (content m c).2
    have hsame : ∀ d ∈ c :: cs, Same m m1 d := fun d hd => ht1.same d (hout d hd) (hm d (hlive d hd))
    have hcs : ∀ d ∈ cs, d ∈ c :: cs := fun d hd => List.mem_cons_of_mem _ hd
    have hnext1 : Chain m1.next (m1.next c) cs := by
      rw [(hsame c List.mem_cons_self).next]
      exact (trail_congr fun d hd => (hsame d (hcs d hd)).next.symm).1 hnext
    obtain ⟨m2, dst2, ds2, hcopy, h2, ht2, he2⟩ := copyFrom_some cs n m1 dst1 ds1 (m1.next c) h1 ht1.bounded hnext1
      (fun d hd => by rw [(hsame d (hcs d hd)).prop]; exact hlive d (hcs d hd))
      (fun d hd hmem => (ht1.cells d hmem).elim (hout d (hcs d hd)) fun hle =>
        Nat.lt_irrefl _ (Nat.lt_of_lt_of_le (hm d (hlive d (hcs d hd))) hle))
      (by simpa using hn)
    refine ⟨m2, dst2, ds2, ?_, h2, ht1.trans ht2, ?_⟩
    · simp only [copyFrom, prop_of_live (hlive c List.mem_cons_self), hset, Option.bind_eq_bind, Option.bind_some, hcopy]
    · rw [he2, he1, entries_congr fun d hd => (hsame d (hcs d hd)).prop]
      rfl

theorem setTableValue_self {m : Memory N} {table : Table} {cs : List Ref} (h : table.Holds m cs) (hm : Bounded m)
    {c : Ref} (hc : c ∈ cs) (hself : (content m c).1.equalExactly (content m c).1 = true) :
    setTableValue m table (content m c).1 (content m c).2 = some (m, table, c) := by
  have hfind : cs.find? (fun d => (content m c).1.equalExactly (content m d).1) = some c := by
    cases hf : cs.find? fun d => (content m c).1.equalExactly (content m d).1 with
    | none => exact absurd hself (by simpa using List.find?_eq_none.1 hf c hc)
    | some d =>
      have hid : (content m c).1.equalExactly (content m d).1 = true := by simpa using List.find?_some hf
      rw [eq_of_equalExactly h.keys (List.mem_of_find?_eq_some hf) hc hid hself]
  have hprop := prop_of_live (h.live c hc)
  have hset : m.setProp c (fun p => (p.1, (content m c).2)) = some m := by
    have hupdate : Function.update m.prop c (some (content m c)) = m.prop := by
      rw [← hprop, Function.update_eq_self]
    rw [setProp, hprop]
    exact congrArg some (congrArg (fun f => { m with prop := f }) hupdate)
  simp only [setTableValue, get_eq h hm, hfind, hset, Option.bind_eq_bind, Option.bind_some, Option.pure_def]

/-- A table is copied into itself: when every index equals itself, nothing changes. -/
theorem copyFrom_self {m : Memory N} {table : Table} {all : List Ref} (h : table.Holds m all) (hm : Bounded m)
    (hself : ∀ c ∈ all, (content m c).1.equalExactly (content m c).1 = true) : ∀ (cs : List Ref) (n : Nat)
    (cur : Option Ref), Chain m.next cur cs → (∀ c ∈ cs, c ∈ all) → cs.length < n →
    copyFrom n m table cur = some (m, table)
  | [], n + 1, _, rfl, _, _ => rfl
  | c :: cs, n + 1, _, ⟨rfl, hnext⟩, hall, hn => by
    have hc := hall c List.mem_cons_self
    have ih := copyFrom_self h hm hself cs n (m.next c) hnext (fun d hd => hall d (List.mem_cons_of_mem _ hd))
      (by simpa using hn)
    simp only [copyFrom, prop_of_live (h.live c hc), setTableValue_self h hm hc (hself c hc), Option.bind_eq_bind,
      Option.bind_some, ih]

omit [ValueHash N] [LawfulHash N] in
theorem setEntry_self {es : List (Value N × Value N)} (hd : DistinctKeys es) {e : Value N × Value N} (he : e ∈ es)
    (hself : e.1.equalExactly e.1 = true) : setEntry es e.1 e.2 = es := by
  rw [setEntry, if_pos (List.any_eq_true.2 ⟨e, he, hself⟩)]
  refine (List.map_congr_left (g := id) fun q hq => ?_).trans (List.map_id es)
  split
  · rename_i heq
    have : Std.Symm fun p q : Value N × Value N => p.1.equalExactly q.1 = false :=
      ⟨fun p q h => by rw [equalExactly_comm]; exact h⟩
    by_contra hne
    have hfalse := List.Pairwise.forall hd he hq (by rintro rfl; exact hne rfl)
    rw [heq] at hfalse
    cases hfalse
  · rfl

omit [ValueHash N] [LawfulHash N] in
theorem copyEntries_self {es : List (Value N × Value N)} (hd : DistinctKeys es) :
    ∀ src : List (Value N × Value N), (∀ e ∈ src, e ∈ es ∧ e.1.equalExactly e.1 = true) → copyEntries es src = es
  | [], _ => rfl
  | e :: src, h => by
    obtain ⟨he, hself⟩ := h e List.mem_cons_self
    rw [copyEntries, List.foldl_cons, setEntry_self hd he hself]
    exact copyEntries_self hd src fun q hq => h q (List.mem_cons_of_mem _ hq)

/-! ## Worlds -/

structure World (N : Type) where
  mem : Memory N
  tables : Nat → Table

def World.start : World N := { mem := Memory.empty, tables := fun _ => Table.new }

def World.put (w : World N) (t : Nat) (mem : Memory N) (table : Table) : World N :=
  { mem := mem, tables := Function.update w.tables t table }

inductive Op (N σ : Type) where
  | setTableValue (table : Nat) (index value : Value N)
  | addTableProperty (table : Nat) (index value : Value N)
  | deleteTableProperty (table : Nat) (index : Value N)
  | clearTable (table : Nat)
  | sortTable (table : Nat) (comp : Comparator σ (Value N × Value N)) (s : σ) (reorder : Bool)
  | copyTableProperties (dst src : Nat)

def step (w : World N) : Op N σ → Option (World N)
  | .setTableValue t index value =>
    (setTableValue w.mem (w.tables t) index value).map fun r => w.put t r.1 r.2.1
  | .addTableProperty t index value =>
    (addTableProperty w.mem (w.tables t) index value).map fun r => w.put t r.1 r.2.1
  | .deleteTableProperty t index =>
    (deleteTableProperty w.mem (w.tables t) index).map fun r => w.put t r.1 r.2.1
  | .clearTable t => (clearTable w.mem (w.tables t)).map fun r => w.put t r.1 r.2
  | .sortTable t comp s reorder => (sortTable w.mem (w.tables t) comp s reorder).map fun r => w.put t r.1 r.2.1
  | .copyTableProperties dst src =>
    (copyTableProperties w.mem (w.tables dst) (w.tables src)).map fun r => w.put dst r.1 r.2

def run : World N → List (Op N σ) → Option (World N)
  | w, [] => some w
  | w, op :: ops => (step w op).bind fun w => run w ops

/-! ## Maps -/

abbrev Maps (N : Type) := Nat → List (Value N × Value N)

def Maps.step (es : Maps N) : Op N σ → Option (Maps N)
  | .setTableValue t index value => some (Function.update es t (setEntry (es t) index value))
  | .addTableProperty t index value => some (Function.update es t (es t ++ [(index, value)]))
  | .deleteTableProperty t index => some (Function.update es t (deleteEntry (es t) index))
  | .clearTable t => some (Function.update es t [])
  | .sortTable t comp s reorder => (sortEntries comp s reorder (es t)).map fun l => Function.update es t l
  | .copyTableProperties dst src => some (Function.update es dst (copyEntries (es dst) (es src)))

def Maps.run : Maps N → List (Op N σ) → Option (Maps N)
  | es, [] => some es
  | es, op :: ops => (es.step op).bind fun es => Maps.run es ops

def lookup (es : List (Value N × Value N)) (index : Value N) : Option (Value N) :=
  (es.find? fun e => index.equalExactly e.1).map Prod.snd

/-- What the callers of the operations see to: a property is added under an absent index, a table that is sorted has
an `int` of properties, and a table that is copied into itself has no index that is not its own equal (NaN). -/
def Maps.Allows (es : Maps N) : Op N σ → Prop
  | .addTableProperty t index _ => ∀ e ∈ es t, index.equalExactly e.1 = false
  | .sortTable t _ _ _ => (es t).length ≤ 2 ^ 31
  | .copyTableProperties dst src => dst = src → ∀ e ∈ es src, e.1.equalExactly e.1 = true
  | _ => True

def Maps.AllowsAll : Maps N → List (Op N σ) → Prop
  | _, [] => True
  | es, op :: ops => es.Allows op ∧ ∀ es', es.step op = some es' → Maps.AllowsAll es' ops

/-! ## Refinement -/

/-- **The tables are the maps**: table `t` holds properties of its own, which are the entries of `es t` in order. -/
structure Refines (w : World N) (es : Maps N) (cells : Nat → List Ref) : Prop where
  holds : ∀ t, (w.tables t).Holds w.mem (cells t)
  entries_eq : ∀ t, entries w.mem (cells t) = es t
  disjoint : ∀ t u, t ≠ u → ∀ c ∈ cells t, c ∉ cells u
  bounded : Bounded w.mem

omit [LawfulNumber N] [LawfulHash N] in
theorem start_refines : Refines (World.start : World N) (fun _ => []) (fun _ => []) :=
  ⟨fun _ => Table.new_holds _, fun _ => rfl, fun _ _ _ => by simp, fun c hc => by cases hc⟩

omit [Number N] [ValueHash N] [LawfulNumber N] [LawfulHash N] in
theorem Touches.others {m m' : Memory N} {cells : Nat → List Ref} {cs' : List Ref} {t u : Nat} (ht : Touches m m' (cells t) cs')
    (hdisjoint : ∀ t u, t ≠ u → ∀ c ∈ cells t, c ∉ cells u) (hlt : ∀ u, ∀ c ∈ cells u, c < m.fresh) (hu : u ≠ t) :
    ∀ c ∈ cells u, Same m m' c :=
  fun c hc => ht.same c (hdisjoint u t hu c hc) (hlt u c hc)

omit [Number N] [ValueHash N] [LawfulNumber N] [LawfulHash N] in
theorem Touches.disjoint {m m' : Memory N} {cells : Nat → List Ref} {cs' : List Ref} {t : Nat} (ht : Touches m m' (cells t) cs')
    (hdisjoint : ∀ t u, t ≠ u → ∀ c ∈ cells t, c ∉ cells u) (hlt : ∀ u, ∀ c ∈ cells u, c < m.fresh) :
    ∀ u v, u ≠ v → ∀ c ∈ Function.update cells t cs' u, c ∉ Function.update cells t cs' v := by
  have hcell (u : Nat) (hu : u ≠ t) : ∀ c ∈ cs', c ∉ cells u := by
    intro c hc hcu
    rcases ht.cells c hc with hc | hc
    · exact hdisjoint u t hu c hcu hc
    · exact Nat.lt_irrefl _ (Nat.lt_of_lt_of_le (hlt u c hcu) hc)
  intro u v huv c hc
  by_cases hu : u = t
  · subst hu
    rw [Function.update_self] at hc
    rw [Function.update_of_ne (Ne.symm huv)]
    exact hcell v (Ne.symm huv) c hc
  · rw [Function.update_of_ne hu] at hc
    by_cases hv : v = t
    · subst hv
      rw [Function.update_self]
      exact fun hmem => hcell u hu c hmem hc
    · rw [Function.update_of_ne hv]
      exact hdisjoint u v huv c hc

omit [LawfulNumber N] [LawfulHash N] in
/-- One table is changed, the others are left as they were. -/
theorem Refines.put {w : World N} {es : Maps N} {cells : Nat → List Ref} (h : Refines w es cells) {t : Nat}
    {m' : Memory N} {table' : Table} {cs' : List Ref} {l : List (Value N × Value N)} (hholds : table'.Holds m' cs')
    (ht : Touches w.mem m' (cells t) cs') (he : entries m' cs' = l) :
    Refines (w.put t m' table') (Function.update es t l) (Function.update cells t cs') := by
  have hlt (u : Nat) : ∀ c ∈ cells u, c < w.mem.fresh := (h.holds u).lt_fresh h.bounded
  have hsame (u : Nat) (hu : u ≠ t) : ∀ c ∈ cells u, Same w.mem m' c := ht.others h.disjoint hlt hu
  refine ⟨fun u => ?_, fun u => ?_, ht.disjoint h.disjoint hlt, ht.bounded⟩
  · by_cases hu : u = t
    · subst hu
      simpa only [World.put, Function.update_self] using hholds
    · simpa only [World.put, Function.update_of_ne hu] using (h.holds u).frame (hsame u hu)
  · by_cases hu : u = t
    · subst hu
      simpa only [World.put, Function.update_self] using he
    · simp only [World.put, Function.update_of_ne hu]
      rw [entries_congr fun c hc => (hsame u hu c hc).prop, h.entries_eq]

def FindsBuckets (w : World N) : Op N σ → Prop
  | .deleteTableProperty t _ => (w.tables t).heads ≠ none
  | _ => True

/-- **One operation** does to the table what it does to the map. -/
theorem step_refines {w : World N} {es : Maps N} {cells : Nat → List Ref} (h : Refines w es cells) (op : Op N σ)
    (hallow : es.Allows op) (hbuckets : FindsBuckets w op) :
    ∃ w' es' cells', step w op = some w' ∧ es.step op = some es' ∧ Refines w' es' cells' := by
  cases op with
  | setTableValue t index value =>
    obtain ⟨m', table', prop, cs', he, hholds, ht, hentries⟩ := setTableValue_some (h.holds t) h.bounded index value
    refine ⟨_, _, _, by rw [step, he]; rfl, rfl, h.put hholds ht ?_⟩
    rw [hentries, h.entries_eq]
  | addTableProperty t index value =>
    have habsent : ∀ c ∈ cells t, index.equalExactly (content w.mem c).1 = false := fun c hc =>
      hallow _ (by rw [← h.entries_eq t]; exact List.mem_map_of_mem hc)
    obtain ⟨m', table', he, hholds, ht, hentries, -⟩ := addTableProperty_some (h.holds t) h.bounded value habsent
    refine ⟨_, _, _, by rw [step, he]; rfl, rfl, h.put hholds ht ?_⟩
    rw [hentries, h.entries_eq]
  | deleteTableProperty t index =>
    obtain ⟨m', table', found, cs', he, hholds, ht, hentries, -⟩ :=
      deleteTableProperty_some (h.holds t) h.bounded hbuckets index
    refine ⟨_, _, _, by rw [step, he]; rfl, rfl, h.put hholds ht ?_⟩
    rw [hentries, h.entries_eq]
  | clearTable t =>
    obtain ⟨m', he, hholds, ht⟩ := clearTable_some (h.holds t) h.bounded
    exact ⟨_, _, _, by rw [step, he]; rfl, rfl, h.put hholds ht rfl⟩
  | sortTable t comp s reorder =>
    have hint : (cells t).length ≤ 2 ^ 31 := by
      have hlen : (es t).length = (cells t).length := by rw [← h.entries_eq t, entries, List.length_map]
      rw [← hlen]
      exact hallow
    obtain ⟨m', table', s', cs', he, hholds, ht, hentries⟩ := sortTable_some (h.holds t) h.bounded comp s reorder hint
    rw [h.entries_eq] at hentries
    exact ⟨_, _, _, by rw [step, he]; rfl, by rw [Maps.step, hentries]; rfl, h.put hholds ht rfl⟩
  | copyTableProperties dst src =>
    by_cases hds : dst = src
    · subst hds
      have hself := hallow rfl
      have hcells : ∀ c ∈ cells dst, (content w.mem c).1.equalExactly (content w.mem c).1 = true := fun c hc =>
        hself _ (by rw [← h.entries_eq dst]; exact List.mem_map_of_mem hc)
      have hlen := length_le_fresh (h.holds dst).list.nodup ((h.holds dst).lt_fresh h.bounded)
      have he := copyFrom_self (h.holds dst) h.bounded hcells (cells dst) (w.mem.fresh + 1) _
        (h.holds dst).list.forward (fun _ hc => hc) (by omega)
      refine ⟨_, _, _, by rw [step, copyTableProperties, he]; rfl, rfl,
        h.put (h.holds dst) (Touches.refl h.bounded _) ?_⟩
      rw [h.entries_eq, copyEntries_self (h.entries_eq dst ▸ (h.holds dst).keys) _ fun e he => ⟨he, hself e he⟩]
    · have hlen := length_le_fresh (h.holds src).list.nodup ((h.holds src).lt_fresh h.bounded)
      obtain ⟨m', dst', ds', he, hholds, ht, hentries⟩ := copyFrom_some (cells src) (w.mem.fresh + 1) w.mem
        (w.tables dst) (cells dst) _ (h.holds dst) h.bounded (h.holds src).list.forward (h.holds src).live
        (h.disjoint src dst (Ne.symm hds)) (by omega)
      refine ⟨_, _, _, by rw [step, copyTableProperties, he]; rfl, rfl, h.put hholds ht ?_⟩
      rw [hentries, h.entries_eq, h.entries_eq]

/-- **`get` is the lookup of the map.** -/
theorem get_refines {w : World N} {es : Maps N} {cells : Nat → List Ref} (h : Refines w es cells) (t : Nat)
    (index : Value N) :
    ∃ found, get w.mem (w.tables t) index = some found ∧
      found.map (fun c => (content w.mem c).2) = lookup (es t) index := by
  refine ⟨_, get_eq (h.holds t) h.bounded index, ?_⟩
  rw [lookup, ← h.entries_eq t, entries, List.find?_map]
  simp only [Option.map_map]
  rfl

/-! ## Runs -/

def FindsBucketsAll : World N → List (Op N σ) → Prop
  | _, [] => True
  | w, op :: ops => FindsBuckets w op ∧ ∀ w', step w op = some w' → FindsBucketsAll w' ops

omit [LawfulNumber N] [LawfulHash N] in
theorem step_missing {w : World N} {op : Op N σ} (h : ¬ FindsBuckets w op) : step w op = none := by
  cases op with
  | deleteTableProperty t index =>
    have hh : (w.tables t).heads = none := by simpa [FindsBuckets] using h
    rw [step, deleteTableProperty_missing _ hh]
    rfl
  | _ => exact absurd trivial h

theorem run_refines : ∀ (ops : List (Op N σ)) (w : World N) (es : Maps N) (cells : Nat → List Ref),
    Refines w es cells → es.AllowsAll ops → FindsBucketsAll w ops →
    ∃ w' es' cells', run w ops = some w' ∧ es.run ops = some es' ∧ Refines w' es' cells'
  | [], w, es, cells, h, _, _ => ⟨w, es, cells, rfl, rfl, h⟩
  | op :: ops, w, es, cells, h, hallow, hbuckets => by
    obtain ⟨w1, es1, cells1, hs, hes, h1⟩ := step_refines h op hallow.1 hbuckets.1
    obtain ⟨w', es', cells', hr, her, h'⟩ := run_refines ops w1 es1 cells1 h1 (hallow.2 es1 hes) (hbuckets.2 w1 hs)
    exact ⟨w', es', cells', by rw [run, hs]; exact hr, by rw [Maps.run, hes]; exact her, h'⟩

omit [LawfulNumber N] [LawfulHash N] in
theorem findsBuckets_of_run : ∀ (ops : List (Op N σ)) (w w' : World N), run w ops = some w' → FindsBucketsAll w ops
  | [], _, _, _ => trivial
  | op :: ops, w, w', h => by
    by_cases hb : FindsBuckets w op
    · refine ⟨hb, fun w1 hs => ?_⟩
      rw [run, hs] at h
      exact findsBuckets_of_run ops w1 w' h
    · rw [run, step_missing hb] at h
      cases h

/-- **A table is an insertion-ordered map**, in every run whose deletions meet a bucket array and in no other: the
run has a result, every table holds the entries of its map, and `get` looks its map up. -/
theorem tables_refine_maps (ops : List (Op N σ)) (hallow : Maps.AllowsAll (fun _ => []) ops) :
    FindsBucketsAll (World.start : World N) ops ↔
      ∃ w es cells, run (World.start : World N) ops = some w ∧ Maps.run (fun _ => []) ops = some es ∧
        Refines w es cells ∧ ∀ t index, ∃ found, get w.mem (w.tables t) index = some found ∧
          found.map (fun c => (content w.mem c).2) = lookup (es t) index := by
  constructor
  · intro hbuckets
    obtain ⟨w, es, cells, hr, her, h⟩ := run_refines ops _ _ _ start_refines hallow hbuckets
    exact ⟨w, es, cells, hr, her, h, get_refines h⟩
  · rintro ⟨w, es, cells, hr, -⟩
    exact findsBuckets_of_run ops _ w hr

end

/-! ## Integers for numbers -/

/-- Null, booleans and addresses hash as the code hashes them. -/
instance : ValueHash Int where
  getValueHash
    | .null => 0
    | .bool b => b.toNat
    | .number x => x.natAbs
    | .gc _ a => a >>> 2

instance : LawfulHash Int where
  hash_eq {a b} h := by
    cases a <;> cases b <;> simp only [Value.equalExactly, Bool.false_eq_true, Number.equal, beq_iff_eq,
      Bool.and_eq_true] at h
    · rfl
    · rw [h]
    · rw [h]
    · rw [h.1, h.2]

/-- Two indexes are set, one is deleted, the table is copied and cleared. -/
theorem tables_refine_maps_copied :
    ∃ (w : World Int) (es : Maps Int) (cells : Nat → List Ref),
      run (World.start : World Int) ([.setTableValue 0 .null (.number 1), .setTableValue 0 (.bool true) (.number 2),
        .deleteTableProperty 0 .null, .copyTableProperties 1 0, .clearTable 0] : List (Op Int Unit)) = some w ∧
      Refines w es cells ∧ es 1 = [(.bool true, .number 2)] := by
  obtain ⟨w, es, cells, hr, her, h, -⟩ := (tables_refine_maps ([.setTableValue 0 .null (.number 1),
    .setTableValue 0 (.bool true) (.number 2), .deleteTableProperty 0 .null, .copyTableProperties 1 0, .clearTable 0] :
      List (Op Int Unit)) (by simp [Maps.AllowsAll, Maps.Allows])).1 (by
        refine ⟨trivial, fun w h => ⟨trivial, fun w' h' => ⟨?_, fun _ _ => ⟨trivial, fun _ _ => ⟨trivial, fun _ _ => trivial⟩⟩⟩⟩⟩
        cases h
        cases h'
        exact Option.some_ne_none _)
  refine ⟨w, es, cells, hr, h, ?_⟩
  cases her
  decide

/-- **A deletion from a new table reads a missing bucket array.** -/
theorem delete_from_new_table : ¬ ∀ ops : List (Op Int Unit), Maps.AllowsAll (fun _ => []) ops →
    ∃ w, run (World.start : World Int) ops = some w := by
  intro h
  obtain ⟨w, hw⟩ := h [.deleteTableProperty 0 .null] ⟨trivial, fun _ _ => trivial⟩
  cases hw

end Core
end ObjectScript
