import ObjectScript.Core.KeyHash
import ObjectScript.Core.TableRuns
/-!
# The next index

`next_index` is an `OS_INT` and the keys are doubles: it is compared with a key as a double, and is one more than the key
without its fraction.  As long as the keys are less than 2 to the 63 it stays greater than all of them, however it is rounded
(`bump_dominates`).  A value without a key goes to the double nearest to `next_index`; that is a new property unless the
rounding is downwards, from 2 to the 53 on, where it may meet the last key again (`push_overwrites`).
-/
namespace ObjectScript
namespace Core

open Links Memory Double

/-! ## Keys and next_index -/

/-- A key is less than 2 to the 63 as a number. -/
def KeyFits : Value Double → Prop
  | .number x => x.isNaN = false ∧ x.scaled < 2 ^ 63 * unit
  | _ => True

instance : ∀ index, Decidable (KeyFits index)
  | .number _ => inferInstanceAs (Decidable (_ ∧ _))
  | .null => .isTrue trivial
  | .bool _ => .isTrue trivial
  | .gc _ _ => .isTrue trivial

/-- A key is less than `n` as a number. -/
def KeyBelow (n : Int) : Value Double → Prop
  | .number x => x.isNaN = false ∧ x.scaled < n * unit
  | _ => True

/-- **`n` is greater than every number among the keys**; it is an `OS_INT`. -/
structure Dominates (n : Int) (es : List (Value Double × Value Double)) : Prop where
  nonneg : 0 ≤ n
  le_limit : n ≤ 2 ^ 63
  below : ∀ e ∈ es, KeyBelow n e.1

theorem KeyBelow.mono {n n' : Int} {index : Value Double} (h : KeyBelow n index)
    (hn : ∀ y : Double, y.scaled < n * unit → y.scaled < n' * unit) : KeyBelow n' index := by
  cases index with
  | number x => exact ⟨h.1, hn x h.2⟩
  | _ => trivial

/-- **Putting a number in keeps the next index above it**, and above what it was above. -/
theorem bump_number {n : Int} (h0 : 0 ≤ n) (hn : n ≤ 2 ^ 63) {x : Double} (hnan : x.isNaN = false)
    (hx : x.scaled < 2 ^ 63 * unit) :
    0 ≤ bumpNextIndex n (.number x) ∧ bumpNextIndex n (.number x) ≤ 2 ^ 63 ∧
      x.scaled < bumpNextIndex n (.number x) * unit ∧
      ∀ y : Double, y.scaled < n * unit → y.scaled < bumpNextIndex n (.number x) * unit := by
  have hunit : (0 : Int) < unit := Int.natCast_pos.2 unit_pos
  have hbump : bumpNextIndex n (.number x) = if (ofInt64 n).scaled ≤ x.scaled then Number.toInt x + 1 else n := by
    simp only [bumpNextIndex, Number.lessEqual, Number.ofInt, lessEqual, isNaN_ofInt64, hnan, Bool.not_false, Bool.true_and,
      decide_eq_true_eq]
  rw [hbump]
  by_cases hle : (ofInt64 n).scaled ≤ x.scaled
  · have hpos : 0 ≤ x.scaled := by
      rw [scaled_ofInt64, if_neg (by omega)] at hle
      omega
    have hdiv : x.scaled.tdiv unit = x.scaled / unit := Int.tdiv_eq_ediv_of_nonneg hpos
    have hlow : 0 ≤ x.scaled / unit := Int.ediv_nonneg hpos hunit.le
    have hhigh : x.scaled / unit < 2 ^ 63 := Int.ediv_lt_of_lt_mul hunit hx
    have htoInt : (Number.toInt x : Int) = x.scaled / unit := by
      have hrange : -2 ^ 63 ≤ x.scaled / unit ∧ x.scaled / unit < 2 ^ 63 := ⟨by omega, hhigh⟩
      simp only [Number.toInt, toInt64, hnan, hdiv, hrange, Bool.not_false, Bool.true_and, and_self, decide_true, if_true]
    have habove : x.scaled < (x.scaled / unit + 1) * unit := Int.lt_ediv_add_one_mul_self _ hunit
    rw [if_pos hle, htoInt]
    refine ⟨by omega, by omega, habove, fun y hy => ?_⟩
    have hround := le_ofInt64 (d := y) (by omega) hy.le
    exact (hround.trans hle).trans_lt habove
  · rw [if_neg hle]
    refine ⟨h0, hn, ?_, fun y hy => hy⟩
    by_contra hge
    exact hle (ofInt64_le (by omega) (Int.not_lt.1 hge))

theorem bump_dominates {n : Int} {es : List (Value Double × Value Double)} (h : Dominates n es) {index : Value Double}
    (hfits : KeyFits index) (value : Value Double) : Dominates (bumpNextIndex n index) (es ++ [(index, value)]) := by
  cases index with
  | number x =>
    obtain ⟨h0, hle, hself, hmono⟩ := bump_number h.nonneg h.le_limit hfits.1 hfits.2
    refine ⟨h0, hle, fun e he => ?_⟩
    rcases List.mem_append.1 he with he | he
    · exact (h.below e he).mono hmono
    · rw [List.mem_singleton.1 he]
      exact ⟨hfits.1, hself⟩
  | _ =>
    refine ⟨h.nonneg, h.le_limit, fun e he => ?_⟩
    rcases List.mem_append.1 he with he | he
    · exact h.below e he
    · rw [List.mem_singleton.1 he]
      trivial

theorem Dominates.mono {n : Int} {es es' : List (Value Double × Value Double)} (h : Dominates n es)
    (hsub : ∀ e ∈ es', ∃ q ∈ es, q.1 = e.1) : Dominates n es' := by
  refine ⟨h.nonneg, h.le_limit, fun e he => ?_⟩
  obtain ⟨q, hq, hkey⟩ := hsub e he
  rw [← hkey]
  exact h.below q hq

theorem empty_dominates (m : Memory Double) : Dominates 0 (entries m []) := ⟨Int.le_refl 0, by decide, by simp [entries]⟩

theorem reindex_dominates (es : List (Value Double × Value Double)) (h : es.length < 2 ^ 31) :
    Dominates es.length (reindex 0 es) := by
  refine ⟨by omega, by omega, fun e he => ?_⟩
  obtain ⟨j, -, hj, hkey⟩ := mem_reindex he
  rw [hkey]
  refine ⟨isNaN_ofInt64 j, ?_⟩
  rw [Number.ofInt]
  change (ofInt64 j).scaled < _
  rw [scaled_ofInt64_small (by omega)]
  exact Int.mul_lt_mul_of_pos_right (by omega) (Int.natCast_pos.2 unit_pos)

variable {σ : Type} [StringHash]

/-! ## Tables -/

/-- `Object.push`, `OS::addProperty`: the value is set under `Value(next_index)`. -/
def pushProperty (m : Memory Double) (table : Table) (value : Value Double) : Option (Memory Double × Table × Ref) :=
  setTableValue m table (.number (ofInt64 table.nextIndex)) value

/-- `next_index` is no greater as a double, and that is less than 2 to the 63. -/
def PushFits (table : Table) : Prop :=
  table.nextIndex * unit ≤ (ofInt64 table.nextIndex).scaled ∧ KeyFits (.number (ofInt64 table.nextIndex))

instance (table : Table) : Decidable (PushFits table) := inferInstanceAs (Decidable (_ ∧ _))

/-- A new property is made, and the others are as they were. -/
def PushCreates (m : Memory Double) (table : Table) (cs : List Ref) (value : Value Double) : Prop :=
  ∃ m' table', pushProperty m table value = some (m', table', m.fresh) ∧ table'.Linked m' (cs ++ [m.fresh]) ∧
    entries m' (cs ++ [m.fresh]) = entries m cs ++ [(.number (ofInt64 table.nextIndex), value)]

theorem setTableValue_dominates {m : Memory Double} {table : Table} {cs : List Ref} (h : table.Linked m cs) (hm : Bounded m)
    (hd : Dominates table.nextIndex (entries m cs)) {index : Value Double} (hfits : KeyFits index) (value : Value Double) :
    ∃ m' table' prop cs', setTableValue m table index value = some (m', table', prop) ∧ table'.Linked m' cs' ∧
      Touches m m' cs cs' ∧ Dominates table'.nextIndex (entries m' cs') := by
  obtain ⟨m', table', prop, cs', he, hlinked, ht, ⟨hprop, hic, rfl, rfl, hcontent⟩ | ⟨rfl, rfl, hentries, -, hnext, -⟩⟩ :=
    setTableValue_linked h hm index value
  · refine ⟨m', table', prop, cs', he, hlinked, ht, hd.mono fun e hemem => ?_⟩
    obtain ⟨c, hc, rfl⟩ := List.mem_map.1 hemem
    refine ⟨content m c, List.mem_map_of_mem hc, ?_⟩
    rw [hcontent]
    split
    · rename_i hcp
      rw [hcp]
    · rfl
  · refine ⟨m', table', m.fresh, _, he, hlinked, ht, ?_⟩
    rw [hnext, hentries]
    exact bump_dominates hd hfits value

/-- **A value without a key makes a new property**, as long as the next index is not rounded down. -/
theorem push_creates {m : Memory Double} {table : Table} {cs : List Ref} (h : table.Linked m cs) (hm : Bounded m)
    (hd : Dominates table.nextIndex (entries m cs)) (hfits : PushFits table) (value : Value Double) :
    PushCreates m table cs value := by
  obtain ⟨m', table', prop, cs', he, hlinked, -, ⟨hprop, hic, -⟩ | ⟨rfl, rfl, hentries, -⟩⟩ :=
    setTableValue_linked h hm (.number (ofInt64 table.nextIndex)) value
  · have hbelow := hd.below _ (List.mem_map_of_mem hprop)
    cases hkey : (content m prop).1 with
    | number x =>
      rw [hkey] at hic hbelow
      have hscaled : (ofInt64 table.nextIndex).scaled = x.scaled := by
        simp only [Value.equalExactly, Number.equal, Double.equal, Bool.and_eq_true, beq_iff_eq] at hic
        exact hic.2
      have := hfits.1.trans_lt (hscaled ▸ hbelow.2)
      exact absurd this (lt_irrefl _)
    | _ =>
      rw [hkey] at hic
      cases hic
  · exact ⟨m', table', he, hlinked, hentries⟩

theorem sortTable_dominates {m : Memory Double} {table : Table} {cs : List Ref} (h : table.Linked m cs) (hm : Bounded m)
    (hd : Dominates table.nextIndex (entries m cs)) (comp : Comparator σ (Value Double × Value Double)) (s : σ)
    (reorder : Bool) (hint : table.count < 2 ^ 31) :
    ∃ m' table' s' cs', sortTable m table comp s reorder = some (m', table', s') ∧ table'.Linked m' cs' ∧
      Touches m m' cs cs' ∧ Dominates table'.nextIndex (entries m' cs') := by
  have hcount := h.count
  by_cases hmany : table.count > 1
  · obtain ⟨m', table', s', cs', he, hlinked, ht, hperm, -, hentries, hnext, -⟩ := sortTable_linked h hm comp s reorder hmany
    refine ⟨m', table', s', cs', he, hlinked, ht, ?_⟩
    rw [hnext, hentries]
    cases reorder with
    | false => exact hd.mono fun e he => ⟨e, (entries_perm hperm).mem_iff.1 he, rfl⟩
    | true =>
      have hlen : (entries m cs').length = table.count := by rw [entries, List.length_map, hperm.length_eq, hcount]
      have hdom := reindex_dominates (entries m cs') (by omega)
      rw [hlen] at hdom
      exact hdom
  · exact ⟨m, table, s, cs, if_neg hmany, h, Touches.refl hm cs, hd⟩

theorem deleteTableProperty_dominates {m m' : Memory Double} {table table' : Table} {cs : List Ref} {found : Bool}
    (h : table.Linked m cs) (hm : Bounded m) (hd : Dominates table.nextIndex (entries m cs)) {index : Value Double}
    (he : deleteTableProperty m table index = some (m', table', found)) :
    ∃ cs', table'.Linked m' cs' ∧ Touches m m' cs cs' ∧ Dominates table'.nextIndex (entries m' cs') := by
  have hheads : table.heads ≠ none := fun hh => by
    rw [deleteTableProperty_missing m hh] at he
    cases he
  rcases deleteTableProperty_linked h hm hheads index with
    ⟨m1, table1, xs, c, ys, rfl, -, he', hlinked, ht, hprop, hnext, -⟩ | ⟨he', -⟩
  · obtain ⟨rfl, rfl⟩ : m1 = m' ∧ table1 = table' := by
      rw [he'] at he
      cases he
      exact ⟨rfl, rfl⟩
    refine ⟨xs ++ ys, hlinked, ht, ?_⟩
    rw [hnext]
    refine hd.mono fun e hemem => ?_
    obtain ⟨d, hdmem, rfl⟩ := List.mem_map.1 hemem
    have hnd := h.list.nodup
    rw [List.nodup_middle, List.nodup_cons] at hnd
    have hdc : d ≠ c := by
      rintro rfl
      exact hnd.1 hdmem
    refine ⟨content m d, List.mem_map_of_mem ?_, congrArg Prod.fst (content_congr ?_).symm⟩
    · simp only [List.mem_append, List.mem_cons] at hdmem ⊢
      grind
    · rw [hprop, Function.update_of_ne hdc]
  · obtain ⟨rfl, rfl⟩ : m = m' ∧ table = table' := by
      rw [he'] at he
      cases he
      exact ⟨rfl, rfl⟩
    exact ⟨cs, h, Touches.refl hm cs, hd⟩

/-! ## Runs -/

inductive IndexOp (σ : Type) where
  | setTableValue (table : Nat) (index value : Value Double)
  | deleteTableProperty (table : Nat) (index : Value Double)
  | clearTable (table : Nat)
  | sortTable (table : Nat) (comp : Comparator σ (Value Double × Value Double)) (s : σ) (reorder : Bool)
  | push (table : Nat) (value : Value Double)

def stepIndex (w : World Double) : IndexOp σ → Option (World Double)
  | .setTableValue t index value => (setTableValue w.mem (w.tables t) index value).map fun r => w.put t r.1 r.2.1
  | .deleteTableProperty t index => (deleteTableProperty w.mem (w.tables t) index).map fun r => w.put t r.1 r.2.1
  | .clearTable t => (clearTable w.mem (w.tables t)).map fun r => w.put t r.1 r.2
  | .sortTable t comp s reorder => (sortTable w.mem (w.tables t) comp s reorder).map fun r => w.put t r.1 r.2.1
  | .push t value => (pushProperty w.mem (w.tables t) value).map fun r => w.put t r.1 r.2.1

def runIndex : World Double → List (IndexOp σ) → Option (World Double)
  | w, [] => some w
  | w, op :: ops => (stepIndex w op).bind fun w => runIndex w ops

/-- A key put in is less than 2 to the 63, a pushed one not less than `next_index`, and the `count` of a table is an `int`. -/
def StepFits (w : World Double) : IndexOp σ → Prop
  | .setTableValue _ index _ => KeyFits index
  | .sortTable t _ _ _ => (w.tables t).count < 2 ^ 31
  | .push t _ => PushFits (w.tables t)
  | _ => True

def RunFits : World Double → List (IndexOp σ) → Prop
  | _, [] => True
  | w, op :: ops => StepFits w op ∧ ∀ w', stepIndex w op = some w' → RunFits w' ops

instance (w : World Double) : ∀ op : IndexOp σ, Decidable (StepFits w op)
  | .setTableValue _ index _ => inferInstanceAs (Decidable (KeyFits index))
  | .sortTable _ _ _ _ => inferInstanceAs (Decidable (_ < _))
  | .push t _ => inferInstanceAs (Decidable (PushFits (w.tables t)))
  | .deleteTableProperty _ _ => .isTrue trivial
  | .clearTable _ => .isTrue trivial

instance RunFits.decidable : ∀ (ops : List (IndexOp σ)) (w : World Double), Decidable (RunFits w ops)
  | [], _ => .isTrue trivial
  | op :: ops, w =>
    have (w' : World Double) := RunFits.decidable ops w'
    inferInstanceAs (Decidable (StepFits w op ∧ ∀ w' ∈ stepIndex w op, RunFits w' ops))

/-- **Every table links properties of its own**, and its next index is greater than their keys. -/
structure Indexed (w : World Double) (cells : Nat → List Ref) : Prop where
  linked : ∀ t, (w.tables t).Linked w.mem (cells t)
  disjoint : ∀ t u, t ≠ u → ∀ c ∈ cells t, c ∉ cells u
  bounded : Bounded w.mem
  dominates : ∀ t, Dominates (w.tables t).nextIndex (entries w.mem (cells t))

theorem start_indexed : Indexed (World.start : World Double) fun _ => [] :=
  { linked := fun _ => Table.new_linked _
    disjoint := fun _ _ _ => by simp
    bounded := fun c hc => by cases hc
    dominates := fun _ => empty_dominates _ }

/-- One table is changed, the others are left as they were. -/
theorem Indexed.put {w : World Double} {cells : Nat → List Ref} (h : Indexed w cells) {t : Nat} {m' : Memory Double}
    {table' : Table} {cs' : List Ref} (hlinked : table'.Linked m' cs') (ht : Touches w.mem m' (cells t) cs')
    (hd : Dominates table'.nextIndex (entries m' cs')) : Indexed (w.put t m' table') (Function.update cells t cs') := by
  have hlt (u : Nat) : ∀ c ∈ cells u, c < w.mem.fresh := (h.linked u).lt_fresh h.bounded
  have hsame (u : Nat) (hu : u ≠ t) : ∀ c ∈ cells u, Same w.mem m' c := ht.others h.disjoint hlt hu
  refine ⟨fun u => ?_, ht.disjoint h.disjoint hlt, ht.bounded, fun u => ?_⟩
  · by_cases hu : u = t
    · subst hu
      simpa only [World.put, Function.update_self] using hlinked
    · simpa only [World.put, Function.update_of_ne hu] using (h.linked u).frame (hsame u hu)
  · by_cases hu : u = t
    · subst hu
      simpa only [World.put, Function.update_self] using hd
    · simp only [World.put, Function.update_of_ne hu]
      rw [entries_congr fun c hc => (hsame u hu c hc).prop]
      exact h.dominates u

/-- **One operation** keeps the next indexes above the keys. -/
theorem stepIndex_indexed {w w' : World Double} {cells : Nat → List Ref} (h : Indexed w cells) {op : IndexOp σ}
    (hfits : StepFits w op) (hs : stepIndex w op = some w') : ∃ cells', Indexed w' cells' := by
  cases op with
  | setTableValue t index value =>
    obtain ⟨m', table', prop, cs', he, hlinked, ht, hd⟩ :=
      setTableValue_dominates (h.linked t) h.bounded (h.dominates t) hfits value
    rw [stepIndex, he] at hs
    cases hs
    exact ⟨_, h.put hlinked ht hd⟩
  | deleteTableProperty t index =>
    simp only [stepIndex, Option.map_eq_some_iff] at hs
    obtain ⟨⟨m', table', found⟩, he, rfl⟩ := hs
    obtain ⟨cs', hlinked, ht, hd⟩ := deleteTableProperty_dominates (h.linked t) h.bounded (h.dominates t) he
    exact ⟨_, h.put hlinked ht hd⟩
  | clearTable t =>
    obtain ⟨m', he, ht⟩ := clearTable_linked (h.linked t) h.bounded
    rw [stepIndex, he] at hs
    cases hs
    exact ⟨_, h.put (Table.new_linked m') ht (empty_dominates m')⟩
  | sortTable t comp s reorder =>
    obtain ⟨m', table', s', cs', he, hlinked, ht, hd⟩ :=
      sortTable_dominates (h.linked t) h.bounded (h.dominates t) comp s reorder hfits
    rw [stepIndex, he] at hs
    cases hs
    exact ⟨_, h.put hlinked ht hd⟩
  | push t value =>
    obtain ⟨m', table', prop, cs', he, hlinked, ht, hd⟩ :=
      setTableValue_dominates (h.linked t) h.bounded (h.dominates t) hfits.2 value
    rw [stepIndex, pushProperty, he] at hs
    cases hs
    exact ⟨_, h.put hlinked ht hd⟩

theorem runIndex_indexed : ∀ (ops : List (IndexOp σ)) {w w' : World Double} {cells : Nat → List Ref}, Indexed w cells →
    RunFits w ops → runIndex w ops = some w' → ∃ cells', Indexed w' cells'
  | [], _, _, cells, h, _, hr => by
    cases hr
    exact ⟨cells, h⟩
  | op :: ops, w, w', cells, h, hfits, hr => by
    simp only [runIndex, Option.bind_eq_some_iff] at hr
    obtain ⟨w1, hs, hr⟩ := hr
    obtain ⟨cells1, h1⟩ := stepIndex_indexed h hfits.1 hs
    exact runIndex_indexed ops h1 (hfits.2 w1 hs) hr

/-- **In every state of such a run** the next index of a table is greater than every number among its keys, and a value
pushed makes a new property, as long as the next index is not rounded down. -/
theorem next_index_dominates (ops : List (IndexOp σ)) {w : World Double} (hfits : RunFits World.start ops)
    (hr : runIndex World.start ops = some w) :
    ∃ cells, Indexed w cells ∧ ∀ t value, PushFits (w.tables t) → PushCreates w.mem (w.tables t) (cells t) value := by
  obtain ⟨cells, h⟩ := runIndex_indexed ops start_indexed hfits hr
  exact ⟨cells, h, fun t value hpush => push_creates (h.linked t) h.bounded (h.dominates t) hpush value⟩

/-- A table that gets the key 5, then values without a key, some of which are deleted again. -/
def pushing : List (IndexOp Unit) :=
  [.setTableValue 0 (.number (ofInt64 5)) .null, .push 0 (.bool true), .push 1 .null, .push 0 (.bool false),
    .deleteTableProperty 0 (.number (ofInt64 6)), .push 0 (.number (ofInt64 3)), .deleteTableProperty 0 (.number (ofInt64 8))]

omit [StringHash] in
theorem next_index_dominates_pushing : ∃ (_ : StringHash) (w : World Double) (cells : Nat → List Ref),
    runIndex World.start pushing = some w ∧ Indexed w cells ∧ (w.tables 0).count = 2 ∧ (w.tables 0).nextIndex = 9 := by
  let hash : StringHash := ⟨fun _ => 0⟩
  have hrun : (runIndex World.start pushing).map (fun w => ((w.tables 0).count, (w.tables 0).nextIndex)) = some (2, 9) := by
    decide +kernel
  obtain ⟨w, hr, hw⟩ := Option.map_eq_some_iff.1 hrun
  obtain ⟨hcount, hnext⟩ := Prod.mk.inj hw
  obtain ⟨cells, h, -⟩ := next_index_dominates pushing (by decide +kernel) hr
  exact ⟨hash, w, cells, hr, h, hcount, hnext⟩

omit [StringHash] in
/-- **The key after 2 to the 53 is 2 to the 53 again**: the second value is written over the first one. -/
theorem push_overwrites : ¬ ∀ [StringHash] (ops : List (IndexOp Unit)) (w w' : World Double) (t : Nat) (value : Value Double),
    runIndex World.start ops = some w → stepIndex w (.push t value : IndexOp Unit) = some w' →
      (w'.tables t).count = (w.tables t).count + 1 := by
  intro h
  let hash : StringHash := ⟨fun _ => 0⟩
  have hone : (runIndex World.start ([.setTableValue 0 (.number (ofInt64 (2 ^ 53))) .null] : List (IndexOp Unit))).map
      (fun w => ((w.tables 0).count, (stepIndex w (.push 0 (.bool true) : IndexOp Unit)).map fun w => (w.tables 0).count)) =
        some (1, some 1) := by decide +kernel
  obtain ⟨w, hr, hw⟩ := Option.map_eq_some_iff.1 hone
  obtain ⟨hcount, hpush⟩ := Prod.mk.inj hw
  obtain ⟨w', hs, hw'⟩ := Option.map_eq_some_iff.1 hpush
  have := h _ w w' 0 (.bool true) hr hs
  omega

end Core
end ObjectScript
