import ObjectScript.Core.Qsort
/-!
# Sorting as a program

`OS::qsort` sees the elements only through comparisons and exchanges: what it does next depends on the answers so far and on
nothing else.  So it is a program of these two steps (`Program`), which any machine may run, one whose comparisons change the
elements included.  On a list the program is `qsort` (`exec_qsort`).  Every place it names is an element (`qsort_inRange`),
so it is safe on a machine whose steps keep an invariant (`exec_safe`).
-/
namespace ObjectScript
namespace Core

/-- Comparisons and exchanges of elements; `stuck` is out of steps. -/
inductive Program where
  | done
  | stuck
  | compare (i j : Nat) (k : Int → Program)
  | swap (i j : Nat) (k : Program)

/-- What compares and exchanges two elements, with an effect on its state. -/
structure Machine (τ : Type) where
  compare : τ → Nat → Nat → Option (Int × τ)
  swap : τ → Nat → Nat → Option τ

namespace Program

variable {τ : Type}

def exec (machine : Machine τ) : Program → τ → Option τ
  | done, t => some t
  | stuck, _ => none
  | compare i j k, t => (machine.compare t i j).bind fun r => exec machine (k r.1) r.2
  | swap i j k, t => (machine.swap t i j).bind fun t => exec machine k t

/-- The program ends, and each place it names is one of `num` elements. -/
def InRange (num : Nat) : Program → Prop
  | done => True
  | stuck => False
  | compare i j k => i < num ∧ j < num ∧ ∀ c, InRange num (k c)
  | swap i j k => i < num ∧ j < num ∧ InRange num k

/-- Every comparison of the run leaves a state with `Kept`. -/
def Meets (machine : Machine τ) (Kept : τ → Prop) : Program → τ → Prop
  | done, _ => True
  | stuck, _ => True
  | compare i j k, t => ∀ c t', machine.compare t i j = some (c, t') → Kept t' ∧ Meets machine Kept (k c) t'
  | swap i j k, t => ∀ t', machine.swap t i j = some t' → Meets machine Kept k t'

/-- **A run is safe** when exchanges keep an invariant under which both steps have a result, and comparisons keep it
whenever they leave a state with `Kept`. -/
theorem exec_safe {machine : Machine τ} {Kept Safe : τ → Prop} {num : Nat}
    (hcompare : ∀ t i j, Safe t → i < num → j < num → ∃ c t', machine.compare t i j = some (c, t') ∧ (Kept t' → Safe t'))
    (hswap : ∀ t i j, Safe t → i < num → j < num → ∃ t', machine.swap t i j = some t' ∧ Safe t') :
    ∀ (p : Program) (t : τ), p.InRange num → p.Meets machine Kept t → Safe t → ∃ t', p.exec machine t = some t' ∧ Safe t'
  | done, t, _, _, h => ⟨t, rfl, h⟩
  | compare i j k, t, hin, hmeets, h => by
    obtain ⟨c, t1, hc, hsafe⟩ := hcompare t i j h hin.1 hin.2.1
    obtain ⟨hkept, hmeets⟩ := hmeets c t1 hc
    obtain ⟨t', he, h'⟩ := exec_safe hcompare hswap (k c) t1 (hin.2.2 c) hmeets (hsafe hkept)
    refine ⟨t', ?_, h'⟩
    rw [exec, hc]
    exact he
  | swap i j k, t, hin, hmeets, h => by
    obtain ⟨t1, hs, h1⟩ := hswap t i j h hin.1 hin.2.1
    obtain ⟨t', he, h'⟩ := exec_safe hcompare hswap k t1 hin.2.2 (hmeets t1 hs) h1
    refine ⟨t', ?_, h'⟩
    rw [exec, hs]
    exact he

/-! ## qsort -/

def shortsortMax : Nat → Nat → Nat → (Nat → Program) → Program
  | 0, max, _, k => k max
  | n + 1, max, p, k => compare p max fun c => shortsortMax n (if c > 0 then p else max) (p + 1) k

/-- `qsortShortsort` of the `n + 1` elements from `lo` on. -/
def qsortShortsort (lo : Nat) : Nat → Program → Program
  | 0, k => k
  | n + 1, k => shortsortMax (n + 1) lo (lo + 1) fun max => swap max (lo + n + 1) (qsortShortsort lo n k)

def scanUp (lo hi : Nat) : Nat → Nat → (Nat → Program) → Program
  | 0, _, _ => stuck
  | n + 1, l, k =>
    if l + 1 ≤ hi then compare (l + 1) lo fun c => if c ≤ 0 then scanUp lo hi n (l + 1) k else k (l + 1)
    else k (l + 1)

def scanDown (lo : Nat) : Nat → Nat → (Nat → Program) → Program
  | 0, _, _ => stuck
  | n + 1, h, k =>
    if h - 1 > lo then compare (h - 1) lo fun c => if c ≥ 0 then scanDown lo n (h - 1) k else k (h - 1)
    else k (h - 1)

def partitionLoop (lo hi : Nat) : Nat → Nat → Nat → (Nat → Nat → Program) → Program
  | 0, _, _, _ => stuck
  | n + 1, l, h, k =>
    scanUp lo hi (hi + 2) l fun l => scanDown lo (hi + 2) h fun h =>
      if h < l then k l h else swap l h (partitionLoop lo hi n l h k)

/-- The ranges still to sort after a partition: the next one, and the saved ones. -/
def sides (lo hi l h : Nat) (saved : List (Nat × Nat)) : Option (Nat × Nat) × List (Nat × Nat) :=
  if h + l > hi + lo then (if l < hi then some (l, hi) else none, if lo + 1 < h then (lo, h - 1) :: saved else saved)
  else (if lo + 1 < h then some (lo, h - 1) else none, if l < hi then (l, hi) :: saved else saved)

def qsortLoop : Nat → Nat × Nat → List (Nat × Nat) → Program
  | 0, _, _ => stuck
  | n + 1, (lo, hi), saved =>
    if hi - lo + 1 ≤ qsortCutoff then
      qsortShortsort lo (hi - lo)
        (match saved with
          | [] => done
          | range :: saved => qsortLoop n range saved)
    else
      swap (lo + (hi - lo + 1) / 2) lo (partitionLoop lo hi (hi + 2) lo (hi + 1) fun l h =>
        swap lo h
          (match sides lo hi l h saved with
            | (some range, saved) => qsortLoop n range saved
            | (none, range :: saved) => qsortLoop n range saved
            | (none, []) => done))

def qsort (num : Nat) : Program := if num < 2 then done else qsortLoop num (0, num - 1) []

/-! ## Places -/

section

variable {num : Nat}

theorem shortsortMax_inRange {k : Nat → Program} : ∀ (n max p : Nat), max < num → p + n ≤ num →
    (∀ m < num, (k m).InRange num) → (shortsortMax n max p k).InRange num
  | 0, max, _, hmax, _, hk => hk max hmax
  | n + 1, max, p, hmax, hp, hk => by
    refine ⟨by omega, hmax, fun c => shortsortMax_inRange n _ (p + 1) ?_ (by omega) hk⟩
    split <;> omega

theorem qsortShortsort_inRange (lo : Nat) {k : Program} (hk : k.InRange num) : ∀ n : Nat, lo + n < num →
    (qsortShortsort lo n k).InRange num
  | 0, _ => hk
  | n + 1, h => shortsortMax_inRange (n + 1) lo (lo + 1) (by omega) (by omega) fun m hm =>
    ⟨hm, by omega, qsortShortsort_inRange lo hk n (by omega)⟩

theorem scanUp_inRange {lo hi : Nat} {k : Nat → Program} (hlo : lo < num) (hhi : hi < num) : ∀ (n l : Nat), hi < l + n →
    l ≤ hi → (∀ l', l < l' → l' ≤ hi + 1 → (k l').InRange num) → (scanUp lo hi n l k).InRange num
  | 0, l, hn, hl, _ => by omega
  | n + 1, l, hn, hl, hk => by
    rw [scanUp]
    split
    · rename_i hle
      refine ⟨by omega, hlo, fun c => ?_⟩
      dsimp only
      split
      · exact scanUp_inRange hlo hhi n (l + 1) (by omega) hle fun l' h1 h2 => hk l' (by omega) h2
      · exact hk (l + 1) (by omega) (by omega)
    · exact hk (l + 1) (by omega) (by omega)

theorem scanDown_inRange {lo : Nat} {k : Nat → Program} (hlo : lo < num) : ∀ (n h : Nat), h ≤ n → lo < h → h ≤ num →
    (∀ h', lo ≤ h' → h' < h → (k h').InRange num) → (scanDown lo n h k).InRange num
  | 0, h, hn, hl, _, _ => by omega
  | n + 1, h, hn, hl, hh, hk => by
    rw [scanDown]
    split
    · rename_i hgt
      refine ⟨by omega, hlo, fun c => ?_⟩
      dsimp only
      split
      · exact scanDown_inRange hlo n (h - 1) (by omega) hgt (by omega) fun h' h1 h2 => hk h' h1 (by omega)
      · exact hk (h - 1) (by omega) (by omega)
    · exact hk (h - 1) (by omega) (by omega)

theorem partitionLoop_inRange {lo hi : Nat} {k : Nat → Nat → Program} (hhi : hi < num) : ∀ (n l h : Nat), lo ≤ l → l ≤ hi →
    l ≤ h → lo < h → h ≤ hi + 1 → h < l + n →
    (∀ l' h', h' < l' → lo ≤ h' → h' ≤ hi → lo < l' → l' ≤ hi + 1 → (k l' h').InRange num) →
    (partitionLoop lo hi n l h k).InRange num
  | 0, l, h, _, _, _, _, _, hn, _ => by omega
  | n + 1, l, h, hlo, hl, hlh, hh, hh', hn, hk => by
    rw [partitionLoop]
    refine scanUp_inRange (by omega) hhi (hi + 2) l (by omega) hl fun l1 h1 h2 => ?_
    refine scanDown_inRange (by omega) (hi + 2) h (by omega) hh (by omega) fun h1' h3 h4 => ?_
    split
    · rename_i hlt
      exact hk l1 h1' hlt h3 (by omega) (by omega) h2
    · exact ⟨by omega, by omega,
        partitionLoop_inRange hhi n l1 h1' (by omega) (by omega) (by omega) (by omega) (by omega) (by omega) hk⟩

theorem qsortLoop_inRange : ∀ (n : Nat) (range : Nat × Nat) (saved : List (Nat × Nat)), RangesIn num (range :: saved) →
    pendingSize (range :: saved) ≤ n → (qsortLoop n range saved).InRange num
  | 0, (lo, hi), saved, hin, hn => by
    have := (hin _ List.mem_cons_self).1
    simp only [pendingSize] at hn this
    omega
  | n + 1, (lo, hi), saved, hin, hn => by
    obtain ⟨hle, hlt⟩ := hin _ List.mem_cons_self
    have hsaved : RangesIn num saved := fun q hq => hin q (List.mem_cons_of_mem _ hq)
    simp only [pendingSize] at hn hle hlt
    have next (saved : List (Nat × Nat)) (hin : RangesIn num saved) (hn : pendingSize saved ≤ n) :
        (match saved with
          | [] => done
          | range :: saved => qsortLoop n range saved).InRange num := by
      cases saved with
      | nil => trivial
      | cons range saved => exact qsortLoop_inRange n range saved hin hn
    unfold qsortLoop
    split
    · exact qsortShortsort_inRange lo (next saved hsaved (by omega)) (hi - lo) (by omega)
    · refine ⟨by omega, by omega, partitionLoop_inRange hlt (hi + 2) lo (hi + 1) (Nat.le_refl _) hle (by omega) (by omega)
        (Nat.le_refl _) (by omega) fun l h h1 h2 h3 h4 h5 => ⟨by omega, by omega, ?_⟩⟩
      have cons {lo hi : Nat} {saved : List (Nat × Nat)} (h1 : lo ≤ hi) (h2 : hi < num) (h : RangesIn num saved) :
          RangesIn num ((lo, hi) :: saved) := by
        rintro q hq
        rcases List.mem_cons.1 hq with rfl | hq
        · exact ⟨h1, h2⟩
        · exact h q hq
      unfold sides
      by_cases hbig : h + l > hi + lo <;> by_cases hright : l < hi <;> by_cases hleft : lo + 1 < h <;>
        simp only [hbig, hright, hleft, if_true, if_false]
      · exact qsortLoop_inRange n _ _ (cons (by omega) hlt (cons (by omega) (by omega) hsaved)) (by simp only [pendingSize]; omega)
      · exact qsortLoop_inRange n _ _ (cons (by omega) hlt hsaved) (by simp only [pendingSize]; omega)
      · exact qsortLoop_inRange n _ _ (cons (by omega) (by omega) hsaved) (by simp only [pendingSize]; omega)
      · cases saved with
        | nil => trivial
        | cons range saved => exact qsortLoop_inRange n _ _ hsaved (by simp only [pendingSize] at hn ⊢; omega)
      · exact qsortLoop_inRange n _ _ (cons (by omega) (by omega) (cons (by omega) hlt hsaved)) (by simp only [pendingSize]; omega)
      · exact qsortLoop_inRange n _ _ (cons (by omega) hlt hsaved) (by simp only [pendingSize]; omega)
      · exact qsortLoop_inRange n _ _ (cons (by omega) (by omega) hsaved) (by simp only [pendingSize]; omega)
      · cases saved with
        | nil => trivial
        | cons range saved => exact qsortLoop_inRange n _ _ hsaved (by simp only [pendingSize] at hn ⊢; omega)

/-- **`qsort` ends, and compares and exchanges elements only**, whatever the answers are. -/
theorem qsort_inRange (num : Nat) : (qsort num).InRange num := by
  unfold qsort
  split
  · trivial
  · refine qsortLoop_inRange num (0, num - 1) [] ?_ (by simp only [pendingSize]; omega)
    rintro q hq
    obtain rfl := List.mem_singleton.1 hq
    exact ⟨by simp, by dsimp only; omega⟩

end

/-! ## On lists -/

section

variable {α σ : Type} (comp : Comparator σ α)

/-- A list, and a comparator that does not change it. -/
def listMachine : Machine (List α × σ) where
  compare t i j := (compareAt comp t.2 t.1 i j).map fun r => (r.1, (t.1, r.2))
  swap t i j := some (t.1.swap i j, t.2)

theorem exec_compare (a : List α) (s : σ) (i j : Nat) (k : Int → Program) :
    (compare i j k).exec (listMachine comp) (a, s) =
      (compareAt comp s a i j).bind fun r => (k r.1).exec (listMachine comp) (a, r.2) := by
  rw [exec, listMachine, Option.bind_map]
  rfl

theorem exec_shortsortMax (a : List α) (k : Nat → Program) : ∀ (n : Nat) (s : σ) (max p : Nat),
    (shortsortMax n max p k).exec (listMachine comp) (a, s) =
      (Core.shortsortMax comp a n s max p).bind fun r => (k r.1).exec (listMachine comp) (a, r.2)
  | 0, s, max, p => rfl
  | n + 1, s, max, p => by
    rw [shortsortMax, exec_compare, Core.shortsortMax, Option.bind_eq_bind, Option.bind_assoc]
    exact Option.bind_congr fun r _ => exec_shortsortMax a k n r.2 _ (p + 1)

theorem exec_qsortShortsort (lo : Nat) (k : Program) : ∀ (n : Nat) (s : σ) (a : List α),
    (qsortShortsort lo n k).exec (listMachine comp) (a, s) =
      (Core.qsortShortsort comp lo n s a).bind fun r => k.exec (listMachine comp) r
  | 0, s, a => rfl
  | n + 1, s, a => by
    rw [qsortShortsort, exec_shortsortMax, Core.qsortShortsort, Option.bind_eq_bind, Option.bind_assoc]
    exact Option.bind_congr fun r _ => exec_qsortShortsort lo k n r.2 _

theorem exec_scanUp (a : List α) (lo hi : Nat) (k : Nat → Program) : ∀ (n : Nat) (s : σ) (l : Nat),
    (scanUp lo hi n l k).exec (listMachine comp) (a, s) =
      (Core.scanUp comp a lo hi n s l).bind fun r => (k r.1).exec (listMachine comp) (a, r.2)
  | 0, s, l => rfl
  | n + 1, s, l => by
    rw [scanUp, Core.scanUp]
    split
    · rw [exec_compare, Option.bind_eq_bind, Option.bind_assoc]
      refine Option.bind_congr fun r _ => ?_
      dsimp only
      split
      · exact exec_scanUp a lo hi k n r.2 (l + 1)
      · rfl
    · rfl

theorem exec_scanDown (a : List α) (lo : Nat) (k : Nat → Program) : ∀ (n : Nat) (s : σ) (h : Nat),
    (scanDown lo n h k).exec (listMachine comp) (a, s) =
      (Core.scanDown comp a lo n s h).bind fun r => (k r.1).exec (listMachine comp) (a, r.2)
  | 0, s, h => rfl
  | n + 1, s, h => by
    rw [scanDown, Core.scanDown]
    split
    · rw [exec_compare, Option.bind_eq_bind, Option.bind_assoc]
      refine Option.bind_congr fun r _ => ?_
      dsimp only
      split
      · exact exec_scanDown a lo k n r.2 (h - 1)
      · rfl
    · rfl

theorem exec_partitionLoop (lo hi : Nat) (k : Nat → Nat → Program) : ∀ (n : Nat) (s : σ) (a : List α) (l h : Nat),
    (partitionLoop lo hi n l h k).exec (listMachine comp) (a, s) =
      (Core.partitionLoop comp lo hi n s a l h).bind fun r => (k r.2.1 r.2.2.1).exec (listMachine comp) (r.1, r.2.2.2)
  | 0, s, a, l, h => rfl
  | n + 1, s, a, l, h => by
    rw [partitionLoop, exec_scanUp, Core.partitionLoop, Option.bind_eq_bind, Option.bind_assoc]
    refine Option.bind_congr fun up _ => ?_
    obtain ⟨l, s⟩ := up
    rw [exec_scanDown]
    dsimp only
    rw [Option.bind_assoc]
    refine Option.bind_congr fun down _ => ?_
    obtain ⟨h, s⟩ := down
    dsimp only
    split
    · rfl
    · exact exec_partitionLoop lo hi k n s _ l h

theorem exec_qsortLoop : ∀ (n : Nat) (s : σ) (a : List α) (range : Nat × Nat) (saved : List (Nat × Nat)),
    (qsortLoop n range saved).exec (listMachine comp) (a, s) = Core.qsortLoop comp n s a range saved
  | 0, s, a, range, saved => rfl
  | n + 1, s, a, (lo, hi), saved => by
    unfold qsortLoop Core.qsortLoop
    split
    · rw [exec_qsortShortsort, Option.bind_eq_bind]
      refine Option.bind_congr fun r _ => ?_
      cases saved with
      | nil => rfl
      | cons range saved => exact exec_qsortLoop n r.2 r.1 range saved
    · change (partitionLoop lo hi (hi + 2) lo (hi + 1) _).exec (listMachine comp) (a.swap (lo + (hi - lo + 1) / 2) lo, s) = _
      rw [exec_partitionLoop, Option.bind_eq_bind]
      refine Option.bind_congr fun r _ => ?_
      obtain ⟨b, l, h, s1⟩ := r
      change Program.exec (listMachine comp) _ (b.swap lo h, s1) = _
      unfold sides
      by_cases hbig : h + l > hi + lo <;> by_cases hright : l < hi <;> by_cases hleft : lo + 1 < h <;>
        simp only [hbig, hright, hleft, if_true, if_false, exec_qsortLoop n]
      · cases saved with
        | nil => rfl
        | cons range saved => exact exec_qsortLoop n s1 _ range saved
      · cases saved with
        | nil => rfl
        | cons range saved => exact exec_qsortLoop n s1 _ range saved

/-- **On a list the program is `qsort`.** -/
theorem exec_qsort (s : σ) (a : List α) : (qsort a.length).exec (listMachine comp) (a, s) = Core.qsort comp s a := by
  rw [qsort, Core.qsort]
  split
  · rfl
  · exact exec_qsortLoop comp a.length s a _ []

end

end Program
end Core
end ObjectScript
