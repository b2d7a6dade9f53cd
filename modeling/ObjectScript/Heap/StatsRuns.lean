import ObjectScript.Heap.StatsSteps
/-!
# The counters over a run

In any run of `malloc` and `free` the counters hold the sums over the blocks in use and the pages and blocks from the system
(`statistics_exact`), as long as the blocks themselves are sound: a page of small blocks is not refused when the rest of the one
before was given away, and the numbers of the pages of medium blocks do what they are for.  After such a refusal two calls
can return one address, the second with another size, and the counters are wrong from then on (`statistics_drift`).
-/
namespace ObjectScript
namespace Heap

open WrappedSum

/-! ## Small blocks keep their sizes -/

namespace SmallRun

open SmallHeap

variable {c : Sizes} {h h' : SmallHeap} {free : List Nat}

theorem giveTail_header {p : Nat} (hrun : h.giveTail c = some h')
    (hrest : 0 < h.smallPage.size - h.smallPageOffs → p ≠ h.smallPage.addr + h.smallPageOffs) : h'.header p = h.header p := by
  unfold SmallHeap.giveTail SmallHeap.pushFree at hrun
  dsimp only at hrun
  split at hrun
  · rename_i hlt
    split at hrun
    · cases hrun
    · cases hrun
      exact Function.update_of_ne (hrest (Nat.zero_lt_of_lt hlt)) _ _
  · cases hrun
    rfl

/-- A request touches no block but the one it returns, and the rest of the page. -/
theorem allocSmall_header {size p : Nat} {system block? : Option Nat} (hrun : h.allocSmall c size system = some (h', block?))
    (hnew : block? ≠ some p) (hrest : 0 < h.smallPage.size - h.smallPageOffs → p ≠ h.smallPage.addr + h.smallPageOffs) :
    h'.header p = h.header p := by
  have hne : ∀ {block : Nat}, some block ≠ some p → p ≠ block := fun hne heq => hne (congrArg some heq.symm)
  unfold SmallHeap.allocSmall at hrun
  dsimp only at hrun
  split at hrun
  · cases hrun
  · split at hrun
    · cases hrun
    · cases hrun
      exact Function.update_of_ne (hne hnew) _ _
  · split at hrun
    · split at hrun
      · cases hrun
      · rename_i h1 hgive
        have htail := giveTail_header hgive hrest
        cases system with
        | none =>
          cases hrun
          exact htail
        | some page =>
          cases hrun
          exact (Function.update_of_ne (hne hnew) _ _).trans htail
    · cases hrun
      exact Function.update_of_ne (hne hnew) _ _

theorem freeSmall_header {block p : Nat} (hrun : h.freeSmall block = some h') (hp : p ≠ block) : h'.header p = h.header p := by
  unfold SmallHeap.freeSmall SmallHeap.pushFree at hrun
  split at hrun
  · cases hrun
  · split at hrun
    · cases hrun
    · cases hrun
      exact Function.update_of_ne hp _ _

theorem freeSmall_pages {block : Nat} (hrun : h.freeSmall block = some h') : h'.smallPages = h.smallPages := by
  unfold SmallHeap.freeSmall SmallHeap.pushFree at hrun
  split at hrun
  · cases hrun
  · split at hrun
    · cases hrun
    · cases hrun
      rfl

theorem Sound.ne_rest {s : SmallRun} (hs : Sound c s free) {p : Nat} (hp : p ∈ s.live)
    (hrest : 0 < s.heap.smallPage.size - s.heap.smallPageOffs) : p ≠ s.heap.smallPage.addr + s.heap.smallPageOffs := by
  rintro rfl
  exact hs.blocks.not_mem hrest hs.rest.apart (List.mem_append_left free hp)

end SmallRun

namespace SmallHeap

theorem getSize_congr {c : Sizes} {h h' : SmallHeap} {p : Nat} (hsame : h'.header p = h.header p) :
    h'.getSize c p = h.getSize c p := by
  unfold getSize
  rw [hsame]

theorem getDataSize_congr {c : Sizes} {h h' : SmallHeap} {p : Nat} (hsame : h'.header p = h.header p) :
    h'.getDataSize c p = h.getDataSize c p := congrArg (· - c.sizeofSmallBlock) (getSize_congr hsame)

end SmallHeap

/-! ## Runs -/

/-- The manager with the blocks in use, the medium ones with what was asked for. -/
structure HeapRun where
  manager : OSHeapManager
  small : List Nat
  medium : List (Nat × Nat)
  large : List Nat

inductive HeapOp where
  | malloc (size : Int) (system : Option Nat)
  | free (p : Pointer)
deriving DecidableEq, Repr

namespace HeapRun

open SmallRun (Apart)
open OSHeapManager

def new (c : Sizes) : HeapRun := { manager := .new c, small := [], medium := [], large := [] }

variable (c : Sizes) (s : HeapRun)

/-- `malloc` has returned. -/
def returned (size : Nat) (manager : OSHeapManager) : Pointer → HeapRun
  | .small block => { s with manager := manager, small := block :: s.small }
  | .medium block => { s with manager := manager, medium := (block, size) :: s.medium }
  | .large block => { s with manager := manager, large := block :: s.large }
  | .null => { s with manager := manager }

/-- `free` has returned. -/
def released (manager : OSHeapManager) : Pointer → HeapRun
  | .small block => { s with manager := manager, small := s.small.erase block }
  | .medium block => { s with manager := manager, medium := s.medium.filter (·.1 ≠ block) }
  | .large block => { s with manager := manager, large := s.large.erase block }
  | .null => { s with manager := manager }

def step : HeapOp → Option HeapRun
  | .malloc size system => (s.manager.malloc c size system).map fun r => s.returned size.toNat r.1 r.2
  | .free p => (s.manager.free c p).map fun m => s.released m p

def smallRun : SmallRun := { heap := s.manager.small, live := s.small }

def mediumRun : MediumRun := { heap := s.manager.medium, live := s.medium, large := s.manager.large }

/-- The system answers with memory that is not in use, and blocks in use are given back. -/
def Allowed : HeapOp → Prop
  | .malloc size system => ∀ page, system = some page →
      (∀ p ∈ s.manager.small.smallPages, Apart page (c.asked size.toNat) p.addr p.size) ∧
      (∀ p ∈ s.manager.medium.pages, Apart page (c.asked size.toNat) p c.pageSize) ∧
      ∀ b ∈ s.manager.large, Apart page (c.asked size.toNat) b.1 b.2
  | .free .null => True
  | .free (.small block) => block ∈ s.small
  | .free (.medium block) => block ∈ s.medium.map Prod.fst
  | .free (.large block) => block ∈ s.large

end HeapRun

namespace HeapOp

def asSmall (c : Sizes) : HeapOp → Option SmallOp
  | .malloc size system => if 0 < size ∧ size < c.maxSmallSize then some (.allocSmall size.toNat system) else none
  | .free (.small block) => some (.freeSmall block)
  | .free _ => none

/-- What a call is for the medium and the large blocks. -/
def asMedium : HeapOp → MediumOp
  | .malloc size system => .malloc size.toNat system
  | .free (.medium block) => .free (.medium block)
  | .free (.large block) => .free (.large block)
  | .free _ => .free .null

theorem asSmall_malloc {c : Sizes} {size : Int} (hpos : 0 < size) (hlt : size < c.maxSmallSize) (system : Option Nat) :
    (HeapOp.malloc size system).asSmall c = some (.allocSmall size.toNat system) := if_pos ⟨hpos, hlt⟩

end HeapOp

namespace HeapRun

open SmallRun (Apart)
open OSHeapManager

/-- The system does not refuse a page of small blocks when there is a rest to give away; a page of medium blocks that is taken
gets a number that none has; no medium block is freed next to the head of the ring in a page that carries the number of the
head. -/
def Orderly (c : Sizes) (s : HeapRun) (op : HeapOp) : Prop :=
  (∀ smallOp, op.asSmall c = some smallOp → s.smallRun.Granted c smallOp) ∧ s.mediumRun.Numbered c op.asMedium ∧
    s.mediumRun.OffHead op.asMedium

instance (c : Sizes) (s : HeapRun) : ∀ op, Decidable (s.Allowed c op)
  | .malloc _ system => inferInstanceAs (Decidable (∀ page ∈ system, (∀ p ∈ s.manager.small.smallPages, _) ∧
      (∀ p ∈ s.manager.medium.pages, _) ∧ ∀ b ∈ s.manager.large, _))
  | .free .null => .isTrue trivial
  | .free (.small block) => inferInstanceAs (Decidable (block ∈ s.small))
  | .free (.medium block) => inferInstanceAs (Decidable (block ∈ s.medium.map Prod.fst))
  | .free (.large block) => inferInstanceAs (Decidable (block ∈ s.large))

instance (c : Sizes) (s : HeapRun) (op : HeapOp) : Decidable (s.Orderly c op) :=
  inferInstanceAs (Decidable ((∀ smallOp ∈ op.asSmall c, s.smallRun.Granted c smallOp) ∧ _ ∧ _))

/-- The states of the runs in which every step is allowed and meets `P`. -/
inductive Reachable (c : Sizes) (P : HeapRun → HeapOp → Prop) : HeapRun → Prop where
  | new : Reachable c P (.new c)
  | step {s s' op} : Reachable c P s → s.Allowed c op → P s op → s.step c op = some s' → Reachable c P s'

/-- The state after some calls, if every one is allowed and orderly. -/
def run (c : Sizes) : List HeapOp → Option HeapRun :=
  CheckedRun.run (step c) (fun s op => s.Allowed c op ∧ s.Orderly c op) (.new c)

theorem Reachable.of_run {c : Sizes} {s : HeapRun} {ops : List HeapOp} (h : run c ops = some s) : Reachable c (Orderly c) s :=
  CheckedRun.run_keeps (fun _ _ _ hs ha hstep => .step hs ha.1 ha.2 hstep) ops .new h

theorem Reachable.mono {c : Sizes} {P Q : HeapRun → HeapOp → Prop} (hPQ : ∀ s op, P s op → Q s op) {s : HeapRun}
    (h : Reachable c P s) : Reachable c Q s := by
  induction h with
  | new => exact .new
  | step _ ha hp hstep ih => exact .step ih ha (hPQ _ _ hp) hstep

/-! ## The invariant -/

/-- **The counters are right**: those of the blocks for the blocks in use, `alloc_size` for what the system gave. -/
structure Counted (c : Sizes) (s : HeapRun) : Prop where
  small : Registers s.manager.smallStats (s.manager.small.getSize c) (s.manager.small.getDataSize c) s.small
  smallPages : SmallPagesCounted s.manager.small s.manager.smallStats
  medium : Registers s.manager.mediumStats.toSimpleStats (fun b => s.manager.medium.size (.at b))
    (fun b => s.manager.medium.size (.at b) - c.sizeofBlock) (s.medium.map Prod.fst)
  mediumPages : PagesCounted c s.manager
  large : Registers s.manager.largeStats Prod.snd (fun b => b.2 - c.sizeofBlock) s.manager.large
  largeBlocks : Sums Prod.snd s.manager.large s.manager.largeStats.allocSize
  ring : s.manager.large.map Prod.fst = s.large

structure Sound (c : Sizes) (s : HeapRun) : Prop where
  small : ∃ free, SmallRun.Sound c s.smallRun free
  medium : ∃ parts free, MediumRun.Sound c s.mediumRun parts free
  largePos : ∀ b ∈ s.manager.large, 0 < b.2
  counted : Counted c s

/-- A request for a small block asks for a page, if it asks. -/
theorem asked_small {c : Sizes} {size : Nat} (h : size < c.maxSmallSize) : c.asked size = c.pageSize := by
  have hpage := c.page_holds
  have hfits := c.freeBlock_fits
  have hle : c.blockSize size ≤ size + c.align - 1 + c.sizeofBlock := Nat.div_mul_le_self _ _
  exact if_pos (by omega)

theorem new_sound (c : Sizes) : Sound c (.new c) := by
  refine ⟨⟨[], SmallRun.new_sound c⟩, ⟨[], [], MediumRun.new_sound c⟩, ?_, ⟨.zero _ _, .nil _, .zero _ _, .nil _, .zero _ _, .nil _, rfl⟩⟩
  rintro b ⟨⟩

variable {c : Sizes} {s : HeapRun}

/-! ## One call -/

theorem Sound.allocSmall {size : Nat} {system : Option Nat} (hs : Sound c s)
    (ha : s.smallRun.Allowed c (.allocSmall size system)) (hg : s.smallRun.Granted c (.allocSmall size system)) :
    ∃ m p, s.manager.allocSmall c size system = some (m, p) ∧ Sound c (s.returned size m p) := by
  obtain ⟨free, hsmall⟩ := hs.small
  obtain ⟨s', free', hstep, hsound⟩ := SmallRun.allocSmall_sound hsmall ha hg
  have hc := hs.counted
  unfold SmallRun.step at hstep
  dsimp only [smallRun] at hstep
  cases hrun : s.manager.small.allocSmall c size system with
  | none =>
    rw [hrun] at hstep
    cases hstep
  | some r =>
    obtain ⟨small, block?⟩ := r
    have hfollows := OSHeapManager.allocSmall_counts hrun
    rw [hrun] at hstep
    -- a block in use that is not the one returned keeps its header
    have hheader : ∀ p ∈ s.small, block? ≠ some p → small.header p = s.manager.small.header p :=
      fun p hp hnew => SmallRun.allocSmall_header hrun hnew (hsmall.ne_rest hp)
    cases block? with
    | none =>
      obtain ⟨hpages, hcall⟩ := hfollows
      cases hstep
      have hsame : ∀ p ∈ s.small, small.header p = s.manager.small.header p :=
        fun p hp => hheader p hp (Option.some_ne_none p).symm
      refine ⟨_, _, hcall, ⟨free', hsound⟩, hs.medium, hs.largePos, { hc with small := ?_, smallPages := ?_ }⟩
      · exact hc.small.congr (fun p hp => SmallHeap.getSize_congr (hsame p hp))
          fun p hp => SmallHeap.getDataSize_congr (hsame p hp)
      · show Sums SmallPage.size small.smallPages _
        rw [hpages]
        exact hc.smallPages
    | some block =>
      obtain ⟨stats, hstats, hpages, hcall⟩ := hfollows
      cases hstep
      have hnot : block ∉ s.small := fun hmem =>
        (List.nodup_cons.1 hsound.blocks.nodup).1 (List.mem_append_left free' hmem)
      have hsame : ∀ p ∈ s.small, small.header p = s.manager.small.header p := fun p hp =>
        hheader p hp (by
          rintro ⟨⟩
          exact hnot hp)
      refine ⟨_, _, hcall, ⟨free', hsound⟩, hs.medium, hs.largePos, { hc with small := ?_, smallPages := hpages hc.smallPages }⟩
      exact ((hc.small.of_same hstats).congr (fun p hp => SmallHeap.getSize_congr (hsame p hp))
        fun p hp => SmallHeap.getDataSize_congr (hsame p hp)).alloc block

theorem Sound.freeSmall {block : Nat} (hs : Sound c s) (ha : block ∈ s.small) :
    ∃ m, s.manager.freeSmall c block = some m ∧ Sound c (s.released m (.small block)) := by
  obtain ⟨free, hsmall⟩ := hs.small
  obtain ⟨s', free', hstep, hsound⟩ := SmallRun.freeSmall_sound hsmall ha
  have hc := hs.counted
  have hnodup : s.small.Nodup := (List.nodup_append.1 hsmall.blocks.nodup).1
  unfold SmallRun.step at hstep
  dsimp only [smallRun] at hstep
  cases hrun : s.manager.small.freeSmall block with
  | none =>
    rw [hrun] at hstep
    cases hstep
  | some small =>
    rw [hrun] at hstep
    cases hstep
    refine ⟨_, freeSmall_counts hrun, ⟨free', hsound⟩, hs.medium, hs.largePos, { hc with small := ?_, smallPages := ?_ }⟩
    · have hsame : ∀ q ∈ s.small.erase block, small.header q = s.manager.small.header q :=
        fun q hq => SmallRun.freeSmall_header hrun (hnodup.mem_erase_iff.1 hq).1
      exact (hc.small.free ha).congr (fun q hq => SmallHeap.getSize_congr (hsame q hq))
        fun q hq => SmallHeap.getDataSize_congr (hsame q hq)
    · show Sums SmallPage.size small.smallPages _
      rw [SmallRun.freeSmall_pages hrun]
      exact hc.smallPages

/-- `allocLarge` for a request that asks for as much as it needs. -/
theorem Sound.allocLarge {size : Nat} {system : Option Nat} (hs : Sound c s) (hpos : 0 < size)
    (hasked : c.asked size = c.blockSize size) (ha : s.mediumRun.Allowed c (.malloc size system)) :
    Sound c (s.returned size (s.manager.allocLarge c size system).1 (s.manager.allocLarge c size system).2) := by
  have hc := hs.counted
  cases system with
  | none => exact hs
  | some block =>
    obtain ⟨parts, free, hmedium⟩ := hs.medium
    refine ⟨hs.small, ⟨parts, free, hmedium.allocLarge hasked ha⟩, fun b hb => ?_,
      { hc with large := ?_, largeBlocks := hc.largeBlocks.cons (block, c.blockSize size), ring := ?_ }⟩
    · rcases List.mem_cons.1 hb with rfl | hb
      · exact Nat.lt_of_lt_of_le (Nat.add_pos_left hpos _) (c.le_blockSize size)
      · exact hs.largePos b hb
    · exact (hc.large.of_same (.obtain _ _)).alloc (block, c.blockSize size)
    · exact congrArg (block :: ·) hc.ring

theorem Sound.large_nodup (hs : Sound c s) : (s.manager.large.map Prod.fst).Nodup := by
  obtain ⟨parts, free, hmedium⟩ := hs.medium
  rw [List.Nodup, List.pairwise_map]
  refine hmedium.largeApart.imp_of_mem fun {a b} ha hb hab heq => ?_
  have hapos := hs.largePos a ha
  have hbpos := hs.largePos b hb
  unfold Apart at hab
  omega

/-- The entry of a key, if there is one entry only, is taken out with the key. -/
theorem filter_key {α : Type} [DecidableEq α] {l : List (Nat × α)} (hnodup : (l.map Prod.fst).Nodup) {a : Nat × α} (ha : a ∈ l) :
    l.filter (·.1 ≠ a.1) = l.erase a := by
  rw [hnodup.of_map.erase_eq_filter]
  refine List.filter_congr fun b hb => ?_
  by_cases hab : b = a
  · subst hab
    simp
  · have hkey : b.1 ≠ a.1 := fun h => hab (List.inj_on_of_nodup_map hnodup hb ha h)
    simp [hab, hkey]

theorem find_key {α : Type} {l : List (Nat × α)} (hnodup : (l.map Prod.fst).Nodup) {a : Nat × α} (ha : a ∈ l) :
    l.find? (·.1 = a.1) = some a := by
  cases hfind : l.find? (·.1 = a.1) with
  | none => exact absurd (List.find?_eq_none.1 hfind a ha) (by simp)
  | some b =>
    have hkey : b.1 = a.1 := by simpa using List.find?_some hfind
    rw [List.inj_on_of_nodup_map hnodup (List.mem_of_find?_eq_some hfind) ha hkey]

theorem map_filter_key {α : Type} {l : List (Nat × α)} (hnodup : (l.map Prod.fst).Nodup) (a : Nat) :
    (l.filter (·.1 ≠ a)).map Prod.fst = (l.map Prod.fst).erase a := by
  rw [hnodup.erase_eq_filter, List.filter_map]
  exact congrArg (List.map Prod.fst) (List.filter_congr fun b _ => by simp [bne, beq_eq_decide])

theorem Sound.freeLarge {block : Nat} (hs : Sound c s) (ha : block ∈ s.large) :
    ∃ m, s.manager.freeLarge c block = some m ∧ Sound c (s.released m (.large block)) := by
  have hc := hs.counted
  rw [← hc.ring] at ha
  obtain ⟨⟨block', size⟩, hmem, rfl⟩ := List.mem_map.1 ha
  have hfind := find_key hs.large_nodup hmem
  obtain ⟨parts, free, hmedium⟩ := hs.medium
  unfold OSHeapManager.freeLarge
  dsimp only
  rw [hfind]
  refine ⟨_, rfl, hs.small, ?_, ?_, ?_⟩
  · exact ⟨parts, free, hmedium.tiled, hmedium.used, hmedium.nodup, hmedium.room,
      fun b hb => hmedium.large b (List.mem_filter.1 hb).1, hmedium.largeApart.sublist List.filter_sublist⟩
  · exact fun b hb => hs.largePos b (List.mem_filter.1 hb).1
  · have herase := filter_key hs.large_nodup hmem
    refine { hc with large := ?_, largeBlocks := ?_, ring := ?_ }
    · show Registers _ _ _ (s.manager.large.filter (·.1 ≠ block'))
      rw [herase]
      exact (hc.large.free hmem).of_same (.giveBack _ _)
    · show Sums _ (s.manager.large.filter (·.1 ≠ block')) _
      rw [herase]
      exact hc.largeBlocks.erase hmem
    · show (s.manager.large.filter (·.1 ≠ block')).map Prod.fst = s.large.erase block'
      rw [map_filter_key hs.large_nodup, hc.ring]

/-- Medium blocks were rearranged, and those in use kept their sizes. -/
theorem Counted.rearranges {m : OSHeapManager} (hc : Counted c s) (hmoves : Rearranges c s.manager m)
    (hsame : ∀ b ∈ s.medium.map Prod.fst, m.medium.size (.at b) = s.manager.medium.size (.at b)) :
    Counted c { s with manager := m } := by
  refine ⟨?_, ?_, ?_, hmoves.pages hc.mediumPages, ?_, ?_, ?_⟩
  · show Registers m.smallStats (m.small.getSize c) (m.small.getDataSize c) s.small
    rw [hmoves.small, hmoves.smallStats]
    exact hc.small
  · show SmallPagesCounted m.small m.smallStats
    rw [hmoves.small, hmoves.smallStats]
    exact hc.smallPages
  · exact (hc.medium.of_same hmoves.blocks).congr hsame fun b hb => congrArg (· - c.sizeofBlock) (hsame b hb)
  · show Registers m.largeStats Prod.snd (fun b => b.2 - c.sizeofBlock) m.large
    rw [hmoves.large, hmoves.largeStats]
    exact hc.large
  · show Sums Prod.snd m.large m.largeStats.allocSize
    rw [hmoves.large, hmoves.largeStats]
    exact hc.largeBlocks
  · show m.large.map Prod.fst = s.large
    rw [hmoves.large]
    exact hc.ring

theorem Sound.mediumChanged {m : OSHeapManager} {medium : List (Nat × Nat)} (hs : Sound c s) (hsmall : m.small = s.manager.small)
    (hlarge : m.large = s.manager.large)
    (hmedium : ∃ parts free, MediumRun.Sound c { heap := m.medium, live := medium, large := s.manager.large } parts free)
    (hc : Counted c { s with manager := m, medium := medium }) : Sound c { s with manager := m, medium := medium } := by
  refine ⟨?_, ?_, ?_, hc⟩
  · show ∃ free, SmallRun.Sound c { heap := m.small, live := s.small } free
    rw [hsmall]
    exact hs.small
  · show ∃ parts free, MediumRun.Sound c { heap := m.medium, live := medium, large := m.large } parts free
    rw [hlarge]
    exact hmedium
  · show ∀ b ∈ m.large, 0 < b.2
    rw [hlarge]
    exact hs.largePos

/-- `allocMedium` has handed out a block. -/
theorem Sound.handsOut {size a : Nat} {system : Option Nat} {h : MediumHeap} {r : Option (OSHeapManager × Pointer)}
    {parts parts' : List (List Nat)} {free free' : List Nat} (hs : Sound c s) (hmedium : MediumRun.Sound c s.mediumRun parts free)
    (ha : s.mediumRun.Allowed c (.malloc size system)) (hbig : c.maxSmallSize ≤ size) (hhalf : size < c.pageSize / 2)
    (ht : Tiled c h parts' free') (hg : Gives c s.manager.medium h system parts parts' a size)
    (hr : HandsOut c s.manager h a r) : ∃ m, r = some (m, .medium a) ∧ Sound c (s.returned size m (.medium a)) := by
  obtain ⟨m, hmoves, rfl, rfl⟩ := hr
  obtain ⟨hsound, -⟩ := hmedium.gives ha hbig hhalf ht hg
  have hsame : ∀ b ∈ s.medium.map Prod.fst, m.medium.size (.at b) = s.manager.medium.size (.at b) :=
    fun b hb => hg.sizes b ((hmedium.used b).1 hb)
  have hc := hs.counted.rearranges hmoves hsame
  exact ⟨_, rfl, hs.mediumChanged (m := m.registerMedium c (.at a)) hmoves.small hmoves.large ⟨parts', free', hsound⟩
    { hc with medium := hc.medium.alloc a }⟩

theorem Sound.allocMedium {size : Nat} {system : Option Nat} (hs : Sound c s) (hbig : c.maxSmallSize ≤ size)
    (hhalf : size < c.pageSize / 2) (ha : s.mediumRun.Allowed c (.malloc size system))
    (hn : s.mediumRun.Numbered c (.malloc size system)) :
    ∃ m p, s.manager.allocMedium c size system = some (m, p) ∧ Sound c (s.returned size m p) := by
  obtain ⟨parts, free, hmedium⟩ := hs.medium
  have hfits := c.freeBlock_fits
  have hnumber : system ≠ none → c.blockSize size ≤ c.pageSize / 2 →
      s.manager.medium.size (s.manager.medium.nextFree .dummyFree) < c.blockSize size →
      ∀ p ∈ s.manager.medium.pages, s.manager.medium.page (.at p) ≠ s.manager.medium.nextPage := by
    intro hsome hle hshort
    cases system with
    | none => exact absurd rfl hsome
    | some page => exact hn ⟨hbig, hhalf, hle, hshort⟩
  rcases hmedium.tiled.allocMedium hbig hhalf (fun page hp => (ha page hp).1) hnumber with
    ⟨rfl, hrun⟩ | ⟨block, rfl, hlong, hrun⟩ | ⟨h, parts', free', a, hrun, ht, hg⟩
  · exact ⟨_, _, (allocMedium_counts hrun).2, hs⟩
  · have hpos : 0 < size := by
      have := c.half_pos
      omega
    exact ⟨_, _, (allocMedium_counts hrun).2.2, hs.allocLarge hpos (if_neg fun h => Nat.not_le_of_lt hlong h.2) ha⟩
  · obtain ⟨m, hr, hsound⟩ := hs.handsOut hmedium ha hbig hhalf ht hg (allocMedium_counts hrun)
    exact ⟨m, _, hr, hsound⟩

theorem Sound.freeMedium {block : Nat} (hs : Sound c s) (ha : block ∈ s.medium.map Prod.fst)
    (ho : s.manager.medium.FreesApart block) :
    ∃ m, s.manager.freeMedium c block = some m ∧ Sound c (s.released m (.medium block)) := by
  obtain ⟨parts, free, hmedium⟩ := hs.medium
  obtain ⟨h, parts', free', hrun, ht, hf⟩ := hmedium.tiled.freeMedium ((hmedium.used block).1 ha) ho
  obtain ⟨hsound, -⟩ := hmedium.frees ht hf
  obtain ⟨m, hr, rfl, hmoves⟩ := freeMedium_follows hrun
  have herase : (s.medium.filter (·.1 ≠ block)).map Prod.fst = (s.medium.map Prod.fst).erase block :=
    map_filter_key hmedium.nodup block
  -- the size is registered while the block still has it
  have hfreed : Counted c { s with
      manager := s.manager.unregisterMedium c (.at block), medium := s.medium.filter (·.1 ≠ block) } := by
    refine { hs.counted with medium := ?_ }
    show Registers _ _ _ ((s.medium.filter (·.1 ≠ block)).map Prod.fst)
    rw [herase]
    exact hs.counted.medium.free ha
  have hsame : ∀ b ∈ (s.medium.filter (·.1 ≠ block)).map Prod.fst, m.medium.size (.at b) = s.manager.medium.size (.at b) :=
    fun b hb => hf.sizes b ((hsound.used b).1 hb)
  exact ⟨m, hr, hs.mediumChanged hmoves.small hmoves.large ⟨parts', free', hsound⟩ (hfreed.rearranges hmoves hsame)⟩

/-! ## Runs -/

/-- **One call.** -/
theorem step_sound {op : HeapOp} (hs : Sound c s) (ha : s.Allowed c op) (ho : s.Orderly c op) :
    ∃ s', s.step c op = some s' ∧ Sound c s' := by
  obtain ⟨hgranted, hnumbered, hhead⟩ := ho
  cases op with
  | malloc size system =>
    have hmedium : s.mediumRun.Allowed c (.malloc size.toNat system) := fun page hp => (ha page hp).2
    unfold step OSHeapManager.malloc
    dsimp only
    by_cases hzero : size ≤ 0
    · rw [if_pos hzero]
      exact ⟨_, rfl, hs⟩
    rw [if_neg hzero]
    by_cases hsmall : size < c.maxSmallSize
    · have hlt : size.toNat < c.maxSmallSize := by omega
      have hallowed : s.smallRun.Allowed c (.allocSmall size.toNat system) := by
        refine ⟨by omega, hlt, fun page hp => ?_⟩
        have := (ha page hp).1
        rwa [asked_small hlt] at this
      rw [if_pos hsmall]
      obtain ⟨m, p, hrun, hsound⟩ := hs.allocSmall hallowed (hgranted _ (HeapOp.asSmall_malloc (by omega) hsmall system))
      rw [hrun]
      exact ⟨_, rfl, hsound⟩
    rw [if_neg hsmall]
    by_cases hhalf : size.toNat < c.pageSize / 2
    · rw [if_pos hhalf]
      obtain ⟨m, p, hrun, hsound⟩ := hs.allocMedium (by omega) hhalf hmedium hnumbered
      rw [hrun]
      exact ⟨_, rfl, hsound⟩
    · rw [if_neg hhalf]
      exact ⟨_, rfl, hs.allocLarge (by omega) (if_neg fun h => hhalf h.1) hmedium⟩
  | free p =>
    unfold step OSHeapManager.free
    cases p with
    | null => exact ⟨_, rfl, hs⟩
    | small block =>
      obtain ⟨m, hrun, hsound⟩ := hs.freeSmall ha
      dsimp only
      rw [hrun]
      exact ⟨_, rfl, hsound⟩
    | medium block =>
      obtain ⟨m, hrun, hsound⟩ := hs.freeMedium ha hhead
      dsimp only
      rw [hrun]
      exact ⟨_, rfl, hsound⟩
    | large block =>
      obtain ⟨m, hrun, hsound⟩ := hs.freeLarge ha
      dsimp only
      rw [hrun]
      exact ⟨_, rfl, hsound⟩

theorem Reachable.sound (h : Reachable c (Orderly c) s) : Sound c s := by
  induction h with
  | new => exact new_sound c
  | step _ ha ho hstep ih =>
    obtain ⟨s', hs', hsound⟩ := step_sound ih ha ho
    rw [hstep] at hs'
    cases hs'
    exact hsound

/-! ## What the counters are read for -/

def dataBytes (c : Sizes) (s : HeapRun) : Nat :=
  (s.small.map (s.manager.small.getDataSize c)).sum +
    ((s.medium.map Prod.fst).map fun b => s.manager.medium.size (.at b) - c.sizeofBlock).sum +
    (s.manager.large.map fun b => b.2 - c.sizeofBlock).sum

def systemBytes (c : Sizes) (s : HeapRun) : Nat :=
  (s.manager.small.smallPages.map SmallPage.size).sum + (s.manager.medium.pages.map fun _ => c.pageSize).sum +
    (s.manager.large.map Prod.snd).sum

/-- **The statistics are exact**: the counters are right, what is read off them is exact below half of their range, and without
blocks in use they are zero. -/
structure Exact (c : Sizes) (s : HeapRun) : Prop where
  counted : Counted c s
  usedBytes : s.dataBytes c < 2 ^ 31 → s.manager.getUsedBytes = s.dataBytes c
  allocatedBytes : s.systemBytes c < 2 ^ 31 → s.manager.getAllocatedBytes = s.systemBytes c
  noSmall : s.small = [] → s.manager.smallStats.usedSize = 0 ∧ s.manager.smallStats.dataSize = 0
  noMedium : s.medium = [] → s.manager.mediumStats.usedSize = 0 ∧ s.manager.mediumStats.dataSize = 0
  noLarge : s.large = [] → s.manager.largeStats.usedSize = 0 ∧ s.manager.largeStats.dataSize = 0

theorem Counted.exact (hc : Counted c s) : Exact c s := by
  refine ⟨hc, fun hlt => ?_, fun hlt => ?_, fun hnil => ?_, fun hnil => ?_, fun hnil => ?_⟩
  · exact toInt_eq (sum_three hc.small.data hc.medium.data hc.large.data) hlt
  · exact toInt_eq (sum_three hc.smallPages hc.mediumPages hc.largeBlocks) hlt
  · have h := hc.small
    rw [hnil] at h
    exact ⟨h.used.eq_zero, h.data.eq_zero⟩
  · have h := hc.medium
    rw [hnil] at h
    exact ⟨h.used.eq_zero, h.data.eq_zero⟩
  · have h := hc.large
    have hring := hc.ring
    rw [hnil] at hring
    rw [List.map_eq_nil_iff.1 hring] at h
    exact ⟨h.used.eq_zero, h.data.eq_zero⟩

/-- **In every run whose steps are orderly the statistics are exact.** -/
theorem statistics_exact (c : Sizes) (s : HeapRun) (h : Reachable c (Orderly c) s) : Exact c s := h.sound.counted.exact

/-- All three allocators serve, and blocks of each are given back. -/
def threeAllocators : List HeapOp :=
  [.malloc 1 (some 65536), .malloc 100 none, .malloc 1000 (some 131072), .malloc 30000 none, .malloc 70000 (some 262144),
    .malloc 90000 (some 393216), .free (.small 65552), .free (.medium 195584), .free (.large 262144), .malloc 5 none,
    .malloc 2000 none]

theorem statistics_exact_threeAllocators : ∃ s, Reachable sizes64 (Orderly sizes64) s ∧ Exact sizes64 s ∧
    s.small = [65552, 65568] ∧ s.manager.getUsedBytes = 122112 ∧ s.manager.getAllocatedBytes = 221096 := by
  have hrun : (run sizes64 threeAllocators).map (fun s => (s.small, s.dataBytes sizes64, s.systemBytes sizes64)) =
      some ([65552, 65568], 122112, 221096) := by decide +kernel
  obtain ⟨s, hs, hshape⟩ := Option.map_eq_some_iff.1 hrun
  obtain ⟨hsmall, hbytes⟩ := Prod.mk.inj hshape
  obtain ⟨hdata, hsystem⟩ := Prod.mk.inj hbytes
  have hreach := Reachable.of_run hs
  have hexact := statistics_exact sizes64 s hreach
  refine ⟨s, hreach, hexact, hsmall, ?_, ?_⟩
  · rw [hexact.usedBytes (by rw [hdata]; decide), hdata]
    rfl
  · rw [hexact.allocatedBytes (by rw [hsystem]; decide), hsystem]
    rfl

/-! ## A page that is refused -/

theorem step_malloc_small {size : Nat} (hpos : 0 < size) (hlt : size < c.maxSmallSize) (system : Option Nat) :
    s.step c (.malloc size system) = (s.manager.allocSmall c size system).map fun r => s.returned size r.1 r.2 := by
  unfold step OSHeapManager.malloc
  dsimp only
  rw [if_neg (by omega), if_pos (by omega), Int.toNat_natCast]

/-- A run of small blocks is a run of the manager. -/
theorem Reachable.of_small {small : SmallRun} (h : SmallRun.Reachable c small) :
    ∃ s, Reachable c (Orderly c) s ∧ s.smallRun = small ∧ s.manager.medium.pages = [] ∧ s.manager.large = [] := by
  induction h with
  | new => exact ⟨_, .new, rfl, rfl, rfl⟩
  | @step small small' op _ ha hg hstep ih =>
    obtain ⟨s, hreach, rfl, hpages, hlarge⟩ := ih
    have hnumbered : ∀ op, s.mediumRun.Numbered c op := fun op _ p hp => by
      rw [show s.mediumRun.heap.pages = [] from hpages] at hp
      cases hp
    cases op with
    | allocSmall size system =>
      obtain ⟨hpos, hlt, hfresh⟩ := ha
      have hallowed : s.Allowed c (.malloc size system) := fun page hpage => by
        rw [Int.toNat_natCast, asked_small hlt, hpages, hlarge]
        exact ⟨hfresh page hpage, by rintro p ⟨⟩, by rintro p ⟨⟩⟩
      have horderly : s.Orderly c (.malloc size system) := by
        refine ⟨fun smallOp hop => ?_, hnumbered _, trivial⟩
        rw [HeapOp.asSmall_malloc (by omega) (by omega), Int.toNat_natCast] at hop
        cases hop
        exact hg
      unfold SmallRun.step at hstep
      dsimp only [smallRun] at hstep
      split at hstep
      · cases hstep
      · rename_i heap hrun
        cases hstep
        have hcall := (step_malloc_small hpos hlt system).trans (congrArg (Option.map _) (allocSmall_counts hrun).2)
        exact ⟨_, .step hreach hallowed horderly hcall, rfl, hpages, hlarge⟩
      · rename_i heap block hrun
        cases hstep
        obtain ⟨stats, -, -, hr⟩ := allocSmall_counts (c := c) hrun
        have hcall := (step_malloc_small hpos hlt system).trans (congrArg (Option.map _) hr)
        exact ⟨_, .step hreach hallowed horderly hcall, rfl, hpages, hlarge⟩
    | freeSmall block =>
      have horderly : s.Orderly c (.free (.small block)) := by
        refine ⟨fun smallOp hop => ?_, hnumbered _, trivial⟩
        cases hop
        trivial
      unfold SmallRun.step at hstep
      dsimp only [smallRun] at hstep
      cases hrun : s.manager.small.freeSmall block with
      | none =>
        rw [hrun] at hstep
        cases hstep
      | some heap =>
        rw [hrun] at hstep
        cases hstep
        have hcall : s.step c (.free (.small block)) = _ := congrArg (Option.map _) (freeSmall_counts hrun)
        have hallowed : s.Allowed c (.free (.small block)) := ha
        exact ⟨_, .step hreach hallowed horderly hcall, rfl, hpages, hlarge⟩

/-- The end of a page of which 48 bytes are left, once the system has refused another: a request takes them from their list, and
the next one cuts its block from the same address. -/
theorem shared_end {h : SmallHeap} (hpages : h.smallPages = [⟨65536, 65536⟩]) (hoffs : h.smallPageOffs = 65488)
    (hlists : h.freeSmallBlocks = List.replicate 34 none) :
    ∃ h1 h2 h3, h.allocSmall sizes64 255 none = some (h1, none) ∧ h1.allocSmall sizes64 40 none = some (h2, some 131024) ∧
      h2.allocSmall sizes64 1 none = some (h3, some 131024) ∧ h2.getSize sizes64 131024 = 48 ∧
      h3.getSize sizes64 131024 = 16 ∧ ∀ p ≠ 131024, h3.header p = h.header p := by
  have hpage : h.smallPage = ⟨65536, 65536⟩ := by
    unfold SmallHeap.smallPage
    rw [hpages]
    rfl
  have hrest : h.smallPage.size - h.smallPageOffs = 48 := by
    rw [hpage, hoffs]
    rfl
  have haddr : h.smallPage.addr + h.smallPageOffs = 131024 := by rw [hpage, hoffs]
  obtain ⟨h1, hgive, hheader1, hlists1, hpages1, hoffs1⟩ : ∃ h1, h.giveTail sizes64 = some h1 ∧
      h1.header = Function.update h.header 131024 (.next none) ∧
      h1.freeSmallBlocks = (List.replicate 34 none).set 5 (some 131024) ∧ h1.smallPages = h.smallPages ∧
      h1.smallPageOffs = h.smallPageOffs := by
    unfold SmallHeap.giveTail SmallHeap.pushFree SmallHeap.noteSize
    dsimp only
    rw [sizes64.tail_threshold, hrest, haddr, hlists]
    exact ⟨_, rfl, rfl, rfl, rfl, rfl⟩
  have hrun1 : h.allocSmall sizes64 255 none = some (h1, none) := by
    unfold SmallHeap.allocSmall
    dsimp only
    rw [hlists, hrest, hgive]
    rfl
  have hfirst : h1.header 131024 = .next none := by
    rw [hheader1]
    exact Function.update_self ..
  obtain ⟨h2, hrun2, hheader2, hlists2, hpage2, hoffs2⟩ : ∃ h2, h1.allocSmall sizes64 40 none = some (h2, some 131024) ∧
      h2.header = Function.update h1.header 131024 (.sizeSlot 5) ∧ h2.freeSmallBlocks = List.replicate 34 none ∧
      h2.smallPage = h.smallPage ∧ h2.smallPageOffs = h.smallPageOffs := by
    have hlist : h1.freeSmallBlocks[sizes64.smallBlockSize 40 / sizes64.align - 1]? = some (some 131024) := by
      rw [hlists1]
      rfl
    unfold SmallHeap.allocSmall
    dsimp only
    rw [hlist]
    dsimp only
    rw [hfirst, hlists1]
    exact ⟨_, rfl, rfl, rfl, congrArg (fun l => l.headD ⟨0, 0⟩) hpages1, hoffs1⟩
  obtain ⟨h3, hrun3, hheader3⟩ : ∃ h3, h2.allocSmall sizes64 1 none = some (h3, some 131024) ∧
      h3.header = Function.update h2.header 131024 (.sizeSlot 1) := by
    unfold SmallHeap.allocSmall SmallHeap.cut
    dsimp only
    rw [hlists2, hpage2, hoffs2, hrest, haddr]
    exact ⟨_, rfl, rfl⟩
  refine ⟨h1, h2, h3, hrun1, hrun2, hrun3, ?_, ?_, fun p hp => ?_⟩
  · unfold SmallHeap.getSize
    rw [hheader2, Function.update_self]
    rfl
  · unfold SmallHeap.getSize
    rw [hheader3, Function.update_self]
    rfl
  · rw [hheader3, hheader2, hheader1, Function.update_of_ne hp, Function.update_of_ne hp, Function.update_of_ne hp]

/-- A request for a small block that the system is not asked for, or asked in vain. -/
theorem Reachable.malloc_small {P : HeapRun → HeapOp → Prop} {size : Nat} {m : OSHeapManager} {p : Pointer} (h : Reachable c P s)
    (hpos : 0 < size) (hlt : size < c.maxSmallSize) (hp : P s (.malloc size none))
    (hrun : s.manager.allocSmall c size none = some (m, p)) : Reachable c P (s.returned size m p) := by
  have hallowed : s.Allowed c (.malloc size none) := by rintro _ ⟨⟩
  exact .step h hallowed hp ((step_malloc_small hpos hlt none).trans (congrArg (Option.map _) hrun))

/-- **After a refused page two calls return one address, and the block registered with 48 bytes has 16.** -/
theorem statistics_drift : ∃ s, Reachable sizes64 (fun _ _ => True) s ∧
    ¬ Sums (s.manager.small.getSize sizes64) s.small s.manager.smallStats.usedSize := by
  obtain ⟨small, hsmall, hpages, hoffs, hlists⟩ := SmallRun.filled 247 (by decide)
  obtain ⟨s, hreach, rfl, -, -⟩ := Reachable.of_small hsmall
  obtain ⟨h1, h2, h3, hrun1, hrun2, hrun3, hsize2, hsize3, hheader⟩ := shared_end hpages hoffs hlists
  obtain ⟨free, hsound⟩ := hreach.sound.small
  have hused := hreach.sound.counted.small.used
  have hreach0 : Reachable sizes64 (fun _ _ => True) s := hreach.mono fun _ _ _ => trivial
  have hreach1 := hreach0.malloc_small (by decide) (by decide) trivial (allocSmall_counts hrun1).2
  obtain ⟨stats2, hstats2, -, hcall2⟩ := allocSmall_counts (m := { s.manager with small := h1 }) hrun2
  have hreach2 := hreach1.malloc_small (by decide) (by decide) trivial hcall2
  obtain ⟨stats3, hstats3, -, hcall3⟩ := allocSmall_counts
    (m := { s.manager with small := h2, smallStats := stats2 }.registerSmall sizes64 131024) hrun3
  refine ⟨_, hreach2.malloc_small (by decide) (by decide) trivial hcall3, fun hsums => ?_⟩
  -- the other blocks have the sizes they had
  have hsame : ∀ p ∈ s.small, s.manager.small.getSize sizes64 p = h3.getSize sizes64 p := fun p hp => by
    have hpage : s.manager.small.smallPage = ⟨65536, 65536⟩ := congrArg (fun l => l.headD ⟨0, 0⟩) hpages
    have hrest := hsound.ne_rest hp
    dsimp only [smallRun] at hrest hoffs
    rw [hpage, hoffs] at hrest
    exact SmallHeap.getSize_congr (hheader p (hrest (by decide))).symm
  have hlive : Sums (h3.getSize sizes64) (131024 :: 131024 :: s.small) (stats3.usedSize + UInt32.ofNat (h3.getSize sizes64 131024)) :=
    hsums
  have hused3 : stats3.usedSize = s.manager.smallStats.usedSize + UInt32.ofNat (h2.getSize sizes64 131024) :=
    hstats3.usedSize.trans (congrArg (· + UInt32.ofNat (h2.getSize sizes64 131024)) hstats2.usedSize)
  have hdrift := hused.unique (hlive.tail.tail.congr hsame)
  rw [hused3, hsize2, hsize3] at hdrift
  have hnat := congrArg UInt32.toNat hdrift
  simp only [UInt32.toNat_sub, UInt32.toNat_add, UInt32.toNat_ofNat'] at hnat
  omega

end HeapRun
end Heap
end ObjectScript
