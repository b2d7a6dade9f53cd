import ObjectScript.Heap.MediumRuns
/-!
# The numbers of the pages

The counter gives each page the next number, so the numbers are distinct and none is that of the list heads, until 65534
pages were taken (`pages_numbered`).  The next page gets the number of the heads (`page_like_head`), and its first block, when
it is freed, joins the head of the ring (`head_joined`).

The state that reaches the 65535th page is built by two requests for each page (`fillPage`), so no page is ever given
back on the way.
-/
namespace ObjectScript
namespace Heap

open MediumHeap
open SmallRun (Apart)

/-- `d` lies right behind `a` in a page. -/
def Adjacent (c : Sizes) (h : MediumHeap) (a d : Ref) : Prop :=
  ∃ p ∈ h.pages, ∃ x y, a = .at x ∧ d = .at y ∧ p ≤ x ∧ x + h.size a = y ∧ y + h.size d ≤ p + c.pageSize

/-- When `b` is freed, only blocks that lie next to each other in a page are joined. -/
def JoinsAdjacent (c : Sizes) (h : MediumHeap) (b : Ref) : Prop :=
  (h.isFree (h.prev b) ∧ h.page (h.prev b) = h.page b → Adjacent c h (h.prev b) b) ∧
    ∀ g b', h.joinPrev b = some (g, b') → g.isFree (g.next b') ∧ g.page (g.next b') = g.page b' → Adjacent c g b' (g.next b')

theorem Blocks.adjacent {c : Sizes} {h : MediumHeap} {Ps Qs : List (List Nat)} {us vs : List Nat} {a d : Nat}
    (hb : Blocks c h (Ps ++ (us ++ a :: d :: vs) :: Qs)) : Adjacent c h (.at a) (.at d) := by
  have hpart := Blocks.mem_part Ps Qs (us ++ a :: d :: vs)
  obtain ⟨mid, h1, h2, h3, h4⟩ := (tiles_append h.size).1 (hb.tiles _ hpart).2
  refine ⟨_, hb.head_mem_pages hpart, a, d, rfl, rfl, (hb.bounds hpart (by simp)).1, ?_, (hb.bounds hpart (by simp)).2⟩
  rw [h3, ← h2]

/-- **Away from the head of the ring only neighbours are joined.** -/
theorem Tiled.joinsAdjacent {c : Sizes} {h : MediumHeap} {parts : List (List Nat)} {free : List Nat} {b : Nat}
    (ht : Tiled c h parts free) (hb : Used h parts b) (hsafe : h.FreesApart b) : JoinsAdjacent c h (.at b) := by
  obtain ⟨Ps, us, vs, Qs, rfl⟩ := Blocks.locate hb.1
  have hfirst : Ps.flatten ++ us = [] → h.page (.at b) ≠ dummyPage := fun hnil hpage => by
    refine hsafe ⟨.inl ?_, hpage⟩
    rw [ht.blocks.prev_eq, hnil]
    rfl
  refine ⟨fun hjoin => ?_, fun g r hprev hjoin => ?_⟩
  · obtain ⟨us, u, rfl, hu⟩ := ht.blocks.prev_same_page hfirst hjoin.2
    have hblocks := ht.blocks
    rw [List.append_assoc] at hblocks
    rw [hu]
    exact hblocks.adjacent
  · obtain ⟨g', us', b', free', hrun, hnumber, ht', -, hj⟩ := ht.joinPrev hb.2 hfirst
    rw [hprev] at hrun
    cases hrun
    have hpage : g.page = h.page := hj.page
    have hlast : vs ++ Qs.flatten = [] → g.page (.at b') ≠ dummyPage := fun hnil hnum => by
      rw [hpage, hnumber] at hnum
      refine hsafe ⟨.inr ?_, hnum⟩
      rw [ht.blocks.next_eq, hnil]
      rfl
    obtain ⟨v, vs, rfl, hv⟩ := ht'.blocks.next_same_page hlast hjoin.2
    have hadj : Adjacent c (g.setIsFree (.at b') false) (.at b') (.at v) := ht'.blocks.adjacent
    have hv' : g.next (.at b') = .at v := hv
    rw [hv']
    exact hadj

namespace MediumRun

/-- No two pages have the same number, and none has that of the list heads. -/
structure PagesNumbered (s : MediumRun) : Prop where
  distinct : (s.heap.pages.map fun p => s.heap.page (.at p)).Nodup
  notHead : ∀ p ∈ s.heap.pages, s.heap.page (.at p) ≠ dummyPage

/-- A page is taken only while fewer than 65534 were taken. -/
def Few (c : Sizes) (s : MediumRun) (op : MediumOp) : Prop := s.TakesPage c op → s.heap.taken < 65534

/-- The states of the runs in which every step is allowed and takes a page only while they are few. -/
inductive FewReachable (c : Sizes) : MediumRun → Prop where
  | new : FewReachable c .new
  | step {s s' op} : FewReachable c s → s.Allowed c op → s.Few c op → s.step c op = some s' → FewReachable c s'

instance (c : Sizes) (s : MediumRun) (op : MediumOp) : Decidable (s.Few c op) := inferInstanceAs (Decidable (_ → _))

theorem FewReachable.of_run {c : Sizes} {s : MediumRun} {ops : List MediumOp}
    (h : CheckedRun.run (MediumRun.step c) (fun s op => s.Allowed c op ∧ s.Few c op) .new ops = some s) : FewReachable c s :=
  CheckedRun.run_keeps (fun _ _ _ hs ha hstep => .step hs ha.1 ha.2 hstep) ops .new h

/-- **The counter is ahead of every number.** -/
structure Counted (s : MediumRun) : Prop where
  nextPage : s.heap.nextPage = s.heap.taken + 1
  few : s.heap.taken ≤ 65534
  number_le : ∀ p ∈ s.heap.pages, s.heap.page (.at p) ≤ s.heap.taken

variable {c : Sizes} {s : MediumRun} {parts : List (List Nat)} {free : List Nat}

theorem Counted.numbered (hc : Counted s) (op : MediumOp) : s.Numbered c op := by
  intro _ p hp heq
  have h1 := hc.number_le p hp
  have h2 := hc.nextPage
  omega

theorem Counted.pagesNumbered (hc : Counted s) (hs : Sound c s parts free) : PagesNumbered s := by
  refine ⟨hs.tiled.blocks.distinct, fun p hp => ?_⟩
  have h1 := hc.number_le p hp
  have h2 := hc.few
  unfold dummyPage
  omega

theorem PagesNumbered.freesApart (hp : PagesNumbered s) (hs : Sound c s parts free) {b : Nat} (hb : Used s.heap parts b) :
    s.heap.FreesApart b := by
  rintro ⟨-, hpage⟩
  obtain ⟨part, hpart, hin⟩ := List.mem_flatten.1 hb.1
  rw [hs.tiled.blocks.number part hpart b hin] at hpage
  exact hp.notHead _ (hs.tiled.blocks.head_mem_pages hpart) hpage

theorem PagesNumbered.offHead (hp : PagesNumbered s) (hs : Sound c s parts free) {op : MediumOp} (ha : s.Allowed c op) :
    s.OffHead op := by
  cases op with
  | malloc size system => trivial
  | free block =>
    cases block with
    | medium block => exact hp.freesApart hs ((hs.used block).1 ha)
    | _ => trivial

theorem Counted.step {s' : MediumRun} {takes : Prop} (hc : Counted s) (hpages : PageStep takes s.heap s'.heap)
    (hfew : takes → s.heap.taken < 65534) : Counted s' := by
  obtain ⟨hpages, hsame⟩ := hpages
  rcases hpages with ⟨-, hsub, hnext, htaken⟩ | ⟨page, htakes, hcons, hnumber, hnext, htaken⟩
  · refine ⟨by rw [hnext, htaken, hc.nextPage], by rw [htaken]; exact hc.few, fun p hp => ?_⟩
    rw [hsame p (hsub.subset hp), htaken]
    exact hc.number_le p (hsub.subset hp)
  · have hlt := hfew htakes
    have hcount := hc.nextPage
    refine ⟨by rw [hnext, htaken]; omega, by omega, fun p hp => ?_⟩
    rw [hcons] at hp
    rcases List.mem_cons.1 hp with rfl | hp
    · rw [hnumber, htaken]
      omega
    · rw [hsame p hp, htaken]
      exact Nat.le_succ_of_le (hc.number_le p hp)

theorem FewReachable.sound (h : FewReachable c s) : Reachable c s ∧ Counted s := by
  induction h with
  | new => exact ⟨.new, rfl, Nat.zero_le _, by rintro p ⟨⟩⟩
  | step _ ha hfew hstep ih =>
    obtain ⟨hreach, hcount⟩ := ih
    obtain ⟨parts, free, hs⟩ := hreach.sound
    have hoff := (hcount.pagesNumbered hs).offHead hs ha
    obtain ⟨s', parts', free', hs', -, hpages, -⟩ := step_sound hs ha (hcount.numbered _) hoff
    rw [hstep] at hs'
    cases hs'
    exact ⟨.step hreach ha (hcount.numbered _) hoff hstep, hcount.step hpages hfew⟩

theorem FewReachable.pageStep {op : MediumOp} {s' : MediumRun} (h : FewReachable c s) (ha : s.Allowed c op)
    (hstep : s.step c op = some s') : PageStep (s.TakesPage c op) s.heap s'.heap := by
  obtain ⟨hreach, hcount⟩ := h.sound
  obtain ⟨parts, free, hs⟩ := hreach.sound
  obtain ⟨s'', -, -, hs'', -, hpages, -⟩ := step_sound hs ha (hcount.numbered op) ((hcount.pagesNumbered hs).offHead hs ha)
  rw [hstep] at hs''
  cases hs''
  exact hpages

/-- **While fewer than 65535 pages were taken, no two pages have the same number, none has that of the list heads, and
a block that is freed joins only blocks next to it in its page; and taking the 65535th page ends that.** -/
theorem pages_numbered (c : Sizes) (s : MediumRun) (h : FewReachable c s) :
    PagesNumbered s ∧ (∀ b ∈ s.live, JoinsAdjacent c s.heap (.at b.1)) ∧
      ∀ op, s.Allowed c op → ∃ s', s.step c op = some s' ∧ (PagesNumbered s' ↔ s.Few c op) := by
  obtain ⟨hreach, hcount⟩ := h.sound
  obtain ⟨parts, free, hs⟩ := hreach.sound
  have hnumbered := hcount.pagesNumbered hs
  refine ⟨hnumbered, fun b hb => ?_, fun op ha => ?_⟩
  · have hused := (hs.used b.1).1 (List.mem_map_of_mem hb)
    exact hs.tiled.joinsAdjacent hused (hnumbered.freesApart hs hused)
  · obtain ⟨s', parts', free', hstep, hs', hpages, -⟩ := step_sound hs ha (hcount.numbered op) (hnumbered.offHead hs ha)
    refine ⟨s', hstep, fun hgood htakes => ?_, fun hfew => (hcount.step hpages hfew).pagesNumbered hs'⟩
    rcases hpages.1 with ⟨hnot, -⟩ | ⟨page, -, hcons, hnumber, -, -⟩
    · exact absurd htakes hnot
    · have hne := hgood.notHead page (by rw [hcons]; exact List.mem_cons_self)
      have h1 := hcount.few
      rw [hnumber, hcount.nextPage] at hne
      unfold dummyPage at hne
      omega

/-! ## 65535 pages -/

theorem takeFrom_alone {k : MediumHeap} {page size rest : Nat} (hfirst : k.nextFree .dummyFree = .at page)
    (hnext : k.nextFree (.at page) = .dummyFree) (hprev : k.prevFree (.at page) = .dummyFree) (hdummy : k.size .dummyFree = 0)
    (hsize : k.size (.at page) = rest + size) (hpos : 0 < rest) (hrest : c.maxSmallSize ≤ rest) :
    ∃ g, k.takeFrom c (.at page) size = some (g, .medium (page + rest)) ∧ g.nextFree .dummyFree = .at page ∧
      g.nextFree (.at page) = .dummyFree ∧ g.prevFree (.at page) = .dummyFree ∧ g.size .dummyFree = 0 ∧
      g.size (.at page) = rest ∧ g.pages = k.pages := by
  have hshrink : k.shrinkFree c (.at page) rest = some (k.setSize (.at page) rest) := by
    unfold MediumHeap.shrinkFree
    refine if_neg ?_
    show ¬ rest < (k.setSize (.at page) rest).size (k.nextFree (.at page))
    rw [hnext]
    simp [setSize, hdummy]
  unfold MediumHeap.takeFrom
  dsimp only
  rw [hsize, Nat.add_sub_cancel, if_neg fun h => Nat.not_lt_of_le hrest h.1, hshrink]
  refine ⟨_, rfl, hfirst, hnext, hprev, ?_, ?_, rfl⟩
  · simp [setSize, hdummy, setIsFree, insertAfter, setLinks, setPage]
  · have hne : Ref.at page ≠ Ref.at (page + rest) := by
      intro heq
      have := Ref.at.inj heq
      omega
    exact (Function.update_of_ne hne size (Function.update k.size (.at page) rest)).trans (Function.update_self ..)

theorem takeFrom_all {k : MediumHeap} {page size : Nat} (hnext : k.nextFree (.at page) = .dummyFree)
    (hprev : k.prevFree (.at page) = .dummyFree) (hsize : k.size (.at page) = size) :
    ∃ g, k.takeFrom c (.at page) size = some (g, .medium page) ∧ g.nextFree .dummyFree = .dummyFree ∧ g.pages = k.pages := by
  have hhalf := c.half_pos
  have hremove : k.removeFreeLink (.at page) = some (k.setFreeLinks (LinkRing.removeLink k.nextFree k.prevFree (.at page))) :=
    if_neg (by rintro ⟨⟩)
  unfold MediumHeap.takeFrom
  dsimp only
  rw [hsize, Nat.sub_self, if_pos ⟨by omega, .inl hhalf⟩, hremove]
  refine ⟨_, rfl, ?_, rfl⟩
  show Function.update k.nextFree (k.prevFree (.at page)) (k.nextFree (.at page)) .dummyFree = .dummyFree
  rw [hprev, hnext]
  exact Function.update_self ..

/-- With nothing free, a request for half a page takes a page and leaves its first half. -/
theorem firstHalf {h : MediumHeap} (page : Nat) (hnext : h.nextFree .dummyFree = .dummyFree)
    (hprev : h.prevFree .dummyFree = .dummyFree) (hsize : h.size .dummyFree = 0) :
    ∃ g, h.malloc sizes64 32744 (some page) = some (g, .medium (page + 32768)) ∧ g.nextFree .dummyFree = .at page ∧
      g.nextFree (.at page) = .dummyFree ∧ g.prevFree (.at page) = .dummyFree ∧ g.size .dummyFree = 0 ∧
      g.size (.at page) = 32768 ∧ g.pages = page :: h.pages := by
  have hblock : sizes64.blockSize 32744 = 32768 := rfl
  have hrun : h.malloc sizes64 32744 (some page) = (h.newPage sizes64 page).takeFrom sizes64 (.at page) 32768 := by
    have hshort : h.size (h.nextFree .dummyFree) < 32768 := by
      rw [hnext, hsize]
      decide
    unfold MediumHeap.malloc MediumHeap.allocMedium
    dsimp only
    rw [hblock, if_neg (by decide), if_neg (by decide), if_pos (by decide), if_pos hshort, if_neg (by decide)]
  have hlinks : ∀ r, (h.newPage sizes64 page).nextFree r =
      (LinkRing.insertBefore h.nextFree h.prevFree (.at page) (h.nextFree .dummyFree)).1 r ∧
      (h.newPage sizes64 page).prevFree r =
        (LinkRing.insertBefore h.nextFree h.prevFree (.at page) (h.nextFree .dummyFree)).2 r := fun _ => ⟨rfl, rfl⟩
  have hdummy : (h.newPage sizes64 page).size .dummyFree = 0 := (h.newPage_size_of_ne sizes64 (by rintro ⟨⟩)).trans hsize
  rw [hrun]
  refine takeFrom_alone ?_ ?_ ?_ hdummy (Function.update_self ..) (by decide) (by decide)
  · rw [(hlinks _).1, hnext]
    simp [LinkRing.insertBefore, hprev]
  · rw [(hlinks _).1, hnext]
    simp [LinkRing.insertBefore, hprev]
  · rw [(hlinks _).2, hnext]
    simp [LinkRing.insertBefore, hprev]

theorem secondHalf {g : MediumHeap} {page : Nat} (hfirst : g.nextFree .dummyFree = .at page)
    (hnext : g.nextFree (.at page) = .dummyFree) (hprev : g.prevFree (.at page) = .dummyFree) (hdummy : g.size .dummyFree = 0)
    (hsize : g.size (.at page) = 32768) :
    ∃ g', g.malloc sizes64 32744 none = some (g', .medium page) ∧ g'.nextFree .dummyFree = .dummyFree ∧ g'.pages = g.pages := by
  have hblock : sizes64.blockSize 32744 = 32768 := rfl
  have hfind : g.findBestFreeBlock 32768 (g.fuel sizes64) (.at page) = some (.at page) := by
    obtain ⟨fuel, hfuel⟩ : ∃ fuel, g.fuel sizes64 = fuel + 1 := ⟨g.pages.length * sizes64.pageSize, rfl⟩
    rw [hfuel, MediumHeap.findBestFreeBlock, hnext, hdummy, if_neg (by decide)]
  have hrun : g.malloc sizes64 32744 none = g.takeFrom sizes64 (.at page) 32768 := by
    unfold MediumHeap.malloc MediumHeap.allocMedium
    dsimp only
    rw [hblock, if_neg (by decide), if_neg (by decide), if_pos (by decide), hfirst, hsize, if_neg (by decide), hfind]
  rw [hrun]
  exact takeFrom_all hnext hprev hsize

theorem fillPage (page : Nat) (hs : Sound sizes64 s parts free) (hnone : s.heap.nextFree .dummyFree = .dummyFree)
    (hlarge : s.large = []) (hfresh : ∀ p ∈ s.heap.pages, p + 65536 ≤ page) :
    ∃ s1 s2, s.Allowed sizes64 (.malloc 32744 (some page)) ∧ s.TakesPage sizes64 (.malloc 32744 (some page)) ∧
      s.step sizes64 (.malloc 32744 (some page)) = some s1 ∧ s1.Allowed sizes64 (.malloc 32744 none) ∧
      s1.step sizes64 (.malloc 32744 none) = some s2 ∧ s2.heap.nextFree .dummyFree = .dummyFree ∧ s2.large = [] ∧
      s1.heap.pages = page :: s.heap.pages ∧ s2.heap.pages = page :: s.heap.pages ∧ page ∈ s2.live.map Prod.fst := by
  have hdummy := hs.tiled.blocks.dummyFree
  have hnil : free = [] := by
    cases free with
    | nil => rfl
    | cons b ys =>
      have hfirst := hs.tiled.listed.first_eq
      rw [hnone] at hfirst
      cases hfirst
  subst hnil
  have hprev : s.heap.prevFree .dummyFree = .dummyFree := LinkRing.prev_empty hs.tiled.listed.ring
  obtain ⟨g, hrun, h1, h2, h3, h4, h5, hpages⟩ := firstHalf page hnone hprev hdummy
  obtain ⟨g', hrun', hnone', hpages'⟩ := secondHalf h1 h2 h3 h4 h5
  refine ⟨{ s with heap := g, live := (page + 32768, 32744) :: s.live },
    { s with heap := g', live := (page, 32744) :: (page + 32768, 32744) :: s.live }, ?_, ⟨by decide, by decide, by decide, ?_⟩, ?_,
    (by rintro _ ⟨⟩), ?_, hnone', hlarge, hpages, hpages'.trans hpages, List.mem_cons_self⟩
  · rintro _ ⟨⟩
    refine ⟨fun p hp => .inr (hfresh p hp), ?_⟩
    rw [hlarge]
    rintro b ⟨⟩
  · rw [hnone, hdummy]
    decide
  · unfold MediumRun.step
    dsimp only
    rw [hrun]
  · unfold MediumRun.step
    dsimp only
    rw [hrun']

theorem pages_numbered_joinedPages : ∃ s, FewReachable sizes64 s ∧ s.heap.pages = [131072, 65536] ∧ PagesNumbered s := by
  have hrun : (CheckedRun.run (step sizes64) (fun s op => s.Allowed sizes64 op ∧ s.Few sizes64 op) .new joinedPages).map
      (fun s => s.heap.pages) = some [131072, 65536] := by decide +kernel
  obtain ⟨s, hs, hpages⟩ := Option.map_eq_some_iff.1 hrun
  have hreach := FewReachable.of_run hs
  exact ⟨s, hreach, hpages, (pages_numbered sizes64 s hreach).1⟩

theorem filled_pages (k : Nat) (hk : k ≤ 65534) : ∃ s, FewReachable sizes64 s ∧ s.heap.taken = k ∧
    s.heap.nextFree .dummyFree = .dummyFree ∧ s.large = [] ∧ ∀ p ∈ s.heap.pages, p + 65536 ≤ 65536 * (k + 1) := by
  induction k with
  | zero => exact ⟨.new, .new, rfl, rfl, rfl, by rintro p ⟨⟩⟩
  | succ k ih =>
    obtain ⟨s, hreach, htaken, hnone, hlarge, hfresh⟩ := ih (by omega)
    obtain ⟨parts, free, hs⟩ := hreach.sound.1.sound
    obtain ⟨s1, s2, ha1, ht1, hstep1, ha2, hstep2, hnone2, hlarge2, -, hpages2, -⟩ := fillPage _ hs hnone hlarge hfresh
    have hreach1 : FewReachable sizes64 s1 := .step hreach ha1 (fun _ => by omega) hstep1
    have hreach2 : FewReachable sizes64 s2 := .step hreach1 ha2 (fun h => h.elim) hstep2
    have hpages1 := hreach.pageStep ha1 hstep1
    have hpages2' := hreach1.pageStep ha2 hstep2
    have htaken1 : s1.heap.taken = k + 1 := by
      rcases hpages1.1 with ⟨hnot, -⟩ | ⟨-, -, -, -, -, h⟩
      · exact absurd ht1 hnot
      · rw [h, htaken]
    have htaken2 : s2.heap.taken = k + 1 := by
      rcases hpages2'.1 with ⟨-, -, -, h⟩ | ⟨-, h, -⟩
      · rw [h, htaken1]
      · exact h.elim
    refine ⟨s2, hreach2, htaken2, hnone2, hlarge2, fun p hp => ?_⟩
    rw [hpages2] at hp
    rcases List.mem_cons.1 hp with rfl | hp
    · omega
    · have := hfresh p hp
      omega

theorem last_page : ∃ s s1 s2 page, FewReachable sizes64 s ∧ s.Allowed sizes64 (.malloc 32744 (some page)) ∧
    s.step sizes64 (.malloc 32744 (some page)) = some s1 ∧ s1.Allowed sizes64 (.malloc 32744 none) ∧
    s1.step sizes64 (.malloc 32744 none) = some s2 ∧ s1.heap.pages = page :: s.heap.pages ∧
    s2.heap.pages = page :: s.heap.pages ∧ s1.heap.page (.at page) = dummyPage ∧ page ∈ s2.live.map Prod.fst := by
  obtain ⟨s, hreach, htaken, hnone, hlarge, hfresh⟩ := filled_pages 65534 (Nat.le_refl _)
  obtain ⟨hreach', hcount⟩ := hreach.sound
  obtain ⟨parts, free, hs⟩ := hreach'.sound
  obtain ⟨s1, s2, ha1, ht1, hstep1, ha2, hstep2, -, -, hpages1, hpages2, hlive⟩ := fillPage _ hs hnone hlarge hfresh
  refine ⟨s, s1, s2, _, hreach, ha1, hstep1, ha2, hstep2, hpages1, hpages2, ?_, hlive⟩
  rcases (hreach.pageStep ha1 hstep1).1 with ⟨hnot, -⟩ | ⟨page, -, hcons, hnumber, -, -⟩
  · exact absurd ht1 hnot
  · have hsame := List.head_eq_of_cons_eq (hpages1.symm.trans hcons)
    rw [← hsame, hcount.nextPage, htaken] at hnumber
    exact hnumber

/-- **A page that carries the number of the list heads**: the 65535th, when two requests for half a page fill each. -/
theorem page_like_head : ∃ s, FewReachable sizes64 s ∧ ∃ op s', s.Allowed sizes64 op ∧ s.step sizes64 op = some s' ∧
    ¬ PagesNumbered s' := by
  obtain ⟨s, s1, -, page, hreach, ha, hstep, -, -, hpages, -, hnumber, -⟩ := last_page
  refine ⟨s, hreach, _, s1, ha, hstep, fun hgood => hgood.notHead page ?_ hnumber⟩
  rw [hpages]
  exact List.mem_cons_self

/-- **A block that joins the head of the ring**: the first one of the 65535th page is freed, and the free list is asked for
the head. -/
theorem head_joined : ∃ s, Reachable sizes64 s ∧ (s.heap.pages.map fun p => s.heap.page (.at p)).Nodup ∧
    ∃ block, s.Allowed sizes64 (.free (.medium block)) ∧ s.step sizes64 (.free (.medium block)) = none := by
  obtain ⟨s, s1, s2, page, hreach, ha1, hstep1, ha2, hstep2, hpages1, hpages2, hnumber, hlive⟩ := last_page
  obtain ⟨hreach0, hcount⟩ := hreach.sound
  have hreach1 : Reachable sizes64 s1 := .step hreach0 ha1 (hcount.numbered _) trivial hstep1
  obtain ⟨parts1, free1, hs1⟩ := hreach1.sound
  obtain ⟨s', parts, free, hstep', hs, hpages, -⟩ := step_sound hs1 ha2 (fun h => h.elim) trivial
  rw [hstep2] at hstep'
  cases hstep'
  refine ⟨s2, .step hreach1 ha2 (fun h => h.elim) trivial hstep2, hs.tiled.blocks.distinct, page, hlive, ?_⟩
  have hused := (hs.used page).1 hlive
  have hpage : s2.heap.page (.at page) = dummyPage := by
    rw [hpages.2 page (by rw [hpages1]; exact List.mem_cons_self)]
    exact hnumber
  -- the first page of the ring is the last one that was taken
  have hfirst : s2.heap.prev (.at page) = .dummyBlock := by
    have hblocks := hs.tiled.blocks
    have hheads := hblocks.pages
    rw [hpages2] at hheads
    cases parts with
    | nil => cases hheads
    | cons P Qs =>
      have hP := (hblocks.tiles P List.mem_cons_self).1
      cases P with
      | nil => exact absurd rfl hP
      | cons b vs =>
        obtain ⟨rfl, -⟩ := List.cons.inj hheads
        exact Blocks.prev_first hblocks
  have hnone : s2.heap.freeMedium sizes64 page = none :=
    freeMedium_head hused.2 hs.tiled.blocks.dummyBlock fun hoff => hoff ⟨.inl hfirst, hpage⟩
  unfold MediumRun.step
  dsimp only
  rw [hnone]
  rfl

end MediumRun
end Heap
end ObjectScript
