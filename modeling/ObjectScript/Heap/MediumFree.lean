import ObjectScript.Heap.MediumSteps
/-!
# A block is freed

It joins the free blocks next to it in its page, and what comes of it goes into the free list (`freeMedium`).  The head of
the ring of blocks counts as a free block of the page 65535, so a block of that page must not stand next to it.

`joinPrev` and `joinNext` are the two joins, in this order.  After both the block is in use, alone between blocks in use
or pages of other numbers, and `insertFreeBlock` gives it to the list and a whole page too many back to the system.
-/
namespace ObjectScript
namespace Heap

open MediumHeap

/-- The block does not stand next to the head of the ring in the page that carries the number of the head. -/
def MediumHeap.FreesApart (h : MediumHeap) (b : Nat) : Prop :=
  ¬ ((h.prev (.at b) = .dummyBlock ∨ h.next (.at b) = .dummyBlock) ∧ h.page (.at b) = dummyPage)

theorem freeApart_mono {h h' : MediumHeap} {part : List Nat}
    (hfree : ∀ b ∈ part, h'.isFree (.at b) = true → h.isFree (.at b) = true) (hp : FreeApart h part) : FreeApart h' part :=
  List.IsChain.imp_of_mem_imp (fun {a b} ha hb hab hboth => hab ⟨hfree a ha hboth.1, hfree b hb hboth.2⟩) hp

/-- A step of joining: the block `b` in use has become the block `b'` in use. -/
structure Joined (h h' : MediumHeap) (parts parts' : List (List Nat)) (b b' : Nat) : Prop where
  used : ∀ a, Used h' parts' a ↔ a = b' ∨ (Used h parts a ∧ a ≠ b)
  old : Used h parts b' → b' = b
  sizes : ∀ a, a ≠ b' → h'.size (.at a) = h.size (.at a)
  page : h'.page = h.page
  pages : h'.pages = h.pages
  nextPage : h'.nextPage = h.nextPage
  taken : h'.taken = h.taken

theorem Joined.trans {h h' h'' : MediumHeap} {parts parts' parts'' : List (List Nat)} {b b' : Nat}
    (h1 : Joined h h' parts parts' b b') (h2 : Joined h' h'' parts' parts'' b' b') : Joined h h'' parts parts'' b b' := by
  refine ⟨fun a => ?_, h1.old, fun a ha => (h2.sizes a ha).trans (h1.sizes a ha), h2.page.trans h1.page,
    h2.pages.trans h1.pages, h2.nextPage.trans h1.nextPage, h2.taken.trans h1.taken⟩
  rw [h2.used, h1.used]
  constructor
  · rintro (ha | ⟨ha | ha, hne⟩)
    · exact .inl ha
    · exact absurd ha hne
    · exact .inr ha
  · rintro (ha | ha)
    · exact .inl ha
    · by_cases hab : a = b'
      · exact .inl hab
      · exact .inr ⟨.inr ha, hab⟩

/-- What a release leaves: `b` is no longer in use, the others are as they were, and a page that went back holds none. -/
structure Frees (c : Sizes) (h h' : MediumHeap) (parts parts' : List (List Nat)) (b : Nat) : Prop where
  used : ∀ a, Used h' parts' a ↔ Used h parts a ∧ a ≠ b
  sizes : ∀ a, Used h' parts' a → h'.size (.at a) = h.size (.at a)
  pages : h'.pages = h.pages ∨ ∃ p ∈ h.pages, h'.pages = h.pages.erase p ∧
    ∀ a, Used h' parts' a → SmallRun.Apart p c.pageSize a (h'.size (.at a))
  page : h'.page = h.page
  nextPage : h'.nextPage = h.nextPage
  taken : h'.taken = h.taken

namespace Blocks

variable {c : Sizes} {h : MediumHeap} {parts Ps Qs : List (List Nat)} {us vs : List Nat} {b : Nat}

theorem mem_part (Ps Qs : List (List Nat)) (part : List Nat) : part ∈ Ps ++ part :: Qs :=
  List.mem_append_right _ List.mem_cons_self

theorem prev_eq (hb : Blocks c h (Ps ++ (us ++ b :: vs) :: Qs)) :
    h.prev (.at b) = ((Ps.flatten ++ us).map Ref.at).getLastD .dummyBlock := by
  have hring := hb.ring
  rw [Blocks.flatten_middle, List.map_append, List.map_cons] at hring
  exact hring.prev_eq

theorem prev_first (hb : Blocks c h ((b :: vs) :: Qs)) : h.prev (.at b) = .dummyBlock := by
  have hring := hb.ring
  rw [List.flatten_cons, List.cons_append, List.map_cons] at hring
  exact hring.prev_first

theorem next_eq (hb : Blocks c h (Ps ++ (us ++ b :: vs) :: Qs)) :
    h.next (.at b) = ((vs ++ Qs.flatten).map Ref.at).headD .dummyBlock := by
  have hring := hb.ring
  rw [Blocks.flatten_middle, List.map_append, List.map_cons] at hring
  exact hring.next_eq

theorem page_ne (hb : Blocks c h parts) {P Q : List Nat} {a d : Nat} (hPQ : [P, Q].Sublist parts) (ha : a ∈ P) (hd : d ∈ Q) :
    h.page (.at a) ≠ h.page (.at d) := by
  have hP : P ∈ parts := hPQ.subset List.mem_cons_self
  have hQ : Q ∈ parts := hPQ.subset (List.mem_cons_of_mem _ List.mem_cons_self)
  rw [hb.number P hP a ha, hb.number Q hQ d hd]
  have hnd := hb.distinct
  rw [hb.pages, List.map_map] at hnd
  have hpair := hnd.sublist (hPQ.map _)
  exact (List.nodup_cons.1 hpair).1 ∘ fun heq => List.mem_singleton.2 heq

/-- What stands before `b` in the ring with the number of `b` stands before it in its page. -/
theorem prev_same_page (hb : Blocks c h (Ps ++ (us ++ b :: vs) :: Qs))
    (hsafe : Ps.flatten ++ us = [] → h.page (.at b) ≠ dummyPage) (hpage : h.page (h.prev (.at b)) = h.page (.at b)) :
    ∃ us' u, us = us' ++ [u] ∧ h.prev (.at b) = .at u := by
  rw [hb.prev_eq] at hpage ⊢
  rcases List.eq_nil_or_concat us with rfl | ⟨us, u, rfl⟩
  · exfalso
    rw [List.append_nil] at hpage hsafe
    rcases List.eq_nil_or_concat Ps.flatten with hnil | ⟨ws, w, hw⟩
    · rw [hnil] at hpage
      exact hsafe hnil (hpage.symm.trans hb.dummyBlock.1)
    · rw [hw, List.concat_eq_append, List.map_append, List.map_singleton, List.getLastD_concat] at hpage
      have hwin : w ∈ Ps.flatten := by rw [hw]; simp
      obtain ⟨P, hP, hwP⟩ := List.mem_flatten.1 hwin
      refine hb.page_ne (P := P) (Q := [] ++ b :: vs) ?_ hwP (by simp) hpage
      exact (List.singleton_sublist.2 hP).append (List.singleton_sublist.2 List.mem_cons_self)
  · rw [List.concat_eq_append] at *
    refine ⟨us, u, rfl, ?_⟩
    rw [← List.append_assoc, List.map_append, List.map_singleton, List.getLastD_concat]

/-- And what stands behind `b` likewise. -/
theorem next_same_page (hb : Blocks c h (Ps ++ (us ++ b :: vs) :: Qs))
    (hsafe : vs ++ Qs.flatten = [] → h.page (.at b) ≠ dummyPage) (hpage : h.page (h.next (.at b)) = h.page (.at b)) :
    ∃ v vs', vs = v :: vs' ∧ h.next (.at b) = .at v := by
  rw [hb.next_eq] at hpage ⊢
  cases vs with
  | nil =>
    exfalso
    rw [List.nil_append] at hpage hsafe
    cases hQ : Qs.flatten with
    | nil =>
      rw [hQ] at hpage
      exact hsafe hQ (hpage.symm.trans hb.dummyBlock.1)
    | cons w ws =>
      rw [hQ, List.map_cons, List.headD_cons] at hpage
      have hwin : w ∈ Qs.flatten := by rw [hQ]; simp
      obtain ⟨Q, hQm, hwQ⟩ := List.mem_flatten.1 hwin
      refine hb.page_ne (P := us ++ b :: []) (Q := Q) ?_ (by simp) hwQ hpage.symm
      exact (((List.singleton_sublist.2 hQm).cons_cons _).trans (List.sublist_append_right Ps _))
  | cons v vs => exact ⟨v, vs, rfl, rfl⟩

end Blocks

namespace Tiled

variable {c : Sizes} {h : MediumHeap} {parts Ps Qs : List (List Nat)} {free us vs : List Nat}

/-- **Two neighbours of a page become one block**, in use: one of them was, and the other is no longer in the free list. -/
theorem join {xs ys : List Nat} {x y f : Nat} (ht : Tiled c h (Ps ++ (us ++ x :: y :: vs) :: Qs) (xs ++ f :: ys))
    (hf : f = x ∨ f = y) (hused : ∀ a, a = x ∨ a = y → a = f ∨ h.isFree (.at a) = false) {h' : MediumHeap}
    (hh' : h' = (((h.setSize (.at x) (h.size (.at x) + h.size (.at y))).setFreeLinks
      (LinkRing.removeLink h.nextFree h.prevFree (.at f))).removeLink (.at y)).setIsFree (.at x) false) :
    Tiled c h' (Ps ++ (us ++ x :: vs) :: Qs) (xs ++ ys) ∧
      ∀ b, (b = x ∨ b = y) → h.isFree (.at b) = false →
        Joined h h' (Ps ++ (us ++ x :: y :: vs) :: Qs) (Ps ++ (us ++ x :: vs) :: Qs) b x := by
  have hpart := Blocks.mem_part Ps Qs (us ++ x :: y :: vs)
  have hflat : (Ps ++ (us ++ x :: y :: vs) :: Qs).flatten = (Ps.flatten ++ us ++ [x]) ++ y :: (vs ++ Qs.flatten) := by simp
  have hflat' : (Ps ++ (us ++ x :: vs) :: Qs).flatten = (Ps.flatten ++ us ++ [x]) ++ (vs ++ Qs.flatten) := by simp
  have hnodup := ht.blocks.nodup
  rw [hflat, List.nodup_middle, List.nodup_cons] at hnodup
  have hx : ∀ a ∈ Ps.flatten ++ us ++ (y :: vs ++ Qs.flatten), a ≠ x := by
    rintro a ha rfl
    exact ht.blocks.not_mem_rest ha
  have hxy : y ≠ x := hx y (by simp)
  have hmem' : ∀ a, a ∈ (Ps ++ (us ++ x :: vs) :: Qs).flatten ↔ a ∈ (Ps ++ (us ++ x :: y :: vs) :: Qs).flatten ∧ a ≠ y := by
    intro a
    rw [hflat, hflat']
    exact mem_without hnodup.1
  have hsizex : h'.size (.at x) = h.size (.at x) + h.size (.at y) := by
    rw [hh']
    exact Function.update_self ..
  have hsizes : ∀ a, a ≠ x → h'.size (.at a) = h.size (.at a) := fun a ha => by
    rw [hh']
    exact Function.update_of_ne (by rintro ⟨⟩; exact ha rfl) _ _
  have hpage : h'.page = h.page := by rw [hh']; rfl
  have hpages : h'.pages = h.pages := by rw [hh']; rfl
  have hfreex : h'.isFree (.at x) = false := by
    rw [hh']
    exact Function.update_self ..
  have hfrees : ∀ a, a ≠ x → h'.isFree (.at a) = h.isFree (.at a) := fun a ha => by
    rw [hh']
    exact Function.update_of_ne (by rintro ⟨⟩; exact ha rfl) _ _
  have hmono : ∀ a, h'.isFree (.at a) = true → h.isFree (.at a) = true := fun a ha => by
    by_cases hax : a = x
    · rw [hax, hfreex] at ha
      cases ha
    · rwa [hfrees a hax] at ha
  have hlnodup := ht.listed.nodup
  rw [List.nodup_middle, List.nodup_cons] at hlnodup
  have hfreemem : ∀ a, a ∈ xs ++ ys ↔ a ∈ xs ++ f :: ys ∧ a ≠ f := fun _ => mem_without hlnodup.1
  have hsub : us ++ x :: vs ⊆ us ++ x :: y :: vs :=
    ((List.Sublist.refl us).append ((List.sublist_cons_self y vs).cons_cons x)).subset
  have hxin : x ∈ (Ps ++ (us ++ x :: y :: vs) :: Qs).flatten := by simp
  have hyin : y ∈ (Ps ++ (us ++ x :: y :: vs) :: Qs).flatten := by simp
  have hfreeiff : ∀ a, (h.isFree (.at a) = true ∧ a ≠ f) ↔ (h.isFree (.at a) = true ∧ a ≠ x ∧ a ≠ y) := by
    intro a
    constructor
    · rintro ⟨h1, h2⟩
      refine ⟨h1, ?_, ?_⟩
      · intro hax
        rcases hused a (.inl hax) with h3 | h3
        · exact h2 h3
        · rw [h1] at h3
          cases h3
      · intro hay
        rcases hused a (.inr hay) with h3 | h3
        · exact h2 h3
        · rw [h1] at h3
          cases h3
    · rintro ⟨h1, h2, h3⟩
      refine ⟨h1, ?_⟩
      rintro rfl
      rcases hf with hf | hf
      · exact h2 hf
      · exact h3 hf
  have hboth : ¬ (h.isFree (.at x) = false ∧ h.isFree (.at y) = false) := by
    rintro ⟨h1, h2⟩
    have hfree := ((ht.free_iff f).1 (List.mem_append_right _ List.mem_cons_self)).2
    rcases hf with rfl | rfl
    · rw [h1] at hfree
      cases hfree
    · rw [h2] at hfree
      cases hfree
  have hdx : Ref.dummyBlock ≠ .at x := by rintro ⟨⟩
  have hfx : Ref.dummyFree ≠ .at x := by rintro ⟨⟩
  refine ⟨⟨ht.blocks.replace ?_ hpages ?_ (by simp) ?_ (fun a ha => ?_) (fun a ha => ?_) (fun a ha => ⟨hsizes a ?_, ?_⟩) ?_ ?_ ?_,
    ?_, fun a => ?_, fun P hP => ?_⟩, fun b hb hbused => ⟨fun a => ?_, fun hx => ?_, hsizes, hpage, hpages, ?_, ?_⟩⟩
  · have hring := ht.blocks.ring
    rw [hflat, List.map_append, List.map_cons] at hring
    rw [hflat', List.map_append, hh']
    exact hring.removeLink_ring
  · cases us <;> rfl
  · obtain ⟨mid, h1, h2, h3, h4⟩ := (tiles_append h.size).1 (ht.blocks.tiles _ hpart).2
    have hus : ∀ a ∈ us, h'.size (.at a) = h.size (.at a) := fun a ha => hsizes a (hx a (by simp [ha]))
    have hvs : ∀ a ∈ vs, h'.size (.at a) = h.size (.at a) := fun a ha => hsizes a (hx a (by simp [ha]))
    refine (tiles_append h'.size).2 ⟨mid, tiles_congr hus h1, h2, tiles_congr hvs ?_⟩
    rw [hsizex, ← Nat.add_assoc]
    exact h4
  · rw [hpage]
    exact ht.blocks.number _ hpart a (hsub ha)
  · by_cases hax : a = x
    · rw [hax, hsizex]
      exact Nat.le_trans (ht.blocks.roomy x hxin) (Nat.le_add_right _ _)
    · rw [hsizes a hax]
      exact ht.blocks.roomy a (List.mem_flatten.2 ⟨_, hpart, hsub ha⟩)
  · refine hx a ?_
    rcases List.mem_append.1 ha with ha | ha
    · exact List.mem_append_left _ (List.mem_append_left _ ha)
    · exact List.mem_append_right _ (List.mem_append_right _ ha)
  · rw [hpage]
  · rw [hh']
    exact Function.update_of_ne hfx (h.size (.at x) + h.size (.at y)) h.size
  · rw [hpage]
  · rw [hh']
    exact Function.update_of_ne hdx false h.isFree
  · refine ht.listed.remove.2.congr ?_ ?_ fun a ha => hsizes a ?_
    · rw [hh']
      rfl
    · rw [hh']
      rfl
    · obtain ⟨h1, h2⟩ := (hfreemem a).1 ha
      exact ((hfreeiff a).1 ⟨((ht.free_iff a).1 h1).2, h2⟩).2.1
  · rw [hfreemem, ht.free_iff, hmem', and_assoc, hfreeiff, and_assoc]
    refine and_congr_right fun _ => ?_
    constructor
    · rintro ⟨h1, h2, h3⟩
      exact ⟨h3, (hfrees a h2).trans h1⟩
    · rintro ⟨h1, h2⟩
      refine ⟨hmono a h2, ?_, h1⟩
      rintro rfl
      rw [hfreex] at h2
      cases h2
  · rcases List.mem_append.1 hP with hP' | hP'
    · exact freeApart_mono (fun a _ => hmono a) (ht.freeApart P (List.mem_append_left _ hP'))
    · rcases List.mem_cons.1 hP' with rfl | hP'
      · obtain ⟨h1, h2⟩ := List.isChain_split.1 (ht.freeApart _ hpart)
        refine List.isChain_split.2 ⟨freeApart_mono (fun a _ => hmono a) h1, ?_⟩
        cases vs with
        | nil => exact .singleton _
        | cons v vs =>
          refine List.isChain_cons_cons.2 ⟨fun hboth => ?_, ?_⟩
          · rw [hfreex] at hboth
            cases hboth.1
          · exact freeApart_mono (fun a _ => hmono a) (List.isChain_cons_cons.1 (List.isChain_cons_cons.1 h2).2).2
      · exact freeApart_mono (fun a _ => hmono a) (ht.freeApart P (List.mem_append_right _ (List.mem_cons_of_mem _ hP')))
  · unfold Used
    rw [hmem']
    by_cases hax : a = x
    · rw [hax]
      exact ⟨fun _ => .inl rfl, fun _ => ⟨⟨hxin, hxy.symm⟩, hfreex⟩⟩
    · rw [hfrees a hax]
      constructor
      · rintro ⟨⟨h1, h2⟩, h3⟩
        refine .inr ⟨⟨h1, h3⟩, ?_⟩
        rintro rfl
        exact hb.elim hax h2
      · rintro (h1 | ⟨⟨h1, h3⟩, h2⟩)
        · exact absurd h1 hax
        · refine ⟨⟨h1, ?_⟩, h3⟩
          rintro rfl
          have hbx : b = x := hb.resolve_right (Ne.symm h2)
          rw [hbx] at hbused
          exact hboth ⟨hbused, h3⟩
  · refine (hb.resolve_right ?_).symm
    rintro rfl
    exact hboth ⟨hx.2, hbused⟩
  · rw [hh']
    rfl
  · rw [hh']
    rfl

/-- The block before `b` in the ring, when it is free and carries the number of `b`, is the one before it in its page. -/
theorem joinPrev {b : Nat} (ht : Tiled c h (Ps ++ (us ++ b :: vs) :: Qs) free) (hb : h.isFree (.at b) = false)
    (hsafe : Ps.flatten ++ us = [] → h.page (.at b) ≠ dummyPage) :
    ∃ h' us' b' free', h.joinPrev (.at b) = some (h', .at b') ∧ h.page (.at b') = h.page (.at b) ∧
      Tiled c (h'.setIsFree (.at b') false) (Ps ++ (us' ++ b' :: vs) :: Qs) free' ∧
      FreeApart (h'.setIsFree (.at b') true) (us' ++ [b']) ∧
      Joined h (h'.setIsFree (.at b') false) (Ps ++ (us ++ b :: vs) :: Qs) (Ps ++ (us' ++ b' :: vs) :: Qs) b b' := by
  have hpart := Blocks.mem_part Ps Qs (us ++ b :: vs)
  have hbin : b ∈ (Ps ++ (us ++ b :: vs) :: Qs).flatten := List.mem_flatten.2 ⟨_, hpart, by simp⟩
  unfold MediumHeap.joinPrev
  dsimp only
  by_cases hjoin : h.isFree (h.prev (.at b)) = true ∧ h.page (h.prev (.at b)) = h.page (.at b)
  · rw [if_pos hjoin]
    obtain ⟨us, u, rfl, hu⟩ := ht.blocks.prev_same_page hsafe hjoin.2
    rw [hu] at hjoin ⊢
    have huin : u ∈ (Ps ++ (us ++ [u] ++ b :: vs) :: Qs).flatten := List.mem_flatten.2 ⟨_, hpart, by simp⟩
    obtain ⟨xs, ys, rfl⟩ := List.append_of_mem ((ht.free_iff u).2 ⟨huin, hjoin.1⟩)
    have hassoc : us ++ [u] ++ b :: vs = us ++ u :: b :: vs := by simp
    have hapart := (ht.freeApart _ hpart).left_of_append
    rw [hassoc] at ht ⊢
    obtain ⟨ht', hjoined⟩ := ht.join (.inl rfl) (fun a ha => ha.imp_right fun hab => by rw [hab]; exact hb) rfl
    refine ⟨_, us, u, xs ++ ys, rfl, hjoin.2, ht', ?_, hjoined b (.inr rfl) hb⟩
    refine freeApart_congr (fun a _ => ?_) hapart
    show Function.update h.isFree (.at u) true (.at a) = h.isFree (.at a)
    rw [← hjoin.1, Function.update_eq_self]
  · rw [if_neg hjoin]
    have hself : h.setIsFree (.at b) false = h := by
      unfold MediumHeap.setIsFree
      rw [← hb, Function.update_eq_self]
    refine ⟨h, us, b, free, rfl, rfl, by rwa [hself], ?_, ?_⟩
    · rcases List.eq_nil_or_concat us with rfl | ⟨us, u, rfl⟩
      · exact .singleton _
      · rw [List.concat_eq_append] at *
        have hne : ∀ a ∈ us ++ [u], a ≠ b := by
          rintro a ha rfl
          exact ht.blocks.not_mem_rest (List.mem_append_left _ (List.mem_append_right _ ha))
        have hsame : ∀ a ∈ us ++ [u], (h.setIsFree (.at b) true).isFree (.at a) = h.isFree (.at a) := fun a ha =>
          Function.update_of_ne (by rintro ⟨⟩; exact hne _ ha rfl) _ _
        have hu : u ∈ us ++ [u] := by simp
        have hprev : h.prev (.at b) = .at u := by
          rw [ht.blocks.prev_eq, ← List.append_assoc, List.map_append, List.map_singleton, List.getLastD_concat]
        rw [hprev] at hjoin
        have hpage : h.page (.at u) = h.page (.at b) :=
          (ht.blocks.number _ hpart u (List.mem_append_left _ hu)).trans (ht.blocks.number _ hpart b (by simp)).symm
        rw [List.append_assoc]
        refine List.isChain_split.2 ⟨freeApart_congr hsame (ht.freeApart _ hpart).left_of_append, ?_⟩
        refine List.isChain_cons_cons.2 ⟨fun hboth => hjoin ⟨?_, hpage⟩, .singleton _⟩
        rw [← hsame u hu]
        exact hboth.1
    · rw [hself]
      refine ⟨fun a => ?_, fun _ => rfl, fun _ _ => rfl, rfl, rfl, rfl, rfl⟩
      by_cases hab : a = b
      · rw [hab]
        exact ⟨fun _ => .inl rfl, fun _ => ⟨hbin, hb⟩⟩
      · simp [hab]

/-- The block behind `b` likewise; behind what comes of it no block of the page is free. -/
theorem joinNext {b : Nat} (ht : Tiled c (h.setIsFree (.at b) false) (Ps ++ (us ++ b :: vs) :: Qs) free)
    (hsafe : vs ++ Qs.flatten = [] → h.page (.at b) ≠ dummyPage) :
    ∃ h' vs' free', h.joinNext (.at b) = some h' ∧ Tiled c (h'.setIsFree (.at b) false) (Ps ++ (us ++ b :: vs') :: Qs) free' ∧
      FreeApart (h'.setIsFree (.at b) true) (b :: vs') ∧ h'.isFree = h.isFree ∧
      Joined (h.setIsFree (.at b) false) (h'.setIsFree (.at b) false) (Ps ++ (us ++ b :: vs) :: Qs) (Ps ++ (us ++ b :: vs') :: Qs)
        b b := by
  have hpart := Blocks.mem_part Ps Qs (us ++ b :: vs)
  have hbin : b ∈ (Ps ++ (us ++ b :: vs) :: Qs).flatten := List.mem_flatten.2 ⟨_, hpart, by simp⟩
  have hb : (h.setIsFree (.at b) false).isFree (.at b) = false := Function.update_self ..
  have hnext : h.next (.at b) = ((vs ++ Qs.flatten).map Ref.at).headD .dummyBlock := ht.blocks.next_eq
  have hne : ∀ a ∈ vs ++ Qs.flatten, a ≠ b := by
    rintro a ha rfl
    exact ht.blocks.not_mem_rest (List.mem_append_right _ ha)
  have hsame : ∀ {value : Bool} {a}, a ∈ vs ++ Qs.flatten → (h.setIsFree (.at b) value).isFree (.at a) = h.isFree (.at a) :=
    fun ha => Function.update_of_ne (by rintro ⟨⟩; exact hne _ ha rfl) _ _
  have hchain : FreeApart (h.setIsFree (.at b) true) vs := by
    refine freeApart_congr (fun a ha => ?_) (ht.freeApart _ hpart).right_of_append.tail
    rw [hsame (List.mem_append_left _ ha), hsame (List.mem_append_left _ ha)]
  unfold MediumHeap.joinNext
  dsimp only
  by_cases hjoin : h.isFree (h.next (.at b)) = true ∧ h.page (h.next (.at b)) = h.page (.at b)
  · rw [if_pos hjoin]
    obtain ⟨v, vs, rfl, hv⟩ := ht.blocks.next_same_page hsafe hjoin.2
    change h.next (.at b) = .at v at hv
    rw [hv] at hjoin ⊢
    have hvin : v ∈ (Ps ++ (us ++ b :: v :: vs) :: Qs).flatten := List.mem_flatten.2 ⟨_, hpart, by simp⟩
    have hvfree : (h.setIsFree (.at b) false).isFree (.at v) = true := (hsame List.mem_cons_self).trans hjoin.1
    obtain ⟨xs, ys, rfl⟩ := List.append_of_mem ((ht.free_iff v).2 ⟨hvin, hvfree⟩)
    obtain ⟨ht', hjoined⟩ := ht.join (.inr rfl) (fun a ha => by
      rcases ha with rfl | rfl
      · exact .inr hb
      · exact .inl rfl) rfl
    have htwice : ∀ g : MediumHeap, (g.setIsFree (.at b) false).setIsFree (.at b) false = g.setIsFree (.at b) false :=
      fun g => by
        unfold MediumHeap.setIsFree
        rw [Function.update_idem]
    obtain ⟨g, hg⟩ : ∃ g, g = ((h.setSize (.at b) (h.size (.at b) + h.size (.at v))).setFreeLinks
      (LinkRing.removeLink h.nextFree h.prevFree (.at v))).removeLink (.at v) := ⟨_, rfl⟩
    have hgfree : g.isFree = h.isFree := by rw [hg]; rfl
    change Tiled c ((((((h.setSize (.at b) (h.size (.at b) + h.size (.at v))).setFreeLinks
      (LinkRing.removeLink h.nextFree h.prevFree (.at v))).removeLink (.at v)).setIsFree (.at b) false)).setIsFree (.at b) false) _ _ at ht'
    have hjoined' := hjoined b (.inl rfl) hb
    change Joined _ ((((((h.setSize (.at b) (h.size (.at b) + h.size (.at v))).setFreeLinks
      (LinkRing.removeLink h.nextFree h.prevFree (.at v))).removeLink (.at v)).setIsFree (.at b) false)).setIsFree (.at b) false)
        _ _ _ _ at hjoined'
    rw [← hg, htwice] at ht' hjoined'
    refine ⟨g, vs, xs ++ ys, by rw [hg]; rfl, ht', ?_, hgfree, hjoined'⟩
    have hvchain : FreeApart (g.setIsFree (.at b) true) (v :: vs) :=
      freeApart_congr (fun a _ => by unfold MediumHeap.setIsFree; rw [hgfree]) hchain
    cases vs with
    | nil => exact .singleton _
    | cons w vs =>
      obtain ⟨hvw, hrest⟩ := List.isChain_cons_cons.1 hvchain
      refine List.isChain_cons_cons.2 ⟨fun hboth => hvw ⟨?_, hboth.2⟩, hrest⟩
      have hgv : (g.setIsFree (.at b) true).isFree (.at v) = h.isFree (.at v) := by
        rw [← hsame (List.mem_cons_self)]
        unfold MediumHeap.setIsFree
        rw [hgfree]
      exact hgv.trans hjoin.1
  · rw [if_neg hjoin]
    refine ⟨h, vs, free, rfl, ht, ?_, rfl, ?_⟩
    · cases vs with
      | nil => exact .singleton _
      | cons v vs =>
        have hpage : h.page (.at v) = h.page (.at b) :=
          (ht.blocks.number _ hpart v (by simp)).trans (ht.blocks.number _ hpart b (by simp)).symm
        have hv : h.next (.at b) = .at v := by rw [hnext, List.cons_append, List.map_cons, List.headD_cons]
        rw [hv] at hjoin
        refine List.isChain_cons_cons.2 ⟨fun hboth => hjoin ⟨?_, hpage⟩, hchain⟩
        rw [← hsame List.mem_cons_self]
        exact hboth.2
    · refine ⟨fun a => ?_, fun _ => rfl, fun _ _ => rfl, rfl, rfl, rfl, rfl⟩
      by_cases hab : a = b
      · rw [hab]
        exact ⟨fun _ => .inl rfl, fun _ => ⟨hbin, hb⟩⟩
      · simp [hab]

/-- What comes of the freed block goes into the free list, and a page too many goes back. -/
theorem insertFreeBlock {b : Nat} (ht : Tiled c (h.setIsFree (.at b) false) (Ps ++ (us ++ b :: vs) :: Qs) free)
    (hapart : FreeApart (h.setIsFree (.at b) true) (us ++ b :: vs)) :
    ∃ h' parts' free', (h.setIsFree (.at b) true).insertFreeBlock c (.at b) = some h' ∧ Tiled c h' parts' free' ∧
      h'.size = h.size ∧ h'.page = h.page ∧ h'.isFree = Function.update h.isFree (.at b) true ∧ h'.nextPage = h.nextPage ∧
      h'.taken = h.taken ∧ (parts' = Ps ++ (us ++ b :: vs) :: Qs ∧ h'.pages = h.pages ∨ ∃ Ps' Qs' p,
        Ps ++ (us ++ b :: vs) :: Qs = Ps' ++ [p] :: Qs' ∧ parts' = Ps' ++ Qs' ∧
          Function.update h.isFree (.at b) true (.at p) = true ∧ h'.pages = h.pages.erase p) := by
  have hpart := Blocks.mem_part Ps Qs (us ++ b :: vs)
  have hbin : b ∈ (Ps ++ (us ++ b :: vs) :: Qs).flatten := List.mem_flatten.2 ⟨_, hpart, by simp⟩
  have hself : (h.setIsFree (.at b) false).isFree (.at b) = false := Function.update_self ..
  have hbfree : b ∉ free := fun hb => by
    have := ((ht.free_iff b).1 hb).2
    rw [hself] at this
    cases this
  have hdb : Ref.dummyBlock ≠ .at b := by rintro ⟨⟩
  have hother : ∀ {a}, a ≠ b → (h.setIsFree (.at b) true).isFree (.at a) = (h.setIsFree (.at b) false).isFree (.at a) :=
    fun hab => (Function.update_of_ne (by rintro ⟨⟩; exact hab rfl) _ _).trans
      (Function.update_of_ne (by rintro ⟨⟩; exact hab rfl) _ _).symm
  have hlisted : Listed (h.setIsFree (.at b) true) free := ht.listed.congr rfl rfl fun _ _ => rfl
  have hdummy : (h.setIsFree (.at b) true).size .dummyFree = 0 := ht.blocks.dummyFree
  have hlen : free.length < (h.setIsFree (.at b) true).fuel c := ht.free_length
  obtain ⟨xs, ys, rfl, hlist, hrun⟩ := hlisted.insertFreeBlock_eq hbfree hdummy hlen
  have ht' : Tiled c ((h.setIsFree (.at b) true).insertBeforeFreeLink (.at b) ((ys.map Ref.at).headD .dummyFree))
      (Ps ++ (us ++ b :: vs) :: Qs) (xs ++ b :: ys) := by
    refine ⟨?_, hlist, fun a => ?_, fun P hP => ?_⟩
    · refine ht.blocks.congr rfl rfl rfl rfl rfl ?_
      exact (Function.update_of_ne hdb true h.isFree).trans (Function.update_of_ne hdb false h.isFree).symm
    · show a ∈ xs ++ b :: ys ↔ _ ∧ (h.setIsFree (.at b) true).isFree (.at a) = true
      by_cases hab : a = b
      · rw [hab]
        exact ⟨fun _ => ⟨hbin, Function.update_self ..⟩, fun _ => by simp⟩
      · rw [hother hab, ← ht.free_iff]
        simp [hab]
    · have hne : ∀ a ∈ Ps.flatten ++ Qs.flatten, a ≠ b := fun a ha => (ht.blocks.outside ha).2
      rcases List.mem_append.1 hP with hP' | hP'
      · exact freeApart_congr (fun a ha => hother (hne a (List.mem_append_left _ (List.mem_flatten.2 ⟨P, hP', ha⟩))))
          (ht.freeApart P hP)
      · rcases List.mem_cons.1 hP' with rfl | hP'
        · exact hapart
        · exact freeApart_congr (fun a ha => hother (hne a (List.mem_append_right _ (List.mem_flatten.2 ⟨P, hP', ha⟩))))
            (ht.freeApart P hP)
  obtain ⟨h', parts', free', hsome, hgood, h1, h2, h3, h4, h5, h6⟩ := ht'.releaseSurplus
  exact ⟨h', parts', free', hrun.trans hsome, hgood, h1, h2, h3, h4, h5, h6⟩

/-- **`freeMedium` keeps the invariant**, away from the head of the ring of blocks. -/
theorem freeMedium {b : Nat} (ht : Tiled c h parts free) (hb : Used h parts b) (hsafe : h.FreesApart b) :
    ∃ h' parts' free', h.freeMedium c b = some h' ∧ Tiled c h' parts' free' ∧ Frees c h h' parts parts' b := by
  obtain ⟨Ps, us, vs, Qs, rfl⟩ := Blocks.locate hb.1
  have hpart := Blocks.mem_part Ps Qs (us ++ b :: vs)
  unfold MediumHeap.freeMedium
  rw [if_neg (by rw [hb.2]; rintro ⟨⟩)]
  obtain ⟨h1, us', b', free1, hprev, hnumber, ht1, hleft, hjoin1⟩ := ht.joinPrev hb.2 fun hnil => by
    refine fun hpage => hsafe ⟨.inl ?_, hpage⟩
    rw [ht.blocks.prev_eq, hnil]
    rfl
  have hpage1 : h1.page (.at b') = h.page (.at b) := by
    have hsame : h1.page = h.page := hjoin1.page
    rw [hsame]
    exact hnumber
  obtain ⟨h2, vs', free2, hnext, ht2, hright, hfree2, hjoin2⟩ := ht1.joinNext fun hnil => by
    rw [hpage1]
    refine fun hpage => hsafe ⟨.inr ?_, hpage⟩
    rw [ht.blocks.next_eq, hnil]
    rfl
  rw [hprev]
  dsimp only
  rw [hnext]
  dsimp only
  have hjoined := hjoin1.trans hjoin2
  have hapart : FreeApart (h2.setIsFree (.at b') true) (us' ++ b' :: vs') := by
    refine List.isChain_split.2 ⟨?_, hright⟩
    refine freeApart_congr (fun a _ => ?_) hleft
    unfold MediumHeap.setIsFree
    rw [hfree2]
  obtain ⟨h', parts', free', hrun, hgood, hsize, hpage, hfree, hnextPage, htaken, hpages⟩ := ht2.insertFreeBlock hapart
  have hset : ∀ a, a ≠ b' → (h2.setIsFree (.at b') false).isFree (.at a) = h'.isFree (.at a) := fun a ha => by
    rw [hfree]
    exact (Function.update_of_ne (by rintro ⟨⟩; exact ha rfl) _ _).trans
      (Function.update_of_ne (by rintro ⟨⟩; exact ha rfl) _ _).symm
  have hb'free : h'.isFree (.at b') = true := by rw [hfree]; exact Function.update_self ..
  have hin : ∀ a, Used h' parts' a ↔ a ∈ (Ps ++ (us' ++ b' :: vs') :: Qs).flatten ∧ h'.isFree (.at a) = false := by
    intro a
    unfold Used
    rcases hpages with ⟨rfl, -⟩ | ⟨Ps', Qs', p, hcut, rfl, hpfree, -⟩
    · rfl
    · rw [hcut]
      refine and_congr_left fun hafree => ?_
      have hap : a ≠ p := by
        rintro rfl
        rw [hfree, hpfree] at hafree
        cases hafree
      simp [hap]
  have hused : ∀ a, Used h' parts' a ↔ Used h (Ps ++ (us ++ b :: vs) :: Qs) a ∧ a ≠ b := by
    intro a
    rw [hin]
    by_cases hab : a = b'
    · rw [hab, hb'free]
      constructor
      · rintro ⟨-, ⟨⟩⟩
      · rintro ⟨hu, hne⟩
        exact absurd (hjoined.old hu) hne
    · rw [← hset a hab]
      have := hjoined.used a
      unfold Used at this ⊢
      rw [this]
      exact ⟨fun hor => hor.resolve_left hab, .inr⟩
  refine ⟨h', parts', free', hrun, hgood, hused, fun a ha => ?_, ?_, hpage.trans hjoined.page, hnextPage.trans hjoined.nextPage,
    htaken.trans hjoined.taken⟩
  · rw [hsize]
    refine hjoined.sizes a ?_
    rintro rfl
    have := ha.2
    rw [hb'free] at this
    cases this
  · rcases hpages with ⟨-, hsame⟩ | ⟨Ps', Qs', p, hcut, rfl, hpfree, herase⟩
    · exact .inl (hsame.trans hjoined.pages)
    · refine .inr ⟨p, ?_, herase.trans (by rw [← hjoined.pages]; rfl), fun a ha => ?_⟩
      · rw [← hjoined.pages, ht2.blocks.pages, hcut]
        simp
      · have hain := ((hin a).1 ha).1
        have hpin : p ∈ (Ps ++ (us' ++ b' :: vs') :: Qs).flatten := by
          rw [hcut]
          simp
        have hpa : p ≠ a := by
          rintro rfl
          have hpused := ha.2
          rw [hfree, hpfree] at hpused
          cases hpused
        have hsymm : Std.Symm fun x y => SmallRun.Apart x (h2.size (.at x)) y (h2.size (.at y)) := ⟨fun _ _ h => h.symm⟩
        have hapart : SmallRun.Apart p (h2.size (.at p)) a (h2.size (.at a)) :=
          List.Pairwise.forall (R := fun x y => SmallRun.Apart x (h2.size (.at x)) y (h2.size (.at y))) ht2.blocks.blocks_apart
            hpin hain hpa
        have hwhole : [p] ∈ Ps ++ (us' ++ b' :: vs') :: Qs := by
          rw [hcut]
          exact Blocks.mem_part _ _ _
        have htile : p + h2.size (.at p) = p + c.pageSize := (ht2.blocks.tiles _ hwhole).2.2
        rw [Nat.add_left_cancel htile] at hapart
        rwa [hsize]

end Tiled

/-- **Next to the head of the ring the block joins the head**, which has no place in the free list. -/
theorem freeMedium_head {c : Sizes} {h : MediumHeap} {b : Nat} (hfree : h.isFree (.at b) = false)
    (hd : h.page .dummyBlock = dummyPage ∧ h.isFree .dummyBlock = true) (hhead : ¬ h.FreesApart b) : h.freeMedium c b = none := by
  obtain ⟨hside, hpage⟩ := not_not.1 hhead
  unfold MediumHeap.freeMedium
  rw [if_neg (by rw [hfree]; rintro ⟨⟩)]
  have hnext : ∀ {g : MediumHeap} {r : Ref}, g.next r = .dummyBlock → g.isFree .dummyBlock = true →
      g.page .dummyBlock = g.page r → g.joinNext r = none := fun {g r} h1 h2 h3 => by
    unfold MediumHeap.joinNext
    dsimp only
    rw [h1, if_pos ⟨h2, h3⟩]
    rfl
  by_cases hprev : h.prev (.at b) = .dummyBlock
  · have hnone : h.joinPrev (.at b) = none := by
      unfold MediumHeap.joinPrev
      dsimp only
      rw [hprev, if_pos ⟨hd.2, hd.1.trans hpage.symm⟩]
      rfl
    rw [hnone]
  · have hlast := hside.resolve_left hprev
    by_cases hjoin : h.isFree (h.prev (.at b)) = true ∧ h.page (h.prev (.at b)) = h.page (.at b)
    · obtain ⟨g, hg, hgnext, hgfree, hgpage⟩ : ∃ g, h.joinPrev (.at b) = some (g, h.prev (.at b)) ∧
          g.next (h.prev (.at b)) = h.next (.at b) ∧ g.isFree = h.isFree ∧ g.page = h.page := by
        unfold MediumHeap.joinPrev MediumHeap.removeFreeLink
        dsimp only
        rw [if_pos hjoin, if_neg hprev]
        refine ⟨_, rfl, ?_, rfl, rfl⟩
        exact Function.update_self ..
      rw [hg]
      dsimp only
      rw [hnext (hgnext.trans hlast) (by rw [hgfree]; exact hd.2) (by rw [hgpage, hd.1, hjoin.2, hpage])]
    · have hself : h.joinPrev (.at b) = some (h, .at b) := if_neg hjoin
      rw [hself]
      dsimp only
      rw [hnext hlast hd.2 (hd.1.trans hpage.symm)]

end Heap
end ObjectScript
