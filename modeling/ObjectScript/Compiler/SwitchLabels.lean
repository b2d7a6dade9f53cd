import ObjectScript.Compiler.Switch
/-!
# The labels of a switch

The jumps of the header are fixed while the body is written, each when its label gets a position.  What is fixed in the end
is said without the table of labels: a jump behind every comparison, one for every label to where it is in the body, and
that of a default label that was added to the end (`writeOpcodes_switch`).
-/
namespace ObjectScript
namespace Compiler
namespace Switch

variable {α : Type}

def headCode : List (Option α) → List (Option (Instr α))
  | [] => []
  | none :: es => headCode es
  | some e :: es => some (.compare e) :: none :: none :: headCode es

def headFixes : List (Option α) → Nat → List (Nat × Nat)
  | [], _ => []
  | none :: es, pos => headFixes es pos
  | some _ :: es, pos => (pos + 1, pos + 3) :: headFixes es (pos + 3)

/-- The labels after the header, with the default jump at `d`. -/
def headLabels (d : Nat) : List (Option α) → Nat → List (CaseLabel α)
  | [], _ => []
  | none :: es, pos => { exp := none, from_pos := d, to_pos := 0 } :: headLabels d es pos
  | some e :: es, pos => { exp := some e, from_pos := pos + 2, to_pos := 0 } :: headLabels d es (pos + 3)

def bodyEmission : Body α → Nat → Emission α
  | .nil, _ => .empty
  | .label _ rest, q => bodyEmission rest q
  | .stmt s rest, q => (writeOpcodes s q).append (bodyEmission rest (q + (writeOpcodes s q).code.length))

def bodyTargets : Body α → Nat → List Nat
  | .nil, _ => []
  | .label _ rest, q => q :: bodyTargets rest q
  | .stmt s rest, q => bodyTargets rest (q + (writeOpcodes s q).code.length)

theorem setCaseLabelJump_at {pre post : List (CaseLabel α)} {key : Nat} (h : pre.length = key) (sw : CaseLabel α) (pos : Nat) :
    setCaseLabelJump (pre ++ sw :: post) key pos =
      (pre ++ { sw with from_pos := pos } :: post, if sw.to_pos ≠ 0 ∧ pos ≠ 0 then [(pos, sw.to_pos)] else []) := by
  subst h
  simp [setCaseLabelJump]

theorem setCaseLabelPos_at {pre post : List (CaseLabel α)} {key : Nat} (h : pre.length = key) (sw : CaseLabel α) (pos : Nat) :
    setCaseLabelPos (pre ++ sw :: post) key pos =
      (pre ++ { sw with to_pos := pos } :: post, if pos ≠ 0 ∧ sw.from_pos ≠ 0 then [(sw.from_pos, pos)] else []) := by
  subst h
  simp [setCaseLabelPos]

theorem writeHeader_eq : ∀ (es : List (Option α)) (key pos : Nat) (pre : List (CaseLabel α)), pre.length = key →
    writeHeader es key pos (pre ++ es.map fun e => { exp := e, from_pos := 0, to_pos := 0 }) =
      ({ code := headCode es, fixes := headFixes es pos, breaks := [], continues := [] }, pre ++ headLabels 0 es pos)
  | [], key, pos, pre, _ => by simp [writeHeader, headCode, headFixes, headLabels, Emission.empty]
  | none :: es, key, pos, pre, h => by
    have ih := writeHeader_eq es (key + 1) pos (pre ++ [{ exp := none, from_pos := 0, to_pos := 0 }]) (by simp [h])
    simp only [List.append_assoc, List.singleton_append] at ih
    simp only [writeHeader, List.map_cons, ih, headCode, headFixes, headLabels]
  | some e :: es, key, pos, pre, h => by
    have ih := writeHeader_eq es (key + 1) (pos + 3) (pre ++ [{ exp := some e, from_pos := pos + 2, to_pos := 0 }]) (by simp [h])
    simp only [List.append_assoc, List.singleton_append] at ih
    simp only [writeHeader, List.map_cons, setCaseLabelJump_at h, ih, headCode, headFixes, headLabels]
    simp

@[simp] theorem length_headLabels (d : Nat) : ∀ (es : List (Option α)) (pos : Nat), (headLabels d es pos).length = es.length
  | [], _ => rfl
  | none :: es, pos => by rw [headLabels, List.length_cons, List.length_cons, length_headLabels d es pos]
  | some _ :: es, pos => by rw [headLabels, List.length_cons, List.length_cons, length_headLabels d es (pos + 3)]

theorem headLabels_of_some (d d' : Nat) : ∀ (es : List (Option α)) (pos : Nat), es.countP Option.isNone = 0 →
    headLabels d es pos = headLabels d' es pos
  | [], _, _ => rfl
  | none :: es, pos, h => by simp at h
  | some e :: es, pos, h => by
    rw [headLabels, headLabels, headLabels_of_some d d' es (pos + 3) (by simpa using h)]

/-- The default jump is that of the label without an expression. -/
theorem setCaseLabelJump_default (d : Nat) : ∀ (es : List (Option α)) (pos key : Nat) (pre : List (CaseLabel α)),
    pre.length = key → es.countP Option.isNone = 1 →
    setCaseLabelJump (pre ++ headLabels 0 es pos) (key + es.findIdx Option.isNone) d = (pre ++ headLabels d es pos, [])
  | [], pos, key, pre, _, h => by simp at h
  | none :: es, pos, key, pre, hkey, h => by
    have hnone : es.countP Option.isNone = 0 := by simpa using h
    have hidx : (none :: es).findIdx Option.isNone = 0 := by simp [List.findIdx_cons]
    rw [hidx, headLabels, Nat.add_zero, setCaseLabelJump_at hkey, headLabels, headLabels_of_some d 0 es pos hnone]
    simp
  | some e :: es, pos, key, pre, hkey, h => by
    have hsome : es.countP Option.isNone = 1 := by simpa using h
    have hidx : (some e :: es).findIdx Option.isNone = es.findIdx Option.isNone + 1 := by simp [List.findIdx_cons]
    have ih := setCaseLabelJump_default d es (pos + 3) (key + 1) (pre ++ [{ exp := some e, from_pos := pos + 2, to_pos := 0 }])
      (by simp [hkey]) hsome
    simp only [List.append_assoc, List.singleton_append] at ih
    rw [hidx, headLabels, headLabels, ← ih]
    congr 1
    omega

/-- Every label of the body gets its position, and its jump is fixed. -/
theorem writeBody_spec : ∀ (body : Body α) (q key : Nat) (pre labels post : List (CaseLabel α)), pre.length = key → q ≠ 0 →
    labels.length = body.caseLabels.length → (∀ sw ∈ labels, sw.from_pos ≠ 0) →
    (writeBody body q key (pre ++ (labels ++ post))).1.code = (bodyEmission body q).code ∧
    (writeBody body q key (pre ++ (labels ++ post))).1.breaks = (bodyEmission body q).breaks ∧
    (writeBody body q key (pre ++ (labels ++ post))).1.continues = (bodyEmission body q).continues ∧
    (writeBody body q key (pre ++ (labels ++ post))).1.fixes.Perm
      (List.zipWith (fun sw t => (sw.from_pos, t)) labels (bodyTargets body q) ++ (bodyEmission body q).fixes) ∧
    (writeBody body q key (pre ++ (labels ++ post))).2 =
      pre ++ (List.zipWith (fun sw t => { sw with to_pos := t }) labels (bodyTargets body q) ++ post)
  | .nil, q, key, pre, labels, post, _, _, hlen, _ => by
    obtain rfl : labels = [] := List.length_eq_zero_iff.1 hlen
    simp [writeBody, bodyEmission, bodyTargets, Emission.empty]
  | .label e rest, q, key, pre, labels, post, hkey, hq, hlen, hfrom => by
    obtain ⟨sw, labels, rfl⟩ : ∃ sw tail, labels = sw :: tail := by
      cases labels with
      | nil => simp [Body.caseLabels] at hlen
      | cons sw tail => exact ⟨sw, tail, rfl⟩
    have hsw : sw.from_pos ≠ 0 := hfrom sw (List.mem_cons_self ..)
    have ih := writeBody_spec rest q (key + 1) (pre ++ [{ sw with to_pos := q }]) labels post (by simp [hkey]) hq
      (by simpa [Body.caseLabels] using hlen) fun sw' h => hfrom sw' (List.mem_cons_of_mem _ h)
    simp only [List.append_assoc, List.singleton_append] at ih
    simp only [writeBody, List.cons_append, setCaseLabelPos_at hkey, bodyEmission, bodyTargets, List.zipWith_cons_cons,
      if_pos (And.intro hq hsw)]
    refine ⟨ih.1, ih.2.1, ih.2.2.1, ?_, ih.2.2.2.2⟩
    exact ih.2.2.2.1.cons _
  | .stmt s rest, q, key, pre, labels, post, hkey, hq, hlen, hfrom => by
    have ih := writeBody_spec rest (q + (writeOpcodes s q).code.length) key pre labels post hkey (by omega) hlen hfrom
    simp only [writeBody, Emission.append, bodyEmission, bodyTargets]
    refine ⟨by rw [ih.1], by rw [ih.2.1], by rw [ih.2.2.1], ?_, ih.2.2.2.2⟩
    refine (ih.2.2.2.1.append_left _).trans ?_
    rw [← List.append_assoc, ← List.append_assoc]
    exact List.perm_append_comm.append_right _

theorem length_bodyTargets : ∀ (body : Body α) (q : Nat), (bodyTargets body q).length = body.caseLabels.length
  | .nil, _ => rfl
  | .label _ rest, q => by rw [bodyTargets, Body.caseLabels, List.length_cons, List.length_cons, length_bodyTargets rest q]
  | .stmt s rest, q => by rw [bodyTargets, Body.caseLabels, length_bodyTargets rest _]

theorem le_bodyTargets : ∀ (body : Body α) (q : Nat), ∀ t ∈ bodyTargets body q, q ≤ t
  | .nil, _, t, h => by simp [bodyTargets] at h
  | .label _ rest, q, t, h => by
    rcases List.mem_cons.1 h with rfl | h
    · exact Nat.le_refl _
    · exact le_bodyTargets rest q t h
  | .stmt s rest, q, t, h => Nat.le_trans (Nat.le_add_right _ _) (le_bodyTargets rest _ t h)

theorem headLabels_append (d : Nat) : ∀ (es : List (Option α)) (pos : Nat),
    headLabels d (es ++ [none]) pos = headLabels d es pos ++ [{ exp := none, from_pos := d, to_pos := 0 }]
  | [], _ => rfl
  | none :: es, pos => by rw [List.cons_append, headLabels, headLabels_append d es pos]; rfl
  | some e :: es, pos => by rw [List.cons_append, headLabels, headLabels_append d es (pos + 3)]; rfl

theorem headCode_append : ∀ es : List (Option α), headCode (es ++ [none]) = headCode es
  | [] => rfl
  | none :: es => by rw [List.cons_append, headCode, headCode_append es]; rfl
  | some e :: es => by rw [List.cons_append, headCode, headCode_append es]; rfl

theorem headFixes_append : ∀ (es : List (Option α)) (pos : Nat), headFixes (es ++ [none]) pos = headFixes es pos
  | [], _ => rfl
  | none :: es, pos => by rw [List.cons_append, headFixes, headFixes_append es pos]; rfl
  | some e :: es, pos => by rw [List.cons_append, headFixes, headFixes_append es (pos + 3)]; rfl

theorem switchLabels_countP {body : Body α} (h : body.caseLabels.countP Option.isNone ≤ 1) :
    body.switchLabels.countP Option.isNone = 1 := by
  by_cases hany : body.caseLabels.any Option.isNone
  · have hpos : 0 < body.caseLabels.countP Option.isNone := List.countP_pos_iff.2 (List.any_eq_true.1 hany)
    rw [Body.switchLabels, if_pos hany]
    omega
  · have hzero : body.caseLabels.countP Option.isNone = 0 :=
      List.countP_eq_zero.2 fun x hx hnone => hany (List.any_eq_true.2 ⟨x, hx, hnone⟩)
    rw [Body.switchLabels, if_neg hany, List.countP_append, hzero]
    rfl

theorem headCode_switchLabels (body : Body α) : headCode body.switchLabels = headCode body.caseLabels := by
  rw [Body.switchLabels]
  split
  · rfl
  · exact headCode_append _

theorem headFixes_switchLabels (body : Body α) (pos : Nat) :
    headFixes body.switchLabels pos = headFixes body.caseLabels pos := by
  rw [Body.switchLabels]
  split
  · rfl
  · exact headFixes_append _ _

/-- The label that is added to the end of a switch without a default. -/
def addedLabel (d : Nat) (body : Body α) : List (CaseLabel α) :=
  if body.caseLabels.any Option.isNone then [] else [{ exp := none, from_pos := d, to_pos := 0 }]

theorem headLabels_switchLabels (d : Nat) (body : Body α) (pos : Nat) :
    headLabels d body.switchLabels pos = headLabels d body.caseLabels pos ++ addedLabel d body := by
  rw [Body.switchLabels, addedLabel]
  split
  · exact (List.append_nil _).symm
  · exact headLabels_append d _ pos

theorem headLabels_ne_zero {d : Nat} (hd : d ≠ 0) : ∀ (es : List (Option α)) (pos : Nat), ∀ sw ∈ headLabels d es pos, sw.from_pos ≠ 0
  | [], _, sw, h => by simp [headLabels] at h
  | none :: es, pos, sw, h => by
    rcases List.mem_cons.1 h with rfl | h
    · exact hd
    · exact headLabels_ne_zero hd es pos sw h
  | some e :: es, pos, sw, h => by
    rcases List.mem_cons.1 h with rfl | h
    · exact Nat.succ_ne_zero _
    · exact headLabels_ne_zero hd es (pos + 3) sw h

theorem closeLabels_append (xs ys : List (CaseLabel α)) (pos : Nat) :
    closeLabels (xs ++ ys) pos = closeLabels xs pos ++ closeLabels ys pos := by
  rw [closeLabels, List.flatMap_append]
  rfl

theorem closeLabels_set (pos : Nat) : ∀ (labels : List (CaseLabel α)) (targets : List Nat), (∀ t ∈ targets, t ≠ 0) →
    closeLabels (List.zipWith (fun sw t => { sw with to_pos := t }) labels targets) pos = []
  | [], _, _ => rfl
  | _ :: _, [], _ => rfl
  | sw :: labels, t :: targets, h => by
    have ih := closeLabels_set pos labels targets fun t' ht => h t' (List.mem_cons_of_mem _ ht)
    have ht := h t (List.mem_cons_self ..)
    rw [List.zipWith_cons_cons, ← List.singleton_append, closeLabels_append, ih]
    simp [closeLabels, ht]

theorem closeLabels_added {d pos : Nat} (hd : d ≠ 0) (hpos : pos ≠ 0) (body : Body α) :
    closeLabels (addedLabel d body) pos = if body.caseLabels.any Option.isNone then [] else [(d, pos)] := by
  rw [addedLabel]
  split
  · rfl
  · simp [closeLabels, hd, hpos]

/-- The position of the default jump, behind the header of a switch. -/
def headEnd (body : Body α) (pos : Nat) : Nat := pos + 1 + (headCode body.caseLabels).length

def switchEnd (body : Body α) (pos : Nat) : Nat :=
  headEnd body pos + 1 + (bodyEmission body (headEnd body pos + 1)).code.length

/-- The jumps to the labels; that of a default label which was added goes to the end. -/
def labelFixes (body : Body α) (pos : Nat) : List (Nat × Nat) :=
  List.zipWith (fun sw t => (sw.from_pos, t)) (headLabels (headEnd body pos) body.switchLabels (pos + 1))
    (bodyTargets body (headEnd body pos + 1) ++ [switchEnd body pos])

theorem zipWith_extra {β γ δ : Type} (f : β → γ → δ) (zs : List γ) : ∀ (xs : List β) (ys : List γ), xs.length = ys.length →
    List.zipWith f xs (ys ++ zs) = List.zipWith f xs ys
  | [], ys, _ => by simp
  | x :: xs, y :: ys, h => by
    rw [List.cons_append, List.zipWith_cons_cons, List.zipWith_cons_cons, zipWith_extra f zs xs ys (Nat.succ.inj h)]

theorem labelFixes_eq (body : Body α) (pos : Nat) : labelFixes body pos =
    List.zipWith (fun sw t => (sw.from_pos, t)) (headLabels (headEnd body pos) body.caseLabels (pos + 1))
      (bodyTargets body (headEnd body pos + 1)) ++
      if body.caseLabels.any Option.isNone then [] else [(headEnd body pos, switchEnd body pos)] := by
  have hlen := length_bodyTargets body (headEnd body pos + 1)
  by_cases hany : body.caseLabels.any Option.isNone
  · rw [labelFixes, Body.switchLabels, if_pos hany, if_pos hany, zipWith_extra _ _ _ _ (by rw [length_headLabels, hlen]),
      List.append_nil]
  · rw [labelFixes, Body.switchLabels, if_neg hany, if_neg hany, headLabels_append,
      List.zipWith_append (by rw [length_headLabels, hlen])]
    rfl

/-- **What is written for a switch**. -/
theorem writeOpcodes_switch (e : α) (body : Body α) (pos : Nat) (hone : body.caseLabels.countP Option.isNone ≤ 1) :
    (writeOpcodes (.switch e body) pos).code =
      some (.store e) :: (headCode body.caseLabels ++ none :: (bodyEmission body (headEnd body pos + 1)).code) ∧
    (writeOpcodes (.switch e body) pos).breaks = [] ∧
    (writeOpcodes (.switch e body) pos).continues = (bodyEmission body (headEnd body pos + 1)).continues ∧
    (writeOpcodes (.switch e body) pos).fixes.Perm (headFixes body.caseLabels (pos + 1) ++ (labelFixes body pos ++
      ((bodyEmission body (headEnd body pos + 1)).fixes ++
        (bodyEmission body (headEnd body pos + 1)).breaks.map (·, switchEnd body pos)))) := by
  have hd : headEnd body pos ≠ 0 := by
    rw [headEnd]
    omega
  have hend : switchEnd body pos ≠ 0 := by
    rw [switchEnd]
    omega
  have htargets : ∀ t ∈ bodyTargets body (headEnd body pos + 1), t ≠ 0 := fun t ht => by
    have := le_bodyTargets body _ t ht
    omega
  have hcount := switchLabels_countP hone
  have hlabels := headLabels_switchLabels (headEnd body pos) body (pos + 1)
  have hclose := closeLabels_added hd hend body
  have hheader := writeHeader_eq body.switchLabels 0 (pos + 1) [] rfl
  have hjump := setCaseLabelJump_default (headEnd body pos) body.switchLabels (pos + 1) 0 [] rfl hcount
  simp only [List.nil_append, Nat.zero_add] at hheader hjump
  obtain ⟨hbcode, hbbreaks, hbcontinues, hbfixes, hblabels⟩ := writeBody_spec body (headEnd body pos + 1) 0 []
    (headLabels (headEnd body pos) body.caseLabels (pos + 1)) (addedLabel (headEnd body pos) body) rfl (Nat.succ_ne_zero _)
    (length_headLabels _ _ _) (headLabels_ne_zero hd _ _)
  simp only [List.nil_append] at hbcode hbbreaks hbcontinues hbfixes hblabels
  have hdpos : pos + 1 + (headCode body.caseLabels).length = headEnd body pos := rfl
  have hepos : headEnd body pos + 1 + (bodyEmission body (headEnd body pos + 1)).code.length = switchEnd body pos := rfl
  simp only [writeOpcodes, hheader, headCode_switchLabels, headFixes_switchLabels, hdpos, hjump, hlabels, hbcode, hbbreaks,
    hbcontinues, hblabels, hepos, closeLabels_append, closeLabels_set _ _ _ htargets, hclose, labelFixes_eq, true_and,
    List.nil_append, List.append_nil]
  rw [List.append_assoc, List.append_assoc]
  refine List.Perm.append_left _ ?_
  refine (hbfixes.append_right _).trans ?_
  simp only [List.append_assoc]
  refine List.Perm.append_left _ ?_
  rw [← List.append_assoc, ← List.append_assoc]
  exact List.perm_append_comm.append_right _

end Switch
end Compiler
end ObjectScript
