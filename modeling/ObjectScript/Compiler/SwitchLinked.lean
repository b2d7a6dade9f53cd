import ObjectScript.Compiler.SwitchRuns
/-!
# The code of a switch

Every place that is left for a jump is fixed once: by the statement it belongs to, or as a `break` or `continue` by the loop
or switch outside (`sites_perm`).  So all that is written lies in the code in the end (`compile_placed`), and the code does
what the program says as long as nothing but the header of a switch uses local variable 0 (`switch_runs`).
-/
namespace ObjectScript
namespace Compiler
namespace Switch

variable {α V σ : Type}

def holes : Nat → List (Option (Instr α)) → List Nat
  | _, [] => []
  | pos, none :: xs => pos :: holes (pos + 1) xs
  | pos, some _ :: xs => holes (pos + 1) xs

def sites (e : Emission α) : List Nat := e.fixes.map Prod.fst ++ (e.breaks ++ e.continues)

theorem holes_append : ∀ (pos : Nat) (xs ys : List (Option (Instr α))), holes pos (xs ++ ys) = holes pos xs ++ holes (pos + xs.length) ys
  | _, [], _ => rfl
  | pos, none :: xs, ys => by
    rw [List.cons_append, holes, holes_append (pos + 1) xs ys, holes, List.cons_append, List.length_cons, Nat.add_right_comm,
      Nat.add_assoc pos]
  | pos, some _ :: xs, ys => by
    rw [List.cons_append, holes, holes_append (pos + 1) xs ys, holes, List.length_cons, Nat.add_right_comm, Nat.add_assoc pos]

theorem mem_holes : ∀ {pos : Nat} {xs : List (Option (Instr α))} {q : Nat}, q ∈ holes pos xs → ∃ i, q = pos + i ∧ xs[i]? = some none
  | pos, [], q, h => by simp [holes] at h
  | pos, none :: xs, q, h => by
    rcases List.mem_cons.1 h with rfl | h
    · exact ⟨0, rfl, rfl⟩
    · obtain ⟨i, rfl, hi⟩ := mem_holes h
      exact ⟨i + 1, by omega, hi⟩
  | pos, some _ :: xs, q, h => by
    obtain ⟨i, rfl, hi⟩ := mem_holes (show q ∈ holes (pos + 1) xs from h)
    exact ⟨i + 1, by omega, hi⟩

theorem nodup_holes : ∀ (pos : Nat) (xs : List (Option (Instr α))), (holes pos xs).Nodup
  | _, [] => List.nodup_nil
  | pos, none :: xs => by
    refine List.nodup_cons.2 ⟨fun h => ?_, nodup_holes (pos + 1) xs⟩
    obtain ⟨i, hi, -⟩ := mem_holes h
    omega
  | pos, some _ :: xs => nodup_holes (pos + 1) xs

theorem sites_append (e e' : Emission α) : (sites (e.append e')).Perm (sites e ++ sites e') := by
  refine List.perm_iff_count.2 fun a => ?_
  simp only [sites, Emission.append, List.map_append, List.count_append]
  omega

theorem length_switchLabels_le (body : Body α) : body.switchLabels.length ≤ body.caseLabels.length + 1 := by
  rw [Body.switchLabels]
  split
  · exact Nat.le_succ _
  · exact Nat.le_of_eq List.length_append

/-- The header leaves two places for every case, and one for the default jump. -/
theorem head_holes (d : Nat) : ∀ (es : List (Option α)) (pos : Nat),
    ((headFixes es pos).map Prod.fst ++ (headLabels d es pos).map CaseLabel.from_pos).Perm
      (holes pos (headCode es) ++ List.replicate (es.countP Option.isNone) d)
  | [], _ => .refl _
  | none :: es, pos => by
    have ih := head_holes d es pos
    refine List.perm_iff_count.2 fun a => ?_
    have hcount := ih.count_eq a
    simp only [headFixes, headLabels, headCode, List.map_cons, List.count_append, List.count_cons, List.countP_cons, Option.isNone_none,
      if_true, List.replicate_succ] at hcount ⊢
    omega
  | some e :: es, pos => by
    have ih := head_holes d es (pos + 3)
    refine List.perm_iff_count.2 fun a => ?_
    have hcount := ih.count_eq a
    have hholes : holes pos (headCode (some e :: es)) = (pos + 1) :: (pos + 2) :: holes (pos + 3) (headCode es) := rfl
    rw [hholes]
    simp only [headFixes, headLabels, List.map_cons, List.count_append, List.count_cons, List.countP_cons, Option.isNone_some,
      Bool.false_eq_true, if_false, Nat.add_zero] at hcount ⊢
    omega

theorem map_fst_zipWith : ∀ (labels : List (CaseLabel α)) (ts : List Nat), labels.length ≤ ts.length →
    (List.zipWith (fun sw t => (sw.from_pos, t)) labels ts).map Prod.fst = labels.map CaseLabel.from_pos
  | [], _, _ => by simp
  | sw :: labels, t :: ts, h => by
    rw [List.zipWith_cons_cons, List.map_cons, List.map_cons, map_fst_zipWith labels ts (Nat.le_of_succ_le_succ h)]

mutual
/-- **Every place left for a jump** belongs to one jump. -/
theorem sites_perm : ∀ (s : Stmt α) (pos : Nat), s.oneDefault → (sites (writeOpcodes s pos)).Perm (holes pos (writeOpcodes s pos).code)
  | .nop, _, _ => by simp [writeOpcodes, sites, Emission.empty, holes]
  | .exec a, _, _ => by simp [writeOpcodes, sites, holes]
  | .seq s t, pos, h => by
    simp only [Stmt.oneDefault, Bool.and_eq_true] at h
    rw [writeOpcodes]
    refine (sites_append _ _).trans ?_
    rw [Emission.append, holes_append]
    exact (sites_perm s pos h.1).append (sites_perm t _ h.2)
  | .ifThen a s, pos, h => by
    have ih := sites_perm s (pos + 2) (by simpa only [Stmt.oneDefault] using h)
    simp only [writeOpcodes, sites, List.map_cons, List.cons_append, holes]
    exact ih.cons _
  | .loop body post, start, h => by
    simp only [Stmt.oneDefault, Bool.and_eq_true] at h
    have ihBody := sites_perm body start h.1
    have ihPost := sites_perm post (start + (writeOpcodes body start).code.length) h.2
    refine List.perm_iff_count.2 fun a => ?_
    have hcountBody := ihBody.count_eq a
    have hcountPost := ihPost.count_eq a
    simp only [writeOpcodes, sites, List.map_append, List.map_map, List.count_append, holes_append, holes, List.count_nil,
      Function.comp_def, List.map_id'] at hcountBody hcountPost ⊢
    omega
  | .breakStmt, _, _ => by simp [writeOpcodes, sites, holes]
  | .continueStmt, _, _ => by simp [writeOpcodes, sites, holes]
  | .switch e body, pos, h => by
    simp only [Stmt.oneDefault, Bool.and_eq_true, decide_eq_true_eq] at h
    obtain ⟨hcode, hbreaks, hcontinues, hperm⟩ := writeOpcodes_switch e body pos h.1
    have ih := body_sites_perm body (headEnd body pos + 1) h.2
    have hhead := head_holes (headEnd body pos) body.switchLabels (pos + 1)
    rw [headCode_switchLabels, headFixes_switchLabels, switchLabels_countP h.1] at hhead
    have hlabels : (labelFixes body pos).map Prod.fst =
        (headLabels (headEnd body pos) body.switchLabels (pos + 1)).map CaseLabel.from_pos := by
      refine map_fst_zipWith _ _ ?_
      rw [length_headLabels, List.length_append, length_bodyTargets]
      exact length_switchLabels_le body
    have hd : pos + 1 + (headCode body.caseLabels).length = headEnd body pos := rfl
    refine List.perm_iff_count.2 fun a => ?_
    have hcount := ih.count_eq a
    have hcountHead := hhead.count_eq a
    have hcountFixes := (hperm.map Prod.fst).count_eq a
    simp only [sites, List.map_append, List.map_map, List.count_append, hlabels, Function.comp_def, List.map_id',
      List.replicate_one, List.count_cons, List.count_nil] at hcount hcountHead hcountFixes ⊢
    rw [hcode, hbreaks, hcontinues]
    simp only [holes, holes_append, hd, List.count_append, List.count_cons, List.count_nil]
    omega

theorem body_sites_perm : ∀ (body : Body α) (q : Nat), body.oneDefault →
    (sites (bodyEmission body q)).Perm (holes q (bodyEmission body q).code)
  | .nil, _, _ => by simp [bodyEmission, sites, Emission.empty, holes]
  | .label _ rest, q, h => body_sites_perm rest q (by simpa only [Body.oneDefault] using h)
  | .stmt s rest, q, h => by
    simp only [Body.oneDefault, Bool.and_eq_true] at h
    rw [bodyEmission]
    refine (sites_append _ _).trans ?_
    rw [Emission.append, holes_append]
    exact (sites_perm s q h.1).append (body_sites_perm rest _ h.2)
end

@[simp] theorem length_fixJumpOpcode (code : List (Instr α)) (fix : Nat × Nat) : (fixJumpOpcode code fix).length = code.length :=
  List.length_set

theorem fixed_of_not_mem : ∀ (fixes : List (Nat × Nat)) (code : List (Instr α)) {q : Nat}, q ∉ fixes.map Prod.fst →
    (fixes.foldl fixJumpOpcode code)[q]? = code[q]?
  | [], _, _, _ => rfl
  | fix :: fixes, code, q, h => by
    rw [List.map_cons, List.mem_cons, not_or] at h
    rw [List.foldl_cons, fixed_of_not_mem fixes _ h.2, fixJumpOpcode, List.getElem?_set_ne (fun heq => h.1 heq.symm)]

theorem fixed_of_mem : ∀ (fixes : List (Nat × Nat)) (code : List (Instr α)) {q t : Nat}, (fixes.map Prod.fst).Nodup →
    (q, t) ∈ fixes → q < code.length → (fixes.foldl fixJumpOpcode code)[q]? = some (jumpTo q t)
  | [], _, _, _, _, h, _ => by simp at h
  | fix :: fixes, code, q, t, hnodup, h, hlt => by
    rw [List.map_cons, List.nodup_cons] at hnodup
    rw [List.foldl_cons]
    rcases List.mem_cons.1 h with rfl | h
    · rw [fixed_of_not_mem fixes _ hnodup.1, fixJumpOpcode, List.getElem?_set_self hlt, jumpTo]
    · exact fixed_of_mem fixes _ hnodup.2 h (by rw [length_fixJumpOpcode]; exact hlt)

/-- **What is compiled is in the code.** -/
theorem compile_placed {s : Stmt α} {code : List (Instr α)} (h : compile s = some code) :
    s.oneDefault ∧ Placed code 0 0 0 (writeOpcodes s 0) ∧ code.length = (writeOpcodes s 0).code.length := by
  rw [compile] at h
  split at h
  · rename_i hcond
    obtain ⟨hone, hbreaks, hcontinues⟩ := hcond
    obtain rfl := Option.some.inj h
    have hperm := sites_perm s 0 hone
    rw [sites, hbreaks, hcontinues, List.append_nil, List.append_nil] at hperm
    have hnodup : ((writeOpcodes s 0).fixes.map Prod.fst).Nodup := hperm.nodup_iff.2 (nodup_holes 0 _)
    refine ⟨hone, ⟨fun i x hx => ?_, fun q t hq => ?_, fun q hq => ?_, fun q hq => ?_⟩, ?_⟩
    · have hnot : i ∉ (writeOpcodes s 0).fixes.map Prod.fst := fun hi => by
        obtain ⟨j, hj, hnone⟩ := mem_holes (hperm.mem_iff.1 hi)
        rw [Nat.zero_add] at hj
        subst hj
        rw [hx] at hnone
        cases hnone
      rw [Nat.zero_add, fixed_of_not_mem _ _ hnot, List.getElem?_map, hx]
      rfl
    · obtain ⟨i, hi, hnone⟩ := mem_holes (hperm.mem_iff.1 (List.mem_map.2 ⟨_, hq, rfl⟩))
      have hlt := (List.getElem?_eq_some_iff.1 hnone).1
      refine fixed_of_mem _ _ hnodup hq ?_
      rw [List.length_map]
      simp only [Nat.zero_add] at hi
      omega
    · rw [hbreaks] at hq
      cases hq
    · rw [hcontinues] at hq
      cases hq
    · have hlen : ∀ (fixes : List (Nat × Nat)) (code : List (Instr α)), (fixes.foldl fixJumpOpcode code).length = code.length := by
        intro fixes
        induction fixes with
        | nil => exact fun _ => rfl
        | cons fix fixes ih => exact fun code => (ih _).trans (length_fixJumpOpcode code fix)
      rw [hlen, List.length_map]
  · cases h

/-- **Switch statements**: where a program ends, its code ends, having done the same to all that is not local variable 0, if
no expression of the program reads that variable and no case expression writes to it. -/
theorem switch_runs (c : Meaning α V σ) (hblind : c.Blind) (s : Stmt α) (code : List (Instr α)) (hcompile : compile s = some code)
    (fuel : Nat) (f g f' : Frame V σ) (hrest : f.rest = g.rest) (hrun : run c fuel s f = some (.normal, f')) :
    ∃ g', f'.rest = g'.rest ∧ Reaches c code (0, g) (code.length, g') := by
  obtain ⟨hone, hplaced, hlen⟩ := compile_placed hcompile
  obtain ⟨g', hg', hreach⟩ := (run_reaches hblind fuel).1 s 0 0 0 f g .normal f' hone hplaced hrest hrun
  refine ⟨g', hg', ?_⟩
  rw [target, Nat.zero_add, ← hlen] at hreach
  exact hreach

/-- What is executed is noted; the value of an expression is its number. -/
def noting : Meaning Nat Nat (List Nat) where
  exec a f := { f with rest := a :: f.rest }
  test a f := (a = 0, f)
  value a f := (a, f)
  identical := Nat.beq

theorem noting_blind : noting.Blind where
  exec a _ _ h := congrArg (a :: ·) h
  test _ _ _ h := ⟨rfl, h⟩
  value _ _ _ h := ⟨rfl, h⟩
  keeps _ _ := rfl

/-- `switch(1){ case 1: 5; break; default: 6 }` -/
def caseFirst : Stmt Nat :=
  .switch 1 (.label (some 1) (.stmt (.exec 5) (.stmt .breakStmt (.label none (.stmt (.exec 6) .nil)))))

theorem switch_runs_first : ∃ g' : Frame Nat (List Nat), [5] = g'.rest ∧
    Reaches noting [.store 1, .compare 1, .jump 1, .jump 1, .jump 2, .exec 5, .jump 1, .exec 6] (0, ⟨0, []⟩) (8, g') :=
  switch_runs noting noting_blind caseFirst _ rfl 10 ⟨0, []⟩ ⟨0, []⟩ ⟨0, [5]⟩ rfl rfl

theorem halt_unique {c : Meaning α V σ} {code : List (Instr α)} {s t u : Nat × Frame V σ} (ht : Reaches c code s t)
    (hu : Reaches c code s u) (hhalt : step c code t = none) (hhalt' : step c code u = none) : t = u := by
  have hdet : Relator.RightUnique fun s t => step c code s = some t := fun _ _ _ h h' => Option.some.inj (h.symm.trans h')
  rcases Relation.ReflTransGen.total_of_right_unique hdet ht hu with h | h
  · rcases Relation.ReflTransGen.cases_head h with heq | ⟨x, hx, -⟩
    · exact heq
    · rw [hhalt] at hx
      cases hx
  · rcases Relation.ReflTransGen.cases_head h with heq | ⟨x, hx, -⟩
    · exact heq.symm
    · rw [hhalt'] at hx
      cases hx

/-- The value of expression 0 is that of local variable 0. -/
def naming : Meaning Nat Nat (List Nat) :=
  { noting with value := fun a f => (if a = 0 then f.first else a, f) }

/-- `switch(3){ case _F: 5; break; default: 6 }` -/
def caseFunction : Stmt Nat :=
  .switch 3 (.label (some 0) (.stmt (.exec 5) (.stmt .breakStmt (.label none (.stmt (.exec 6) .nil)))))

/-- **A case with the running function** is taken whatever the switch value is: the switch value is kept in its place. -/
theorem function_taken : ¬ ∀ (c : Meaning Nat Nat (List Nat)) (s : Stmt Nat) (code : List (Instr Nat)), compile s = some code →
    ∀ (fuel : Nat) (f f' : Frame Nat (List Nat)), run c fuel s f = some (.normal, f') →
      ∃ g', f'.rest = g'.rest ∧ Reaches c code (0, f) (code.length, g') := by
  intro h
  obtain ⟨g', hg', hreach⟩ := h naming caseFunction
    [.store 3, .compare 0, .jump 1, .jump 1, .jump 2, .exec 5, .jump 1, .exec 6] rfl 10 ⟨7, []⟩ ⟨7, [6]⟩ rfl
  have htaken : Reaches naming [.store 3, .compare 0, .jump 1, .jump 1, .jump 2, .exec 5, .jump 1, .exec 6] (0, ⟨7, []⟩) (8, ⟨3, [5]⟩) :=
    .head (b := (1, ⟨3, []⟩)) rfl (.head (b := (3, ⟨3, []⟩)) rfl (.head (b := (5, ⟨3, []⟩)) rfl
      (.head (b := (6, ⟨3, [5]⟩)) rfl (.single rfl))))
  have heq := halt_unique hreach htaken rfl rfl
  obtain rfl : g' = ⟨3, [5]⟩ := congrArg Prod.snd heq
  cases hg'

end Switch
end Compiler
end ObjectScript
