import ObjectScript.Compiler.SwitchLabels
/-!
# Switch statements do what they say

What is written for a statement lies in the code where it was written, and the jumps in it go where they should (`Placed`);
for a switch this says where the header compares and jumps to, and where the statements between the labels are
(`placed_switch`).  From this every statement runs as it should, by induction on its steps (`run_reaches`).
-/
namespace ObjectScript
namespace Compiler
namespace Switch

variable {α V σ : Type}

def jumpTo (pos target : Nat) : Instr α := .jump ((target : Int) - pos - 1)

/-- What was written at `pos` is in the code, with its jumps fixed; its breaks go to `bt` and its continues to `ct`. -/
structure Placed (code : List (Instr α)) (bt ct pos : Nat) (e : Emission α) : Prop where
  opcode : ∀ i x, e.code[i]? = some (some x) → code[pos + i]? = some x
  fixes : ∀ q t, (q, t) ∈ e.fixes → code[q]? = some (jumpTo q t)
  breaks : ∀ q ∈ e.breaks, code[q]? = some (jumpTo q bt)
  continues : ∀ q ∈ e.continues, code[q]? = some (jumpTo q ct)

/-- The statements of a body lie one behind the other. -/
def Laid (code : List (Instr α)) (bt ct : Nat) : Body α → Nat → Prop
  | .nil, _ => True
  | .label _ rest, q => Laid code bt ct rest q
  | .stmt s rest, q => Placed code bt ct q (writeOpcodes s q) ∧ Laid code bt ct rest (q + (writeOpcodes s q).code.length)

def endOf : Body α → Nat → Nat
  | .nil, q => q
  | .label _ rest, q => endOf rest q
  | .stmt s rest, q => endOf rest (q + (writeOpcodes s q).code.length)

/-- The header from `hp` to `d` compares with the expressions of the cases, and jumps to their labels. -/
def Heads (code : List (Instr α)) : Body α → (hp q d : Nat) → Prop
  | .nil, hp, _, d => hp = d
  | .label none rest, hp, q, d => Heads code rest hp q d
  | .label (some e) rest, hp, q, d =>
    code[hp]? = some (.compare e) ∧ code[hp + 1]? = some (jumpTo (hp + 1) (hp + 3)) ∧
      code[hp + 2]? = some (jumpTo (hp + 2) q) ∧ Heads code rest (hp + 3) q d
  | .stmt s rest, hp, q, d => Heads code rest hp (q + (writeOpcodes s q).code.length) d

def defaultPos : Body α → Nat → Option Nat
  | .nil, _ => none
  | .label none _, q => some q
  | .label (some _) rest, q => defaultPos rest q
  | .stmt s rest, q => defaultPos rest (q + (writeOpcodes s q).code.length)

/-- What is written for a switch, as `Placed` says it. -/
structure Switched (code : List (Instr α)) (ct pos : Nat) (e : α) (body : Body α) (d : Nat) : Prop where
  store : code[pos]? = some (.store e)
  heads : Heads code body (pos + 1) (d + 1) d
  jump : code[d]? = some (jumpTo d ((defaultPos body (d + 1)).getD (endOf body (d + 1))))
  laid : Laid code (endOf body (d + 1)) ct body (d + 1)

def target (bt ct next : Nat) : Out → Nat
  | .normal => next
  | .broke => bt
  | .continued => ct

theorem reaches_step {c : Meaning α V σ} {code : List (Instr α)} {s t : Nat × Frame V σ} (h : step c code s = some t) :
    Reaches c code s t :=
  Relation.ReflTransGen.single h

theorem step_jump {c : Meaning α V σ} {code : List (Instr α)} {p t : Nat} (h : code[p]? = some (jumpTo p t)) (f : Frame V σ) :
    step c code (p, f) = some (t, f) := by
  have hpos : ((p : Int) + 1 + ((t : Int) - p - 1)).toNat = t := by omega
  simp only [step, h, jumpTo, Option.map_some, hpos]

theorem Placed.left {code : List (Instr α)} {bt ct pos : Nat} {e e' : Emission α} (h : Placed code bt ct pos (e.append e')) :
    Placed code bt ct pos e where
  opcode i x hx := h.opcode i x (by
    rw [Emission.append, List.getElem?_append_left (List.getElem?_eq_some_iff.1 hx).1]
    exact hx)
  fixes q t hq := h.fixes q t (List.mem_append_left _ hq)
  breaks q hq := h.breaks q (List.mem_append_left _ hq)
  continues q hq := h.continues q (List.mem_append_left _ hq)

theorem Placed.right {code : List (Instr α)} {bt ct pos : Nat} {e e' : Emission α} (h : Placed code bt ct pos (e.append e')) :
    Placed code bt ct (pos + e.code.length) e' where
  opcode i x hx := by
    have := h.opcode (e.code.length + i) x (by
      rw [Emission.append, List.getElem?_append_right (Nat.le_add_right _ _), Nat.add_sub_cancel_left]
      exact hx)
    rwa [← Nat.add_assoc] at this
  fixes q t hq := h.fixes q t (List.mem_append_right _ hq)
  breaks q hq := h.breaks q (List.mem_append_right _ hq)
  continues q hq := h.continues q (List.mem_append_right _ hq)

/-- A selected label: its statements are laid, and control gets to them. -/
theorem select_reaches {c : Meaning α V σ} (hblind : c.Blind) {code : List (Instr α)} {bt ct : Nat} {d : Nat} {v : V} :
    ∀ (body : Body α) (hp q : Nat) (f g : Frame V σ), Heads code body hp q d → Laid code bt ct body q → f.rest = g.rest →
      g.first = v →
      ∃ g', (select c v body f).2.rest = g'.rest ∧
        match (select c v body f).1 with
        | some b => ∃ q', Reaches c code (hp, g) (q', g') ∧ Laid code bt ct b q' ∧ endOf b q' = endOf body q
        | none => Reaches c code (hp, g) (d, g')
  | .nil, hp, q, f, g, hheads, _, hrest, _ => ⟨g, hrest, by obtain rfl : hp = d := hheads; exact .refl⟩
  | .label none rest, hp, q, f, g, hheads, hlaid, hrest, hfirst =>
    select_reaches hblind rest hp q f g hheads hlaid hrest hfirst
  | .stmt s rest, hp, q, f, g, hheads, hlaid, hrest, hfirst =>
    select_reaches hblind rest hp (q + (writeOpcodes s q).code.length) f g hheads hlaid.2 hrest hfirst
  | .label (some e) rest, hp, q, f, g, hheads, hlaid, hrest, hfirst => by
    obtain ⟨hcompare, hskip, hcase, hheads⟩ := hheads
    have hvalue := hblind.value e hrest
    have hkept := hblind.keeps e g
    have hcmp : step c code (hp, g) =
        some (if c.identical v (c.value e f).1 then hp + 2 else hp + 1, (c.value e g).2) := by
      simp only [step, hcompare, Option.map_some, hfirst, hvalue.1]
    by_cases hid : c.identical v (c.value e f).1
    · simp only [select, hid, if_true]
      rw [if_pos hid] at hcmp
      exact ⟨_, hvalue.2, q, (reaches_step hcmp).trans (reaches_step (step_jump hcase _)), hlaid, rfl⟩
    · simp only [select, hid]
      rw [if_neg hid] at hcmp
      have hnext := (reaches_step hcmp).trans (reaches_step (step_jump hskip _))
      obtain ⟨g', hg', hreach⟩ := select_reaches hblind rest (hp + 3) q (c.value e f).2 (c.value e g).2 hheads hlaid
        hvalue.2 (hkept.trans hfirst)
      refine ⟨g', hg', ?_⟩
      generalize hsel : select c v rest (c.value e f).2 = r at hreach
      obtain ⟨b, f'⟩ := r
      cases b with
      | none => exact hnext.trans hreach
      | some b =>
        obtain ⟨q', hto, hl, hend⟩ := hreach
        exact ⟨q', hnext.trans hto, hl, hend⟩

theorem default_laid {code : List (Instr α)} {bt ct : Nat} : ∀ (body : Body α) (q : Nat), Laid code bt ct body q →
    match body.default with
    | some b => ∃ q', defaultPos body q = some q' ∧ Laid code bt ct b q' ∧ endOf b q' = endOf body q
    | none => defaultPos body q = none
  | .nil, _, _ => rfl
  | .label none _, q, hlaid => ⟨q, rfl, hlaid, rfl⟩
  | .label (some _) rest, q, hlaid => default_laid rest q hlaid
  | .stmt s rest, q, hlaid => default_laid rest (q + (writeOpcodes s q).code.length) hlaid.2

theorem select_oneDefault (c : Meaning α V σ) (v : V) : ∀ (body : Body α) (f : Frame V σ), body.oneDefault →
    match (select c v body f).1 with
    | some b => b.oneDefault = true
    | none => True
  | .nil, _, _ => trivial
  | .label none rest, f, h => select_oneDefault c v rest f h
  | .stmt s rest, f, h => by
    simp only [Body.oneDefault, Bool.and_eq_true] at h
    exact select_oneDefault c v rest f h.2
  | .label (some e) rest, f, h => by
    simp only [Body.oneDefault] at h
    by_cases hid : c.identical v (c.value e f).1
    · simp only [select, hid, if_true]
      exact h
    · simp only [select, hid]
      exact select_oneDefault c v rest (c.value e f).2 h

theorem default_oneDefault : ∀ body : Body α, body.oneDefault →
    match body.default with
    | some b => b.oneDefault = true
    | none => True
  | .nil, _ => trivial
  | .label none _, h => h
  | .label (some _) rest, h => default_oneDefault rest h
  | .stmt s rest, h => by
    simp only [Body.oneDefault, Bool.and_eq_true] at h
    exact default_oneDefault rest h.2

theorem Placed.tail {code : List (Instr α)} {bt ct pos : Nat} {xs : List (Option (Instr α))} {e e' : Emission α}
    (h : Placed code bt ct pos e') (hcode : e'.code = xs ++ e.code) (hfixes : ∀ x ∈ e.fixes, x ∈ e'.fixes)
    (hbreaks : ∀ x ∈ e.breaks, x ∈ e'.breaks) (hcontinues : ∀ x ∈ e.continues, x ∈ e'.continues) :
    Placed code bt ct (pos + xs.length) e where
  opcode i x hx := by
    have := h.opcode (xs.length + i) x (by
      rw [hcode, List.getElem?_append_right (Nat.le_add_right _ _), Nat.add_sub_cancel_left]
      exact hx)
    rwa [← Nat.add_assoc] at this
  fixes q t hq := h.fixes q t (hfixes _ hq)
  breaks q hq := h.breaks q (hbreaks q hq)
  continues q hq := h.continues q (hcontinues q hq)

theorem endOf_eq : ∀ (body : Body α) (q : Nat), endOf body q = q + (bodyEmission body q).code.length
  | .nil, _ => rfl
  | .label _ rest, q => endOf_eq rest q
  | .stmt s rest, q => by
    rw [endOf, endOf_eq rest, bodyEmission, Emission.append, List.length_append, Nat.add_assoc]

theorem laid_of_placed {code : List (Instr α)} {bt ct : Nat} : ∀ (body : Body α) (q : Nat),
    Placed code bt ct q (bodyEmission body q) → Laid code bt ct body q
  | .nil, _, _ => trivial
  | .label _ rest, q, h => laid_of_placed rest q h
  | .stmt _ rest, _, h => ⟨h.left, laid_of_placed rest _ h.right⟩

theorem heads_of_fixes {code : List (Instr α)} {d : Nat} : ∀ (body : Body α) (hp q : Nat),
    (∀ i x, (headCode body.caseLabels)[i]? = some (some x) → code[hp + i]? = some x) →
    (∀ r t, (r, t) ∈ headFixes body.caseLabels hp → code[r]? = some (jumpTo r t)) →
    (∀ r t, (r, t) ∈ List.zipWith (fun sw t => (sw.from_pos, t)) (headLabels d body.caseLabels hp) (bodyTargets body q) →
      code[r]? = some (jumpTo r t)) →
    Heads code body hp q (hp + (headCode body.caseLabels).length)
  | .nil, _, _, _, _, _ => rfl
  | .stmt _ rest, hp, _, hcode, hfixes, hlabels => heads_of_fixes rest hp _ hcode hfixes hlabels
  | .label none rest, hp, q, hcode, hfixes, hlabels =>
    heads_of_fixes rest hp q hcode hfixes fun r t h => hlabels r t (List.mem_cons_of_mem _ h)
  | .label (some e) rest, hp, q, hcode, hfixes, hlabels => by
    have hrest := heads_of_fixes (d := d) rest (hp + 3) q
      (fun i x hx => by
        have := hcode (i + 3) x hx
        rwa [show hp + (i + 3) = hp + 3 + i by omega] at this)
      (fun r t h => hfixes r t (List.mem_cons_of_mem _ h)) fun r t h => hlabels r t (List.mem_cons_of_mem _ h)
    refine ⟨hcode 0 _ rfl, hfixes _ _ (List.mem_cons_self ..), hlabels _ _ (List.mem_cons_self ..), ?_⟩
    have hlen : hp + (headCode (Body.label (some e) rest).caseLabels).length = hp + 3 + (headCode rest.caseLabels).length := by
      rw [Body.caseLabels, headCode, List.length_cons, List.length_cons, List.length_cons]
      omega
    rw [hlen]
    exact hrest

theorem default_fixed {d : Nat} : ∀ (body : Body α) (hp q t : Nat), defaultPos body q = some t →
    (d, t) ∈ List.zipWith (fun sw t => (sw.from_pos, t)) (headLabels d body.caseLabels hp) (bodyTargets body q)
  | .nil, _, _, _, h => by simp [defaultPos] at h
  | .stmt _ rest, hp, _, t, h => default_fixed rest hp _ t h
  | .label none _, _, q, t, h => by
    obtain rfl : q = t := Option.some.inj h
    exact List.mem_cons_self ..
  | .label (some _) rest, hp, q, t, h => List.mem_cons_of_mem _ (default_fixed rest (hp + 3) q t h)

theorem defaultPos_none : ∀ (body : Body α) (q : Nat), defaultPos body q = none → body.caseLabels.any Option.isNone = false
  | .nil, _, _ => rfl
  | .stmt _ rest, _, h => defaultPos_none rest _ h
  | .label none _, _, h => by simp [defaultPos] at h
  | .label (some _) rest, q, h => by
    rw [Body.caseLabels, List.any_cons, defaultPos_none rest q h]
    rfl

/-- **The header and the body of a switch** are in the code as `Switched` says. -/
theorem placed_switch {code : List (Instr α)} {bt ct pos : Nat} {e : α} {body : Body α}
    (h : Placed code bt ct pos (writeOpcodes (.switch e body) pos)) (hone : body.caseLabels.countP Option.isNone ≤ 1) :
    ∃ d, Switched code ct pos e body d ∧ endOf body (d + 1) = pos + (writeOpcodes (.switch e body) pos).code.length := by
  obtain ⟨hcode, -, hcontinues, hperm⟩ := writeOpcodes_switch e body pos hone
  have hend : endOf body (headEnd body pos + 1) = switchEnd body pos := endOf_eq body _
  have hlabels : ∀ r t, (r, t) ∈ labelFixes body pos → code[r]? = some (jumpTo r t) := fun r t hr =>
    h.fixes r t (hperm.mem_iff.2 (List.mem_append_right _ (List.mem_append_left _ hr)))
  have hzipped : ∀ r t, (r, t) ∈ List.zipWith (fun sw t => (sw.from_pos, t))
      (headLabels (headEnd body pos) body.caseLabels (pos + 1)) (bodyTargets body (headEnd body pos + 1)) →
      code[r]? = some (jumpTo r t) := fun r t hr => hlabels r t (by
    rw [labelFixes_eq]
    exact List.mem_append_left _ hr)
  have hbody : Placed code (switchEnd body pos) ct (headEnd body pos + 1) (bodyEmission body (headEnd body pos + 1)) := by
    refine ⟨fun i x hx => ?_, fun q t hq => h.fixes q t (hperm.mem_iff.2 ?_), fun q hq => h.fixes q _ (hperm.mem_iff.2 ?_),
      fun q hq => h.continues q (by rw [hcontinues]; exact hq)⟩
    · have := h.opcode (1 + ((headCode body.caseLabels).length + (1 + i))) x (by
        rw [hcode, Nat.add_comm 1, List.getElem?_cons_succ, List.getElem?_append_right (Nat.le_add_right _ _),
          Nat.add_sub_cancel_left, Nat.add_comm 1, List.getElem?_cons_succ]
        exact hx)
      rwa [show pos + (1 + ((headCode body.caseLabels).length + (1 + i))) = headEnd body pos + 1 + i by
        rw [headEnd]; omega] at this
    · exact List.mem_append_right _ (List.mem_append_right _ (List.mem_append_left _ hq))
    · exact List.mem_append_right _ (List.mem_append_right _ (List.mem_append_right _ (List.mem_map.2 ⟨q, hq, rfl⟩)))
  refine ⟨headEnd body pos, ⟨?_, ?_, ?_, ?_⟩, ?_⟩
  · exact h.opcode 0 _ (by rw [hcode]; rfl)
  · refine heads_of_fixes body (pos + 1) (headEnd body pos + 1) (fun i x hx => ?_) (fun r t hr => h.fixes r t (hperm.mem_iff.2
      (List.mem_append_left _ hr))) hzipped
    have := h.opcode (1 + i) x (by
      rw [hcode, Nat.add_comm 1, List.getElem?_cons_succ, List.getElem?_append_left (List.getElem?_eq_some_iff.1 hx).1]
      exact hx)
    rwa [← Nat.add_assoc] at this
  · cases hdefault : defaultPos body (headEnd body pos + 1) with
    | some t => exact hzipped _ _ (default_fixed body (pos + 1) _ t hdefault)
    | none =>
      refine hlabels _ _ ?_
      rw [Option.getD_none, hend, labelFixes_eq, defaultPos_none body _ hdefault]
      exact List.mem_append_right _ (List.mem_singleton.2 rfl)
  · rw [hend]
    exact laid_of_placed body _ hbody
  · rw [hend, hcode, switchEnd, headEnd]
    simp only [List.length_cons, List.length_append]
    omega

/-- The parts of a loop, with the breaks and continues that are its own. -/
theorem placed_loop {code : List (Instr α)} {bt ct start : Nat} {body post : Stmt α}
    (h : Placed code bt ct start (writeOpcodes (.loop body post) start)) :
    ∃ mid jumpPos, mid = start + (writeOpcodes body start).code.length ∧ jumpPos = mid + (writeOpcodes post mid).code.length ∧
      Placed code (jumpPos + 1) mid start (writeOpcodes body start) ∧ Placed code (jumpPos + 1) mid mid (writeOpcodes post mid) ∧
      code[jumpPos]? = some (jumpTo jumpPos start) ∧
      start + (writeOpcodes (.loop body post) start).code.length = jumpPos + 1 := by
  refine ⟨_, _, rfl, rfl, ?_, ?_, ?_, ?_⟩
  · rw [writeOpcodes] at h
    refine ⟨fun i x hx => h.opcode i x ?_, fun q t hq => h.fixes q t ?_, fun q hq => h.fixes q _ ?_, fun q hq => h.fixes q _ ?_⟩
    · rw [List.getElem?_append_left (List.getElem?_eq_some_iff.1 hx).1]
      exact hx
    · exact List.mem_append_left _ (List.mem_append_left _ (List.mem_append_left _ hq))
    · exact List.mem_append_left _ (List.mem_append_right _ (List.mem_map.2 ⟨q, List.mem_append_left _ hq, rfl⟩))
    · exact List.mem_append_right _ (List.mem_map.2 ⟨q, List.mem_append_left _ hq, rfl⟩)
  · rw [writeOpcodes] at h
    refine ⟨fun i x hx => ?_, fun q t hq => h.fixes q t ?_, fun q hq => h.fixes q _ ?_, fun q hq => h.fixes q _ ?_⟩
    · rw [Nat.add_assoc]
      refine h.opcode _ x ?_
      rw [List.getElem?_append_right (Nat.le_add_right _ _), Nat.add_sub_cancel_left,
        List.getElem?_append_left (List.getElem?_eq_some_iff.1 hx).1]
      exact hx
    · exact List.mem_append_left _ (List.mem_append_left _ (List.mem_append_right _ hq))
    · exact List.mem_append_left _ (List.mem_append_right _ (List.mem_map.2 ⟨q, List.mem_append_right _ hq, rfl⟩))
    · exact List.mem_append_right _ (List.mem_map.2 ⟨q, List.mem_append_right _ hq, rfl⟩)
  · rw [writeOpcodes] at h
    rw [Nat.add_assoc]
    refine h.opcode _ _ ?_
    rw [List.getElem?_append_right (Nat.le_add_right _ _), Nat.add_sub_cancel_left,
      List.getElem?_append_right (Nat.le_refl _), Nat.sub_self]
    simp only [List.getElem?_cons_zero, jumpTo, Nat.add_assoc]
  · rw [writeOpcodes]
    simp only [List.length_append, List.length_singleton]
    omega

/-- **Statements run as they should**, from wherever they were written. -/
theorem run_reaches {c : Meaning α V σ} (hblind : c.Blind) {code : List (Instr α)} (n : Nat) :
    (∀ (s : Stmt α) (bt ct p : Nat) (f g : Frame V σ) (out : Out) (f' : Frame V σ), s.oneDefault →
      Placed code bt ct p (writeOpcodes s p) → f.rest = g.rest → run c n s f = some (out, f') →
      ∃ g', f'.rest = g'.rest ∧ Reaches c code (p, g) (target bt ct (p + (writeOpcodes s p).code.length) out, g')) ∧
    ∀ (b : Body α) (bt ct q : Nat) (f g : Frame V σ) (out : Out) (f' : Frame V σ), b.oneDefault →
      Laid code bt ct b q → f.rest = g.rest → runBody c n b f = some (out, f') →
      ∃ g', f'.rest = g'.rest ∧ Reaches c code (q, g) (target bt ct (endOf b q) out, g') := by
  induction n with
  | zero => exact ⟨fun s _ _ _ _ _ _ _ _ _ _ h => by simp [run] at h, fun b _ _ _ _ _ _ _ _ _ _ h => by simp [runBody] at h⟩
  | succ n ih =>
    obtain ⟨ihs, ihb⟩ := ih
    constructor
    · intro s bt ct p f g out f' hone hplaced hrest hrun
      cases s with
      | nop =>
        simp only [run, Option.some.injEq, Prod.mk.injEq] at hrun
        obtain ⟨rfl, rfl⟩ := hrun
        exact ⟨g, hrest, .refl⟩
      | exec a =>
        simp only [run, Option.some.injEq, Prod.mk.injEq] at hrun
        obtain ⟨rfl, rfl⟩ := hrun
        have hat := hplaced.opcode 0 (.exec a) (by rw [writeOpcodes]; rfl)
        refine ⟨c.exec a g, hblind.exec a hrest, reaches_step ?_⟩
        rw [Nat.add_zero] at hat
        simp only [step, hat, Option.map_some, writeOpcodes]
        rfl
      | seq s t =>
        simp only [Stmt.oneDefault, Bool.and_eq_true] at hone
        simp only [run, Option.bind_eq_some_iff] at hrun
        obtain ⟨⟨out1, f1⟩, h1, hrun⟩ := hrun
        rw [writeOpcodes] at hplaced
        obtain ⟨g1, hg1, hr1⟩ := ihs s bt ct p f g out1 f1 hone.1 hplaced.left hrest h1
        by_cases hnormal : out1 = .normal
        · subst hnormal
          simp only [if_true] at hrun
          obtain ⟨g2, hg2, hr2⟩ := ihs t bt ct _ f1 g1 out f' hone.2 hplaced.right hg1 hrun
          refine ⟨g2, hg2, hr1.trans ?_⟩
          rw [writeOpcodes, Emission.append, List.length_append, ← Nat.add_assoc]
          exact hr2
        · simp only [if_neg hnormal, Option.some.injEq, Prod.mk.injEq] at hrun
          obtain ⟨rfl, rfl⟩ := hrun
          refine ⟨g1, hg1, ?_⟩
          cases out1 with
          | normal => exact absurd rfl hnormal
          | broke => exact hr1
          | continued => exact hr1
      | ifThen a s =>
        simp only [Stmt.oneDefault] at hone
        have htest := hblind.test a hrest
        have hat := hplaced.opcode 0 (.test a) (by rw [writeOpcodes]; rfl)
        rw [Nat.add_zero] at hat
        have hskip := hplaced.fixes (p + 1) (p + 2 + (writeOpcodes s (p + 2)).code.length) (by
          rw [writeOpcodes]
          exact List.mem_cons_self ..)
        have hlen : p + (writeOpcodes (.ifThen a s) p).code.length = p + 2 + (writeOpcodes s (p + 2)).code.length := by
          simp only [writeOpcodes, List.length_cons]
          omega
        have hstep : step c code (p, g) = some (if (c.test a f).1 then p + 2 else p + 1, (c.test a g).2) := by
          simp only [step, hat, Option.map_some, htest.1]
        have hbody : Placed code bt ct (p + 2) (writeOpcodes s (p + 2)) := by
          rw [writeOpcodes] at hplaced
          exact hplaced.tail (show _ = [some (.test a), none] ++ _ from rfl) (fun x hx => List.mem_cons_of_mem _ hx) (fun _ hx => hx)
            fun _ hx => hx
        simp only [run] at hrun
        rw [hlen]
        by_cases htrue : (c.test a f).1
        · rw [if_pos htrue] at hrun hstep
          obtain ⟨g', hg', hreach⟩ := ihs s bt ct (p + 2) _ _ out f' hone hbody htest.2 hrun
          exact ⟨g', hg', (reaches_step hstep).trans hreach⟩
        · rw [if_neg htrue] at hrun hstep
          simp only [Option.some.injEq, Prod.mk.injEq] at hrun
          obtain ⟨rfl, rfl⟩ := hrun
          exact ⟨_, htest.2, (reaches_step hstep).trans (reaches_step (step_jump hskip _))⟩
      | loop body post =>
        have honeLoop := hone
        simp only [Stmt.oneDefault, Bool.and_eq_true] at hone
        obtain ⟨mid, jumpPos, hmid, hjumpPos, hbody, hpost, hjump, hlen⟩ := placed_loop hplaced
        simp only [run, Option.bind_eq_some_iff] at hrun
        obtain ⟨⟨out1, f1⟩, h1, hrun⟩ := hrun
        obtain ⟨g1, hg1, hr1⟩ := ihs body (jumpPos + 1) mid p f g out1 f1 hone.1 hbody hrest h1
        rw [hlen]
        by_cases hbroke : out1 = .broke
        · subst hbroke
          simp only [if_true, Option.some.injEq, Prod.mk.injEq] at hrun
          obtain ⟨rfl, rfl⟩ := hrun
          exact ⟨g1, hg1, hr1⟩
        · -- `continue` and the end of the body both go on with the step of the loop.
          have hstep : Reaches c code (p, g) (mid, g1) := by
            cases out1 with
            | normal => rw [hmid]; exact hr1
            | broke => exact absurd rfl hbroke
            | continued => exact hr1
          simp only [if_neg hbroke, Option.bind_eq_some_iff] at hrun
          obtain ⟨⟨out2, f2⟩, h2, hrun⟩ := hrun
          obtain ⟨g2, hg2, hr2⟩ := ihs post (jumpPos + 1) mid mid f1 g1 out2 f2 hone.2 hpost hg1 h2
          cases out2 with
          | normal =>
            rw [target, ← hjumpPos] at hr2
            obtain ⟨g3, hg3, hr3⟩ := ihs (.loop body post) bt ct p f2 g2 out f' honeLoop hplaced hg2 hrun
            rw [hlen] at hr3
            exact ⟨g3, hg3, (hstep.trans hr2).trans ((reaches_step (step_jump hjump g2)).trans hr3)⟩
          | broke =>
            simp only [Option.some.injEq, Prod.mk.injEq] at hrun
            obtain ⟨rfl, rfl⟩ := hrun
            exact ⟨g2, hg2, hstep.trans hr2⟩
          | continued => cases hrun
      | breakStmt =>
        simp only [run, Option.some.injEq, Prod.mk.injEq] at hrun
        obtain ⟨rfl, rfl⟩ := hrun
        have hat := hplaced.breaks p (by rw [writeOpcodes]; exact List.mem_singleton.2 rfl)
        exact ⟨g, hrest, reaches_step (step_jump hat g)⟩
      | continueStmt =>
        simp only [run, Option.some.injEq, Prod.mk.injEq] at hrun
        obtain ⟨rfl, rfl⟩ := hrun
        have hat := hplaced.continues p (by rw [writeOpcodes]; exact List.mem_singleton.2 rfl)
        exact ⟨g, hrest, reaches_step (step_jump hat g)⟩
      | switch e body =>
        simp only [Stmt.oneDefault, Bool.and_eq_true, decide_eq_true_eq] at hone
        obtain ⟨d, hswitched, hlen⟩ := placed_switch hplaced hone.1
        have hvalue := hblind.value e hrest
        have hstore : step c code (p, g) = some (p + 1, { (c.value e g).2 with first := (c.value e g).1 }) := by
          simp only [step, hswitched.store, Option.map_some]
        obtain ⟨g1, hg1, hsel⟩ := select_reaches hblind body (p + 1) (d + 1) (c.value e f).2
          { (c.value e g).2 with first := (c.value e g).1 } hswitched.heads hswitched.laid hvalue.2 hvalue.1.symm
        -- A body runs to the end of the switch, by a break or without.
        have hrunBody (b : Body α) (q : Nat) (f1 : Frame V σ) (hb : b.oneDefault = true)
            (hlaid : Laid code (endOf body (d + 1)) ct b q) (hend : endOf b q = endOf body (d + 1)) (hrest : f1.rest = g1.rest)
            (hrun : (runBody c n b f1).map (fun r => (r.1.leaveSwitch, r.2)) = some (out, f')) :
            ∃ g', f'.rest = g'.rest ∧ Reaches c code (q, g1) (target bt ct (endOf body (d + 1)) out, g') := by
          obtain ⟨⟨out1, f2⟩, h1, h2⟩ := Option.map_eq_some_iff.1 hrun
          simp only [Prod.mk.injEq] at h2
          obtain ⟨rfl, rfl⟩ := h2
          obtain ⟨g2, hg2, hr⟩ := ihb b (endOf body (d + 1)) ct q f1 g1 out1 f2 hb hlaid hrest h1
          refine ⟨g2, hg2, ?_⟩
          rw [hend] at hr
          cases out1 with
          | normal => exact hr
          | broke => exact hr
          | continued => exact hr
        have hsub := select_oneDefault c (c.value e f).1 body (c.value e f).2 hone.2
        rw [← hlen]
        simp only [run] at hrun
        generalize select c (c.value e f).1 body (c.value e f).2 = r at hg1 hsel hsub hrun
        obtain ⟨b, f1⟩ := r
        cases b with
        | some b =>
          obtain ⟨q, hto, hlaid, hend⟩ := hsel
          obtain ⟨g', hg', hr⟩ := hrunBody b q f1 hsub hlaid hend hg1 hrun
          exact ⟨g', hg', (reaches_step hstore).trans (hto.trans hr)⟩
        | none =>
          have hto := (reaches_step hstore).trans (hsel.trans (reaches_step (step_jump hswitched.jump g1)))
          have hdefault := default_laid body (d + 1) hswitched.laid
          have hsubDefault := default_oneDefault body hone.2
          generalize body.default = b at hdefault hsubDefault hrun
          cases b with
          | some b =>
            obtain ⟨q, hq, hlaid, hend⟩ := hdefault
            rw [hq] at hto
            obtain ⟨g', hg', hr⟩ := hrunBody b q f1 hsubDefault hlaid hend hg1 hrun
            exact ⟨g', hg', hto.trans hr⟩
          | none =>
            simp only [Option.some.injEq, Prod.mk.injEq] at hrun
            obtain ⟨rfl, rfl⟩ := hrun
            rw [show defaultPos body (d + 1) = none from hdefault] at hto
            exact ⟨g1, hg1, hto⟩
    · intro b bt ct q f g out f' hone hlaid hrest hrun
      cases b with
      | nil =>
        simp only [runBody, Option.some.injEq, Prod.mk.injEq] at hrun
        obtain ⟨rfl, rfl⟩ := hrun
        exact ⟨g, hrest, .refl⟩
      | label e rest => exact ihb rest bt ct q f g out f' (by simpa only [Body.oneDefault] using hone) hlaid hrest hrun
      | stmt s rest =>
        simp only [Body.oneDefault, Bool.and_eq_true] at hone
        simp only [runBody, Option.bind_eq_some_iff] at hrun
        obtain ⟨⟨out1, f1⟩, h1, hrun⟩ := hrun
        obtain ⟨g1, hg1, hr1⟩ := ihs s bt ct q f g out1 f1 hone.1 hlaid.1 hrest h1
        by_cases hnormal : out1 = .normal
        · subst hnormal
          simp only [if_true] at hrun
          obtain ⟨g2, hg2, hr2⟩ := ihb rest bt ct _ f1 g1 out f' hone.2 hlaid.2 hg1 hrun
          exact ⟨g2, hg2, hr1.trans hr2⟩
        · simp only [if_neg hnormal, Option.some.injEq, Prod.mk.injEq] at hrun
          obtain ⟨rfl, rfl⟩ := hrun
          refine ⟨g1, hg1, ?_⟩
          cases out1 with
          | normal => exact absurd rfl hnormal
          | broke => exact hr1
          | continued => exact hr1

end Switch
end Compiler
end ObjectScript
