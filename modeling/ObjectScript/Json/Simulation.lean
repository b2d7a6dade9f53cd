import ObjectScript.Json.Automaton
/-!
# The parser follows the automaton

`Sim` relates the parser to a state of the automaton and to the containers on its stack.  A step of the parser is a step of
the automaton, with one of six effects on the containers (`step_sim`); where the automaton rejects, the parser fails, with
`top` outside of the stacks after an overflow.

The invariants of the parser are in `Sim`: the modes and the containers have the same height, the buffer is empty
outside of a string, and the key of an object is there when its value comes.
-/
namespace ObjectScript
namespace Json

def State.all : List State :=
  [.go, .ok, .ob, .ke, .co, .va, .ar, .st, .es, .u1, .u2, .u3, .u4, .mi, .ze, .int, .fr, .e1, .e2, .e3,
   .t1, .t2, .t3, .f1, .f2, .f3, .f4, .n1, .n2, .n3]

def CharClass.all : List CharClass :=
  [.space, .white, .lcurb, .rcurb, .lsqrb, .rsqrb, .colon, .comma, .quote, .backs, .slash, .plus, .minus, .point, .zero, .digit,
   .lowA, .lowB, .lowC, .lowD, .lowE, .lowF, .lowL, .lowN, .lowR, .lowS, .lowT, .lowU, .abcdf, .e, .etc]

theorem State.mem_all (s : State) : s ∈ State.all := by cases s <;> decide

theorem CharClass.mem_all (cls : CharClass) : cls ∈ CharClass.all := by cases cls <;> decide

/-- A property of the whole table is checked entry by entry. -/
theorem table_all {P : State → CharClass → Prop} (h : ∀ s ∈ State.all, ∀ cls ∈ CharClass.all, P s cls) (s : State)
    (cls : CharClass) : P s cls := h s s.mem_all cls cls.mem_all

def State.inString : State → Bool
  | .st | .es | .u1 | .u2 | .u3 | .u4 => true
  | _ => false

def Entry.inString : Entry → Bool
  | .state s => s.inString
  | _ => false

theorem inString_next (s : State) (cls : CharClass) : (nextState s cls).inString = true → s.inString = true ∨ cls = .quote :=
  table_all (P := fun s cls => (nextState s cls).inString = true → s.inString = true ∨ cls = .quote) (by decide +kernel) s cls

theorem quote_state (s : State) (cls : CharClass) : nextState s cls = .action .quote → s = .st :=
  table_all (P := fun s cls => nextState s cls = .action .quote → s = .st) (by decide +kernel) s cls

/-! ## Filling containers -/

/-- Values were put in containers and the buffers changed; the stacks and the retain pool are as they were. -/
structure Filled (p q : JsonParser) : Prop where
  depth : q.depth = p.depth
  top : q.top = p.top
  stack : q.stack = p.stack
  zstack : q.zstack = p.zstack
  retainPool : q.core.retainPool = p.core.retainPool
  created : q.core.created = p.core.created
  z : q.z = p.z

theorem Filled.stacked {p q : JsonParser} {modes : List Mode} {refs : List Ref} (h : Filled p q) (hs : p.Stacks modes refs) :
    q.Stacks modes refs := by
  unfold JsonParser.Stacks
  rw [h.depth, h.top, h.stack, h.zstack]
  exact hs

/-- What a step does to the containers on the stack, to the result and to the retain pool. -/
inductive Effect (p q : JsonParser) : List Ref → List Ref → Prop where
  | stay {refs : List Ref} : q.core.retainPool = p.core.retainPool → q.core.created = p.core.created → q.z = p.z →
      Effect p q refs refs
  | close {r : Ref} {refs : List Ref} : q.core.retainPool = (p.core.releaseValueById r).retainPool →
      q.core.created = p.core.created → q.z = p.z → Effect p q (r :: refs) refs
  | inner {refs : List Ref} : 1 < refs.length →
      q.core.retainPool = (p.core.retainValueById (.container p.core.created)).retainPool →
      q.core.created = p.core.created + 1 → q.z = p.z → Effect p q refs (.container p.core.created :: refs)
  | outerObject {refs : List Ref} : refs.length = 1 → q.core.retainPool =
      ((p.core.retainValueById (.container p.core.created)).retainValueById (.container p.core.created)).retainPool →
      q.core.created = p.core.created + 1 → q.z = .container p.core.created → q.state = .ob →
      Effect p q refs (.container p.core.created :: refs)
  | outerArray {refs : List Ref} : refs.length = 1 → q.core.retainPool =
      ((p.core.retainValueById (.container p.core.created)).releaseValueById (.container p.core.created)).retainPool →
      q.core.created = p.core.created + 1 → q.z = .container p.core.created → q.state = .ar →
      Effect p q refs (.container p.core.created :: refs)
  | outerString {refs : List Ref} (bytes : List Nat) : refs.length = 1 → p.state = .st →
      q.core.retainPool = (p.core.retainValueById (.string bytes)).retainPool → q.core.created = p.core.created → q.z = .string bytes → Effect p q refs refs

namespace JsonParser

variable {p : JsonParser} {m : Mode} {r : Ref} {modes : List Mode} {refs : List Ref} {assoc : Bool}

theorem setScalar_filled (assoc : Bool) (h : p.Stacks (m :: modes) (r :: refs)) :
    ∃ q, p.setScalar assoc = some q ∧ Filled p q := by
  unfold JsonParser.setScalar
  rw [h.topRef_eq]
  exact ⟨_, rfl, rfl, rfl, rfl, rfl, rfl, rfl, rfl⟩

theorem addScalar_filled (h : p.Stacks (m :: modes) (r :: refs)) : ∃ q, p.addScalar = some q ∧ Filled p q := by
  unfold JsonParser.addScalar
  rw [h.topRef_eq]
  exact ⟨_, rfl, rfl, rfl, rfl, rfl, rfl, rfl, rfl⟩

/-- An index up to the top is inside of both stacks. -/
theorem Stacks.read_some (h : p.Stacks modes refs) {i : Int} (h0 : 0 ≤ i) (hle : i ≤ p.top) :
    (∃ m, read p.stack i = some m) ∧ ∃ r, read p.zstack i = some r := by
  have htop := h.top_eq
  have hfits := h.fits
  have hslen := h.stack_length
  have hzlen : p.zstack.length = p.depth := by
    have hlen := h.refs_length
    rw [h.zstack_eq]
    simp
    omega
  unfold read
  rw [if_pos h0, if_pos h0]
  exact ⟨⟨_, List.getElem?_eq_getElem (by omega)⟩, ⟨_, List.getElem?_eq_getElem (by omega)⟩⟩

theorem attachValue_filled (assoc : Bool) (h : p.Stacks modes refs) (htop : 1 < p.top) :
    ∃ q, p.attachValue assoc (p.top - 1) p.top = some q ∧ Filled p q ∧ q.state = p.state := by
  obtain ⟨⟨mode, hmode⟩, root, hroot⟩ := h.read_some (i := p.top - 1) (by omega) (by omega)
  obtain ⟨-, child, hchild⟩ := h.read_some (i := p.top) (by omega) (by omega)
  unfold JsonParser.attachValue
  rw [hroot, hchild, hmode]
  cases mode <;> exact ⟨_, rfl, ⟨rfl, rfl, rfl, rfl, rfl, rfl, rfl⟩, rfl⟩

theorem placeContainer_eq (assoc : Bool) (h : p.Stacks (m :: modes) (.zero :: refs)) (r : Ref) :
    ∃ zstack q, p.placeContainer assoc r = some (.next q) ∧ Filled { p with zstack := zstack } q ∧ q.state = p.state ∧
      q.Stacks (m :: modes) (r :: refs) := by
  obtain ⟨zstack, hwrite, hs⟩ := h.write_top r
  unfold JsonParser.placeContainer
  rw [h.topRef_eq, hwrite]
  dsimp only
  have hs' : ({ p with core := p.core.releaseValueById .zero, zstack := zstack } : JsonParser).Stacks (m :: modes) (r :: refs) := hs
  by_cases htop : 1 < p.top
  · obtain ⟨q, hq, hf, hstate⟩ := attachValue_filled assoc hs' htop
    rw [if_pos htop, hq]
    exact ⟨zstack, q.resetType, rfl, ⟨hf.depth, hf.top, hf.stack, hf.zstack, hf.retainPool, hf.created, hf.z⟩, hstate,
      hf.stacked hs'⟩
  · rw [if_neg htop]
    exact ⟨zstack, _, rfl, ⟨rfl, rfl, rfl, rfl, rfl, rfl, rfl⟩, rfl, hs⟩

end JsonParser
/-- At the bottom nothing is open, and above it only keys, objects and arrays. -/
inductive Bottomed : List Mode → List Ref → Prop where
  | base : Bottomed [.done] [.zero]
  | cons {m : Mode} {r : Ref} {modes : List Mode} {refs : List Ref} : m ≠ .done → Bottomed modes refs →
      Bottomed (m :: modes) (r :: refs)

/-- **The parser is in the state of the automaton**, with the containers `refs` on its stack. -/
structure Sim (p : JsonParser) (a : Automaton) (refs : List Ref) : Prop where
  state : p.state = a.state
  stacked : p.Stacks a.modes refs
  bottomed : Bottomed a.modes refs
  quoted : a.state.inString = true → p.type = .string

/-- What a step of the parser is to a step of the automaton. -/
inductive Follows (p : JsonParser) (refs : List Ref) : Option JsonParser.Outcome → Except Reject Automaton → Prop where
  | ok {q : JsonParser} {a : Automaton} {refs' : List Ref} : Sim q a refs' → q.depth = p.depth → Effect p q refs refs' →
      Follows p refs (some (.next q)) (.ok a)
  | overflow {q : JsonParser} : q.core = p.core → q.zstack = p.zstack → q.z = p.z → q.depth = p.depth → q.top = p.depth →
      Follows p refs (some (.fail q)) (.error .overflow)
  | invalid {q : JsonParser} : q.core = p.core → q.zstack = p.zstack → q.z = p.z → q.depth = p.depth → q.top = p.top →
      Follows p refs (some (.fail q)) (.error .invalid)

theorem Bottomed.length_pos {modes : List Mode} {refs : List Ref} (hb : Bottomed modes refs) : 0 < refs.length := by
  cases hb <;> simp

theorem Effect.congr {p q r : JsonParser} {refs refs' : List Ref} (hcore : q.core = p.core) (hz : q.z = p.z)
    (hstate : q.state = p.state) (h : Effect q r refs refs') : Effect p r refs refs' := by
  cases h with
  | stay h1 h2 h3 => exact .stay (hcore ▸ h1) (hcore ▸ h2) (hz ▸ h3)
  | close h1 h2 h3 => exact .close (hcore ▸ h1) (hcore ▸ h2) (hz ▸ h3)
  | inner h0 h1 h2 h3 => rw [hcore] at h1 h2 ⊢; exact .inner h0 h1 h2 (hz ▸ h3)
  | outerObject h0 h1 h2 h3 h4 => rw [hcore] at h1 h2 h3 ⊢; exact .outerObject h0 h1 h2 h3 h4
  | outerArray h0 h1 h2 h3 h4 => rw [hcore] at h1 h2 h3 ⊢; exact .outerArray h0 h1 h2 h3 h4
  | outerString bytes h0 h0' h1 h2 h3 => exact .outerString bytes h0 (hstate ▸ h0') (hcore ▸ h1) (hcore ▸ h2) h3

theorem Follows.congr {p q : JsonParser} {refs : List Ref} {o : Option JsonParser.Outcome} {e : Except Reject Automaton}
    (hcore : q.core = p.core) (hzstack : q.zstack = p.zstack) (hz : q.z = p.z) (hdepth : q.depth = p.depth) (htop : q.top = p.top)
    (hstate : q.state = p.state) (h : Follows q refs o e) : Follows p refs o e := by
  cases h with
  | ok h1 h2 h3 => exact .ok h1 (h2.trans hdepth) (h3.congr hcore hz hstate)
  | overflow h1 h2 h3 h4 h5 =>
    exact .overflow (h1.trans hcore) (h2.trans hzstack) (h3.trans hz) (h4.trans hdepth) (h5.trans (congrArg _ hdepth))
  | invalid h1 h2 h3 h4 h5 =>
    exact .invalid (h1.trans hcore) (h2.trans hzstack) (h3.trans hz) (h4.trans hdepth) (h5.trans htop)

namespace JsonParser

variable {p : JsonParser} {m : Mode} {r : Ref} {modes : List Mode} {refs : List Ref} {assoc : Bool}

theorem popTo_follows {q : JsonParser} (hf : Filled p q) (hs : p.Stacks (m :: modes) (r :: refs))
    (hb : Bottomed (m :: modes) (r :: refs)) (hm : m ≠ .done) : Follows p (r :: refs) (q.popTo m .ok) (.ok ⟨.ok, modes⟩) := by
  obtain ⟨zstack, hpop, hs'⟩ := (hf.stacked hs).pop_ok
  unfold JsonParser.popTo
  rw [hpop]
  cases hb with
  | base => exact absurd rfl hm
  | cons _ hb =>
    refine .ok ⟨rfl, hs', hb, by rintro ⟨⟩⟩ hf.depth (.close ?_ ?_ hf.z)
    · unfold Core.releaseValueById
      split
      · exact hf.retainPool
      · rw [hf.retainPool]
    · unfold Core.releaseValueById
      split <;> exact hf.created

theorem popTo_invalid (hs : p.Stacks (m :: modes) refs) {m' : Mode} (hne : m ≠ m') :
    Follows p refs (p.popTo m' .ok) (.error .invalid) := by
  unfold JsonParser.popTo
  rw [hs.pop_mismatch hne]
  exact .invalid rfl rfl rfl rfl rfl

theorem colon_follows (hs : p.Stacks (m :: modes) (r :: refs)) (hb : Bottomed (m :: modes) (r :: refs)) :
    Follows p (r :: refs) p.colon (Automaton.act p.depth (m :: modes) .colon) := by
  unfold JsonParser.colon Automaton.act
  cases m with
  | key =>
    obtain ⟨stack, hpop, hpush, hs'⟩ := hs.switch .object
    rw [hpop]
    dsimp only
    rw [hpush]
    cases hb with
    | cons _ hb => exact .ok ⟨rfl, hs', .cons (by rintro ⟨⟩) hb, by rintro ⟨⟩⟩ rfl (.stay rfl rfl rfl)
  | _ =>
    rw [hs.pop_mismatch (by rintro ⟨⟩)]
    exact .invalid rfl rfl rfl rfl rfl

/-- How many are open tells whether the container is at the bottom. -/
theorem Stacks.top_eq_one (hs : p.Stacks modes refs) : p.top + 1 = 1 ↔ refs.length = 1 := by
  have htop := hs.top_eq
  have hlen := hs.refs_length
  omega

theorem openObject_follows (hs : p.Stacks modes refs) (hb : Bottomed modes refs) :
    Follows p refs (p.openObject assoc) (Automaton.act p.depth modes .openObject) := by
  unfold JsonParser.openObject Automaton.act
  dsimp only
  by_cases hlt : modes.length < p.depth
  · obtain ⟨stack, hpush, hs'⟩ := hs.push_ok hlt .key
    have hpos := hb.length_pos
    have htop := hs.top_eq
    have hlen := hs.refs_length
    rw [if_pos hlt, hpush]
    dsimp only
    rw [if_pos (by omega)]
    obtain ⟨made, hmade⟩ : ∃ made, made = if assoc = false then p.core.newObject else p.core.newArray := ⟨_, rfl⟩
    have href : made.2 = .container p.core.created := by
      rw [hmade]
      split <;> rfl
    have hpool : made.1.retainPool = p.core.retainPool := by
      rw [hmade]
      split <;> rfl
    have hcreated : made.1.created = p.core.created + 1 := by
      rw [hmade]
      split <;> rfl
    rw [← hmade]
    by_cases hone : p.top + 1 = 1
    · rw [if_pos hone]
      have hs1 : ({ p with
          state := .ob, top := p.top + 1, stack := stack, z := made.2,
          core := (made.1.retainValueById made.2).retainValueById made.2 } : JsonParser).Stacks (.key :: modes) (.zero :: refs) := hs'
      obtain ⟨zstack, q, hq, hf, hstate, hstacks⟩ := placeContainer_eq assoc hs1 made.2
      rw [hq]
      refine .ok ⟨hstate, hstacks, .cons (by rintro ⟨⟩) hb, by rintro ⟨⟩⟩ hf.depth ?_
      rw [href]
      refine .outerObject (hs.top_eq_one.1 hone) ?_ ?_ (hf.z.trans href) hstate
      · rw [hf.retainPool, href]
        show (Core.retainValueById (Core.retainValueById _ _) _).retainPool = _
        simp [Core.retainValueById, hpool]
      · rw [hf.created, href]
        simp [Core.retainValueById, hcreated]
    · rw [if_neg hone]
      have hs1 : ({ p with
          state := .ob, top := p.top + 1, stack := stack,
          core := made.1.retainValueById made.2 } : JsonParser).Stacks (.key :: modes) (.zero :: refs) := hs'
      obtain ⟨zstack, q, hq, hf, hstate, hstacks⟩ := placeContainer_eq assoc hs1 made.2
      rw [hq]
      refine .ok ⟨hstate, hstacks, .cons (by rintro ⟨⟩) hb, by rintro ⟨⟩⟩ hf.depth ?_
      rw [href]
      have hmore : 1 < refs.length := by
        have := hs.top_eq_one.not.1 hone
        omega
      refine .inner hmore ?_ ?_ hf.z
      · rw [hf.retainPool, href]
        simp [Core.retainValueById, hpool]
      · rw [hf.created, href]
        simp [Core.retainValueById, hcreated]
  · rw [if_neg hlt, hs.push_full hlt]
    exact .overflow rfl rfl rfl rfl (by have := hs.top_eq; have := hs.fits; show p.top + 1 = p.depth; omega)

theorem openArray_follows (hs : p.Stacks modes refs) (hb : Bottomed modes refs) :
    Follows p refs (p.openArray assoc) (Automaton.act p.depth modes .openArray) := by
  unfold JsonParser.openArray Automaton.act
  dsimp only
  by_cases hlt : modes.length < p.depth
  · obtain ⟨stack, hpush, hs'⟩ := hs.push_ok hlt .array
    have hpos := hb.length_pos
    have htop := hs.top_eq
    have hlen := hs.refs_length
    rw [if_pos hlt, hpush]
    dsimp only
    rw [if_pos (by omega)]
    by_cases hone : p.top + 1 = 1
    · rw [if_pos hone]
      have hs1 : ({ p with
          state := .ar, top := p.top + 1, stack := stack, z := p.core.newArray.2,
          core := (p.core.newArray.1.retainValueById p.core.newArray.2).releaseValueById p.core.newArray.2 } : JsonParser).Stacks
            (.array :: modes) (.zero :: refs) := hs'
      obtain ⟨zstack, q, hq, hf, hstate, hstacks⟩ := placeContainer_eq assoc hs1 p.core.newArray.2
      rw [hq]
      refine .ok ⟨hstate, hstacks, .cons (by rintro ⟨⟩) hb, by rintro ⟨⟩⟩ hf.depth
        (.outerArray (hs.top_eq_one.1 hone) ?_ ?_ hf.z hstate)
      · rw [hf.retainPool]
        simp [Core.retainValueById, Core.releaseValueById, Core.newArray]
      · rw [hf.created]
        simp [Core.retainValueById, Core.releaseValueById, Core.newArray]
    · rw [if_neg hone]
      have hs1 : ({ p with
          state := .ar, top := p.top + 1, stack := stack,
          core := p.core.newArray.1.retainValueById p.core.newArray.2 } : JsonParser).Stacks (.array :: modes) (.zero :: refs) := hs'
      obtain ⟨zstack, q, hq, hf, hstate, hstacks⟩ := placeContainer_eq assoc hs1 p.core.newArray.2
      rw [hq]
      have hmore : 1 < refs.length := by
        have := hs.top_eq_one.not.1 hone
        omega
      refine .ok ⟨hstate, hstacks, .cons (by rintro ⟨⟩) hb, by rintro ⟨⟩⟩ hf.depth (.inner hmore ?_ ?_ hf.z)
      · rw [hf.retainPool]
        simp [Core.retainValueById, Core.newArray]
      · rw [hf.created]
        simp [Core.retainValueById, Core.newArray]
  · rw [if_neg hlt, hs.push_full hlt]
    exact .overflow rfl rfl rfl rfl (by have := hs.top_eq; have := hs.fits; show p.top + 1 = p.depth; omega)

/-- **Each action of the parser is that of the automaton.** -/
theorem act_follows (hs : p.Stacks modes refs) (hb : Bottomed modes refs) (x : Action)
    (hquote : x = .quote → p.type = .string ∧ p.state = .st) : Follows p refs (p.act assoc x) (Automaton.act p.depth modes x) := by
  obtain ⟨m, ms, rfl⟩ : ∃ m ms, modes = m :: ms := by
    cases hb with
    | base => exact ⟨_, _, rfl⟩
    | cons _ _ => exact ⟨_, _, rfl⟩
  obtain ⟨r, rs, rfl⟩ : ∃ r rs, refs = r :: rs := by
    cases hb with
    | base => exact ⟨_, _, rfl⟩
    | cons _ _ => exact ⟨_, _, rfl⟩
  have hself : Filled p p := ⟨rfl, rfl, rfl, rfl, rfl, rfl, rfl⟩
  cases x with
  | emptyObject =>
    unfold JsonParser.act Automaton.act
    cases m with
    | key => exact popTo_follows hself hs hb (by rintro ⟨⟩)
    | _ => exact popTo_invalid hs (by rintro ⟨⟩)
  | closeObject =>
    unfold JsonParser.act Automaton.act JsonParser.closeObject
    dsimp only
    rw [hs.topMode_eq]
    by_cases htype : p.type = .unset
    · rw [if_pos htype]
      cases m with
      | object => exact popTo_follows hself hs hb (by rintro ⟨⟩)
      | _ => exact popTo_invalid hs (by rintro ⟨⟩)
    · rw [if_neg htype]
      cases m with
      | object =>
        obtain ⟨q, hq, hf⟩ := setScalar_filled assoc hs
        dsimp only
        rw [hq]
        have hf' : Filled p ({ q with buf := q.buf.clear } : JsonParser).resetType :=
          ⟨hf.depth, hf.top, hf.stack, hf.zstack, hf.retainPool, hf.created, hf.z⟩
        exact popTo_follows hf' hs hb (by rintro ⟨⟩)
      | _ => exact popTo_invalid hs (by rintro ⟨⟩)
  | closeArray =>
    unfold JsonParser.act Automaton.act JsonParser.closeArray
    dsimp only
    rw [hs.topMode_eq]
    by_cases htype : p.type = .unset
    · rw [if_pos htype]
      cases m with
      | array => exact popTo_follows hself hs hb (by rintro ⟨⟩)
      | _ => exact popTo_invalid hs (by rintro ⟨⟩)
    · rw [if_neg htype]
      cases m with
      | array =>
        obtain ⟨q, hq, hf⟩ := addScalar_filled hs
        dsimp only
        rw [hq]
        have hf' : Filled p ({ q with buf := q.buf.clear } : JsonParser).resetType :=
          ⟨hf.depth, hf.top, hf.stack, hf.zstack, hf.retainPool, hf.created, hf.z⟩
        exact popTo_follows hf' hs hb (by rintro ⟨⟩)
      | _ => exact popTo_invalid hs (by rintro ⟨⟩)
  | openObject => exact openObject_follows hs hb
  | openArray => exact openArray_follows hs hb
  | quote =>
    unfold JsonParser.act Automaton.act JsonParser.quote
    rw [hs.topMode_eq]
    cases m with
    | key => exact .ok ⟨rfl, hs, hb, by rintro ⟨⟩⟩ rfl (.stay rfl rfl rfl)
    | done =>
      dsimp only
      rw [if_pos (hquote rfl).1]
      refine .ok ⟨rfl, hs, hb, by rintro ⟨⟩⟩ rfl (.outerString p.buf.bytes ?_ (hquote rfl).2 rfl rfl rfl)
      cases hb with
      | base => rfl
      | cons hne _ => exact absurd rfl hne
    | _ => exact .ok ⟨rfl, hs, hb, by rintro ⟨⟩⟩ rfl (.stay rfl rfl rfl)
  | comma =>
    unfold JsonParser.act Automaton.act JsonParser.comma
    rw [hs.topMode_eq]
    cases m with
    | key => exact .invalid rfl rfl rfl rfl rfl
    | done => exact .invalid rfl rfl rfl rfl rfl
    | array =>
      obtain ⟨q, hq, hf⟩ : ∃ q, (if p.type = .unset then some p else p.addScalar) = some q ∧ Filled p q := by
        by_cases htype : p.type = .unset
        · rw [if_pos htype]
          exact ⟨p, rfl, hself⟩
        · rw [if_neg htype]
          exact addScalar_filled hs
      dsimp only
      rw [hq]
      exact .ok ⟨rfl, hf.stacked hs, hb, by rintro ⟨⟩⟩ hf.depth (.stay hf.retainPool hf.created hf.z)
    | object =>
      obtain ⟨stack, hpop, hpush, hs'⟩ := hs.switch .key
      have hs'' : ({ p with stack := stack } : JsonParser).Stacks (.key :: ms) (r :: rs) := hs'
      obtain ⟨q, hq, hf⟩ : ∃ q, (if p.type = .unset then some { p with stack := stack }
          else ({ p with stack := stack } : JsonParser).setScalar assoc) = some q ∧ Filled { p with stack := stack } q := by
        by_cases htype : p.type = .unset
        · rw [if_pos htype]
          exact ⟨_, rfl, rfl, rfl, rfl, rfl, rfl, rfl, rfl⟩
        · rw [if_neg htype]
          exact setScalar_filled assoc hs''
      dsimp only
      rw [hpop]
      dsimp only
      rw [hpush]
      dsimp only
      rw [hq]
      cases hb with
      | cons _ hb =>
        exact .ok ⟨rfl, hf.stacked hs'', .cons (by rintro ⟨⟩) hb, by rintro ⟨⟩⟩ hf.depth (.stay hf.retainPool hf.created hf.z)
  | colon => exact colon_follows hs hb
  | numericColon =>
    unfold JsonParser.act Automaton.act JsonParser.numericColon
    rw [hs.topMode_eq]
    cases m with
    | key =>
      have hs' : ({ ({ p with buf := p.key, key := p.buf } : JsonParser).resetType with keyType := .number } : JsonParser).Stacks
        (.key :: ms) (r :: rs) := hs
      refine Follows.congr ?_ ?_ ?_ ?_ ?_ ?_ (colon_follows hs' hb) <;> rfl
    | _ => exact .invalid rfl rfl rfl rfl rfl

/-- What is collected leaves the rest as it is, and in a string it stays a string. -/
theorem collect_filled (p : JsonParser) (c : Nat) (cls : CharClass) (next : State) : Filled p (p.collect c cls next) := by
  unfold JsonParser.collect
  repeat' split
  all_goals exact ⟨rfl, rfl, rfl, rfl, rfl, rfl, rfl⟩

theorem collect_type (c : Nat) (cls : CharClass) (next : State) (hnext : next.inString = true)
    (h : p.type = .string ∨ cls = .quote) : (p.collect c cls next).type = .string := by
  unfold JsonParser.collect
  by_cases htype : p.type = .string
  · rw [if_pos htype]
    repeat' split
    all_goals exact htype
  · have hcls := h.resolve_left htype
    subst hcls
    have hlt : p.type < .string := by
      revert htype
      cases p.type <;> decide
    have he1 : ¬ (p.type = .number ∧ next = .e1) := by
      rintro ⟨-, rfl⟩
      cases hnext
    rw [if_neg htype, if_neg (by simp), if_neg he1, if_neg (by simp), if_pos ⟨hlt, rfl⟩]

/-- **Each step of the parser is one of the automaton.** -/
theorem step_follows (assoc : Bool) {a : Automaton} (h : Sim p a refs) (c : Nat) :
    Follows p refs (p.step assoc c) (a.step p.depth c) := by
  unfold JsonParser.step Automaton.step
  rw [h.state]
  cases hc : charClass c with
  | none => exact .invalid rfl rfl rfl rfl rfl
  | some cls =>
    dsimp only
    cases hn : nextState a.state cls with
    | error => exact .invalid rfl rfl rfl rfl rfl
    | state s =>
      have hf := collect_filled p c cls s
      refine .ok ⟨rfl, hf.stacked h.stacked, h.bottomed, fun hs => ?_⟩ hf.depth (.stay hf.retainPool hf.created hf.z)
      have hin := inString_next a.state cls (by rw [hn]; exact hs)
      exact collect_type c cls s hs (hin.imp_left h.quoted)
    | action x =>
      refine act_follows h.stacked h.bottomed x fun hx => ?_
      rw [hx] at hn
      have hst := quote_state a.state cls hn
      exact ⟨h.quoted (by rw [hst]; rfl), h.state.trans hst⟩

end JsonParser
end Json
end ObjectScript
