import ObjectScript.Json.Decode
/-!
# Retained containers

While a text is parsed the retain pool counts each container once for its place on the stack, and once more where it is the
result (`Balanced`).  That holds of a text that starts with an object; at the start of an array the second retain is a
release, and the container stands on the stack unretained.  What the result was retained for is released only when the text
is accepted.
-/
namespace ObjectScript
namespace Json

open JsonParser

/-! ## Outside of every container -/

/-- Outside of every container, behind the start of the text. -/
def State.outside : State → Bool
  | .ok => true
  | s => s.inString

def Entry.outside : Entry → Bool
  | .state s => s.outside
  | .action .openObject => false
  | .action .openArray => false
  | _ => true

theorem outside_next (s : State) (cls : CharClass) : s.outside = true → (nextState s cls).outside = true :=
  table_all (P := fun s cls => s.outside = true → (nextState s cls).outside = true) (by decide +kernel) s cls

theorem ok_next (s : State) (cls : CharClass) : (nextState s cls).inString = true → s ≠ .ok :=
  table_all (P := fun s cls => (nextState s cls).inString = true → s ≠ .ok) (by decide +kernel) s cls

/-- The result is the container `root`, or no container. -/
def IsRoot (z : Ref) : Option Nat → Prop
  | some n => z = .container n
  | none => ∀ n, z ≠ .container n

/-- **The retain pool counts the places on the stack, and the result once more.** -/
structure Balanced (base : Nat) (root : Option Nat) (p : JsonParser) (a : Automaton) (refs : List Ref) : Prop where
  pool : ∀ n, base ≤ n → p.core.retainPool (.container n) = refs.count (.container n) + if p.z = .container n then 1 else 0
  fresh : ∀ n, p.core.created ≤ n → .container n ∉ refs ∧ p.z ≠ .container n
  above : ∀ n, .container n ∈ refs → base ≤ n
  base_le : base ≤ p.core.created
  outside : a.modes.length = 1 → a.state.outside = true
  isRoot : IsRoot p.z root
  closed : root ≠ none → a.modes.length = 1 → a.state = .ok
  scalar : root = none → a.modes.length = 1

theorem retainValueById_pool (core : Core) (n m : Nat) : (core.retainValueById (.container n)).retainPool (.container m) =
    core.retainPool (.container m) + if m = n then 1 else 0 := by
  unfold Core.retainValueById
  rw [if_neg (by rintro ⟨⟩)]
  dsimp only
  by_cases h : m = n
  · subst h
    simp
  · simp [h]

theorem releaseValueById_pool (core : Core) (r : Ref) (m : Nat) : (core.releaseValueById r).retainPool (.container m) =
    core.retainPool (.container m) - if r = .container m then 1 else 0 := by
  unfold Core.releaseValueById
  by_cases hz : r = .zero
  · subst hz
    simp
  · rw [if_neg hz]
    dsimp only
    by_cases h : r = .container m
    · subst h
      simp
    · rw [if_neg h, Function.update_of_ne (Ne.symm h)]
      rfl

theorem releaseAll_pool : ∀ (refs : List Ref) (core : Core) (m : Nat),
    (refs.foldl Core.releaseValueById core).retainPool (.container m) =
      core.retainPool (.container m) - refs.count (.container m)
  | [], _, _ => rfl
  | r :: refs, core, m => by
    rw [List.foldl_cons, releaseAll_pool refs, releaseValueById_pool, List.count_cons, Nat.sub_sub, Nat.add_comm]
    simp

theorem Bottomed.eq_done {modes : List Mode} {refs : List Ref} (hb : Bottomed modes refs) (hlen : modes.length = 1) :
    modes = [.done] ∧ refs = [.zero] := by
  cases hb with
  | base => exact ⟨rfl, rfl⟩
  | cons _ hb =>
    cases hb with
    | base => cases hlen
    | cons _ _ => cases hlen

theorem Bottomed.length_eq {modes : List Mode} {refs : List Ref} (hb : Bottomed modes refs) : refs.length = modes.length := by
  induction hb with
  | base => rfl
  | cons _ _ ih => rw [List.length_cons, List.length_cons, ih]

/-- An action that leaves nothing open leaves the state `OK`. -/
theorem act_done {depth : Nat} {modes : List Mode} {refs : List Ref} (hb : Bottomed modes refs) (x : Action) {a : Automaton}
    (ha : Automaton.act depth modes x = .ok a) (hdone : a.modes = [.done]) : a.state = .ok := by
  have hpos : modes ≠ [] := by
    cases hb <;> exact List.cons_ne_nil _ _
  unfold Automaton.act at ha
  cases x <;> dsimp only at ha <;> split at ha <;> cases ha <;> first | rfl | simp_all

/-- Behind the start of the text nothing is opened at the bottom. -/
theorem outside_step {depth : Nat} {p q : JsonParser} {a a' : Automaton} {refs refs' : List Ref} {c : Nat} (hs : Sim p a refs)
    (hs' : Sim q a' refs') (ha : a.step depth c = .ok a') (hout : a.modes.length = 1 → a.state.outside = true)
    (hlen : a'.modes.length = 1) : a'.state.outside = true ∧ (a'.state.inString = true → a.modes.length = 1 ∧ a.state ≠ .ok) := by
  unfold Automaton.step at ha
  cases hc : charClass c with
  | none =>
    rw [hc] at ha
    cases ha
  | some cls =>
    rw [hc] at ha
    dsimp only at ha
    cases hn : nextState a.state cls with
    | error =>
      rw [hn] at ha
      cases ha
    | state s =>
      rw [hn] at ha
      cases ha
      have hnext := outside_next a.state cls (hout hlen)
      have hin := ok_next a.state cls
      rw [hn] at hnext hin
      exact ⟨hnext, fun h => ⟨hlen, hin h⟩⟩
    | action x =>
      rw [hn] at ha
      have hok := act_done hs.bottomed x ha (hs'.bottomed.eq_done hlen).1
      rw [hok]
      exact ⟨rfl, by rintro ⟨⟩⟩

/-- Only the two actions that open a container add a mode. -/
theorem act_grows {depth : Nat} {modes : List Mode} (x : Action) {a : Automaton} (ha : Automaton.act depth modes x = .ok a)
    (hlen : a.modes.length = modes.length + 1) : x = .openObject ∨ x = .openArray := by
  unfold Automaton.act at ha
  cases x
  case openObject => exact .inl rfl
  case openArray => exact .inr rfl
  all_goals
    dsimp only at ha
    split at ha <;> cases ha <;> simp at hlen <;> omega

theorem outside_open {depth : Nat} {a a' : Automaton} {c : Nat} (ha : a.step depth c = .ok a')
    (hout : a.modes.length = 1 → a.state.outside = true) (hlen : a'.modes.length = a.modes.length + 1) : a.modes.length ≠ 1 := by
  intro hone
  unfold Automaton.step at ha
  cases hc : charClass c with
  | none =>
    rw [hc] at ha
    cases ha
  | some cls =>
    rw [hc] at ha
    dsimp only at ha
    have hnext := outside_next a.state cls (hout hone)
    cases hn : nextState a.state cls with
    | error =>
      rw [hn] at ha
      cases ha
    | state s =>
      rw [hn] at ha
      cases ha
      dsimp only at hlen
      omega
    | action x =>
      rw [hn] at ha hnext
      rcases act_grows x ha hlen with rfl | rfl
      · cases hnext
      · cases hnext

/-- **Each step keeps the balance.** -/
theorem balanced_kept (base depth : Nat) (root : Option Nat) : Kept (Balanced base root) depth := by
  intro p q a a' refs refs' c hs hb ha hs' heff
  have hlen := hs.bottomed.length_eq
  have hlen' := hs'.bottomed.length_eq
  have hout : a'.modes.length = 1 → a'.state.outside = true := fun h => (outside_step hs hs' ha hb.outside h).1
  have hclosed : root ≠ none → a'.modes.length = 1 → a'.state = .ok := fun hroot h => by
    obtain ⟨h1, h2⟩ := outside_step hs hs' ha hb.outside h
    by_cases hin : a'.state.inString = true
    · exact absurd (hb.closed hroot (h2 hin).1) (h2 hin).2
    · revert h1 hin
      cases a'.state <;> simp [State.outside, State.inString]
  cases heff with
  | stay h1 h2 h3 =>
    refine ⟨fun n hn => ?_, fun n hn => ?_, ?_, by rw [h2]; exact hb.base_le, hout, by rw [h3]; exact hb.isRoot, hclosed,
      fun hroot => ?_⟩
    · rw [h1, h3]
      exact hb.pool n hn
    · rw [h3]
      exact hb.fresh n (h2 ▸ hn)
    · exact hb.above
    · rw [← hlen', hlen]
      exact hb.scalar hroot
  | close h1 h2 h3 =>
    rename_i r
    refine ⟨fun n hn => ?_, fun n hn => ?_, ?_, by rw [h2]; exact hb.base_le, hout, by rw [h3]; exact hb.isRoot, hclosed,
      fun hroot => ?_⟩
    · rw [h1, h3, releaseValueById_pool, hb.pool n hn, List.count_cons]
      by_cases hr : r = .container n
      · simp [hr]
      · simp [hr]
    · rw [h3]
      obtain ⟨h4, h5⟩ := hb.fresh n (h2 ▸ hn)
      exact ⟨fun hmem => h4 (List.mem_cons_of_mem _ hmem), h5⟩
    · exact fun n hmem => hb.above n (List.mem_cons_of_mem _ hmem)
    · have hone := hb.scalar hroot
      have hpos := hs'.bottomed.length_pos
      rw [List.length_cons] at hlen
      omega
  | inner h0 h1 h2 h3 =>
    refine ⟨fun n hn => ?_, fun n hn => ?_, fun n hmem => ?_, by rw [h2]; exact Nat.le_succ_of_le hb.base_le, hout,
      by rw [h3]; exact hb.isRoot, hclosed, fun hroot => ?_⟩
    · rw [h1, h3, retainValueById_pool, hb.pool n hn, List.count_cons]
      by_cases hnew : p.core.created = n
      · simp [hnew, Nat.add_right_comm]
      · simp [hnew, Ne.symm hnew]
    · rw [h3]
      obtain ⟨h4, h5⟩ := hb.fresh n (by omega)
      refine ⟨fun hmem => ?_, h5⟩
      rcases List.mem_cons.1 hmem with heq | hmem
      · cases heq
        omega
      · exact h4 hmem
    · rcases List.mem_cons.1 hmem with heq | hmem
      · cases heq
        exact hb.base_le
      · exact hb.above n hmem
    · have hone := hb.scalar hroot
      omega
  | outerObject h0 h1 h2 h3 h4 =>
    rw [List.length_cons] at hlen'
    exact absurd (hlen ▸ h0) (outside_open ha hb.outside (by omega))
  | outerArray h0 h1 h2 h3 h4 =>
    rw [List.length_cons] at hlen'
    exact absurd (hlen ▸ h0) (outside_open ha hb.outside (by omega))
  | outerString bytes h0 hst h1 h2 h3 =>
    have hstate : a.state = .st := hs.state ▸ hst
    have hroot : root = none := by
      by_contra hne
      have := hb.closed hne (hlen ▸ h0)
      rw [hstate] at this
      cases this
    subst hroot
    refine ⟨fun n hn => ?_, fun n hn => ?_, hb.above, by rw [h2]; exact hb.base_le, hout, ?_, hclosed, fun _ => by omega⟩
    · have hz : p.z ≠ .container n := hb.isRoot n
      have hp := hb.pool n hn
      rw [if_neg hz] at hp
      rw [h1, h3]
      simpa [Core.retainValueById] using hp
    · rw [h3]
      exact ⟨(hb.fresh n (h2 ▸ hn)).1, by rintro ⟨⟩⟩
    · intro n
      rw [h3]
      rintro ⟨⟩

/-! ## The text -/

/-- What `GO` reads over. -/
def isSpace (c : Nat) : Bool := charClass c = some .space || charClass c = some .white

/-- The text does not start with an array, and if it starts with an object it is accepted. -/
def Releases (depth : Nat) (text : List Nat) : Prop :=
  (text.dropWhile isSpace).head? ≠ some 91 ∧ ((text.dropWhile isSpace).head? = some 123 → Automaton.Accepts depth text)

structure Fresh (core : Core) (depth : Nat) (p : JsonParser) : Prop where
  sim : Sim p .start [.zero]
  depth_eq : p.depth = depth
  core_eq : p.core = core
  z_eq : p.z = .zero
  type_eq : p.type = .unset

theorem step_space {p : JsonParser} {core : Core} {depth : Nat} (hp : Fresh core depth p) (assoc : Bool) {c : Nat}
    (hc : isSpace c = true) :
    p.step assoc c = some (.next p) ∧ Automaton.start.step depth c = .ok .start := by
  obtain ⟨cls, hcls, hgo, hlow⟩ : ∃ cls, charClass c = some cls ∧ nextState .go cls = .state .go ∧ cls.column < 2 := by
    unfold isSpace at hc
    simp only [Bool.or_eq_true, decide_eq_true_eq] at hc
    rcases hc with hc | hc
    · exact ⟨_, hc, rfl, by decide⟩
    · exact ⟨_, hc, rfl, by decide⟩
  have hstate : p.state = .go := hp.sim.state
  refine ⟨?_, ?_⟩
  · unfold JsonParser.step
    rw [hcls, hstate]
    dsimp only
    rw [hgo]
    have hsame : p.collect c cls .go = p := by
      unfold JsonParser.collect
      rw [hp.type_eq, hstate]
      cases cls <;> simp_all [CharClass.column]
    dsimp only
    rw [hsame, ← hstate]
  · have hstart : Automaton.start.state = .go := rfl
    unfold Automaton.step
    rw [hcls, hstart]
    dsimp only
    rw [hgo]
    rfl

theorem loop_space {p : JsonParser} {core : Core} {depth : Nat} (hp : Fresh core depth p) (assoc : Bool) :
    ∀ (ws rest : List Nat), (∀ c ∈ ws, isSpace c = true) →
      p.loop assoc (ws ++ rest) = p.loop assoc rest ∧ Automaton.start.run depth (ws ++ rest) = Automaton.start.run depth rest
  | [], _, _ => ⟨rfl, rfl⟩
  | c :: ws, rest, hws => by
    obtain ⟨h1, h2⟩ := step_space hp assoc (hws c List.mem_cons_self)
    obtain ⟨h3, h4⟩ := loop_space hp assoc ws rest fun d hd => hws d (List.mem_cons_of_mem _ hd)
    rw [List.cons_append, loop_cons h1, run_cons h2]
    exact ⟨h3, h4⟩

theorem decode_congr {p q : JsonParser} {assoc : Bool} {text text' : List Nat} (h : p.loop assoc text = q.loop assoc text') :
    p.decode assoc text = q.decode assoc text' := by
  unfold JsonParser.decode JsonParser.parseJSON
  rw [h]

def Held (p : JsonParser) : Prop :=
  ∀ (i n : Nat), (i : Int) ≤ p.top → p.zstack[i]? = some (.container n) → 0 < p.core.retainPool (.container n)

/-- From the parser `p` on: while the text is read the stack is retained, and behind it no container from `base` on is. -/
def BalancedRun (base : Nat) (assoc : Bool) (p : JsonParser) (text : List Nat) : Prop :=
  (∀ (pre post : List Nat) (q : JsonParser), text = pre ++ post → p.loop assoc pre = some (.next q) → Held q) ∧
  ∃ result core', p.decode assoc text = some (result, core') ∧ ∀ n, base ≤ n → core'.retainPool (.container n) = 0

/-- **Each container is retained while it is on the stack, and none is when `jsonDecode` returns.** -/
def RetainBalance (core : Core) (depth : Nat) (assoc : Bool) (text : List Nat) : Prop :=
  (∀ (p : JsonParser) (pre post : List Nat) (q : JsonParser), newJSONparser core depth = some p → text = pre ++ post →
    p.loop assoc pre = some (.next q) → Held q) ∧
  ∃ result core', jsonDecode core depth assoc text = some (result, core') ∧
    ∀ n, core.created ≤ n → core'.retainPool (.container n) = 0

theorem Sim.mem_refs {p : JsonParser} {a : Automaton} {refs : List Ref} (hs : Sim p a refs) {i n : Nat} (hi : (i : Int) ≤ p.top)
    (hget : p.zstack[i]? = some (.container n)) : .container n ∈ refs := by
  have htop := hs.stacked.top_eq
  have hlen := hs.stacked.refs_length
  rw [hs.stacked.zstack_eq, List.getElem?_append_left (by simp; omega)] at hget
  exact List.mem_reverse.1 (List.mem_of_getElem? hget)

theorem Balanced.held {base : Nat} {root : Option Nat} {p : JsonParser} {a : Automaton} {refs : List Ref} (hs : Sim p a refs)
    (hb : Balanced base root p a refs) : Held p := by
  intro i n hi hget
  have hmem := hs.mem_refs hi hget
  rw [hb.pool n (hb.above n hmem)]
  have := List.count_pos_iff.2 hmem
  omega

theorem Fresh.held {p : JsonParser} {core : Core} {depth : Nat} (hp : Fresh core depth p) : Held p := by
  intro i n hi hget
  have hmem := hp.sim.mem_refs hi hget
  simp at hmem

theorem outside_fits {depth : Nat} {a : Automaton} {c : Nat} (hout : a.state.outside = true) :
    a.step depth c ≠ .error .overflow := by
  unfold Automaton.step
  cases charClass c with
  | none => rintro ⟨⟩
  | some cls =>
    have hnext := outside_next a.state cls hout
    dsimp only
    cases hn : nextState a.state cls with
    | error => rintro ⟨⟩
    | state s => rintro ⟨⟩
    | action x =>
      rw [hn] at hnext
      unfold Automaton.act
      cases x
      case openObject => cases hnext
      case openArray => cases hnext
      all_goals
        dsimp only
        split <;> rintro ⟨⟩

theorem balanced_held {base depth : Nat} {root : Option Nat} {p : JsonParser} {a : Automaton} {refs : List Ref} (hs : Sim p a refs)
    (hb : Balanced base root p a refs) (hd : p.depth = depth) (assoc : Bool) {pre : List Nat} {q : JsonParser}
    (hq : p.loop assoc pre = some (.next q)) : Held q := by
  have hends := loop_ends (balanced_kept base depth root) assoc pre hs hb hd
  rw [hq] at hends
  generalize a.run depth pre = e at hends
  cases hends with
  | ok hs' hb' _ => exact hb'.held hs'

/-- Behind a container at the start of the text the balance is met when the text is accepted, and only then. -/
theorem object_run {base depth : Nat} {p : JsonParser} {a : Automaton} {refs : List Ref} (hs : Sim p a refs)
    (hb : Balanced base (some base) p a refs) (hd : p.depth = depth) (assoc : Bool) (text : List Nat) :
    BalancedRun base assoc p text ↔ a.run depth text = .ok ⟨.ok, [.done]⟩ := by
  have hends := decode_ends (balanced_kept base depth (some base)) assoc text hs hb hd
  have hheld : ∀ (pre post : List Nat) (q : JsonParser), text = pre ++ post → p.loop assoc pre = some (.next q) → Held q :=
    fun _ _ _ _ hq => balanced_held hs hb hd assoc hq
  -- one count is left of the result when the stack alone is released
  have hleft : ∀ {q : JsonParser} {a : Automaton} {refs : List Ref}, Balanced base (some base) q a refs →
      (refs.foldl Core.releaseValueById q.core).retainPool (.container base) = 1 := fun {q _ refs} hb' => by
    have hz : q.z = .container base := hb'.isRoot
    rw [releaseAll_pool, hb'.pool base (Nat.le_refl _), if_pos hz]
    omega
  unfold BalancedRun
  generalize p.decode assoc text = o at hends
  generalize a.run depth text = e at hends
  cases hends with
  | accepted hs' hb' =>
    refine ⟨fun _ => rfl, fun _ => ⟨hheld, _, _, rfl, fun n hn => ?_⟩⟩
    rw [releaseValueById_pool, hb'.pool n hn]
    simp
  | unfinished hs' hb' hne =>
    refine ⟨fun ⟨_, _, _, heq, hzero⟩ => ?_, fun heq => absurd (Except.ok.inj heq) hne⟩
    cases heq
    have := hzero base (Nat.le_refl _)
    rw [hleft hb'] at this
    cases this
  | invalid hs' hb' =>
    refine ⟨fun ⟨_, _, _, heq, hzero⟩ => ?_, by rintro ⟨⟩⟩
    cases heq
    have := hzero base (Nat.le_refl _)
    rw [hleft hb'] at this
    cases this
  | overflow _ _ _ _ => exact ⟨fun ⟨_, _, _, heq, _⟩ => (by cases heq), by rintro ⟨⟩⟩

theorem scalar_run {base depth : Nat} {p : JsonParser} {a : Automaton} {refs : List Ref} (hs : Sim p a refs)
    (hb : Balanced base none p a refs) (hd : p.depth = depth) (assoc : Bool) (text : List Nat) :
    BalancedRun base assoc p text := by
  refine ⟨fun _ _ _ _ hq => balanced_held hs hb hd assoc hq, ?_⟩
  have hends := decode_ends (balanced_kept base depth none) assoc text hs hb hd
  have hnone : ∀ {q : JsonParser} {a : Automaton} {refs : List Ref}, Balanced base none q a refs → ∀ n, base ≤ n →
      (refs.foldl Core.releaseValueById q.core).retainPool (.container n) = 0 := fun {q _ refs} hb' n hn => by
    have hz : q.z ≠ .container n := hb'.isRoot n
    rw [releaseAll_pool, hb'.pool n hn, if_neg hz]
    omega
  generalize p.decode assoc text = o at hends
  generalize a.run depth text = e at hends
  cases hends with
  | accepted hs' hb' =>
    refine ⟨_, _, rfl, fun n hn => ?_⟩
    rw [releaseValueById_pool, hb'.pool n hn]
    simp
  | unfinished _ hb' _ => exact ⟨_, _, rfl, hnone hb'⟩
  | invalid _ hb' => exact ⟨_, _, rfl, hnone hb'⟩
  | overflow c hs' hb' hover => exact absurd hover (outside_fits (hb'.outside (hb'.scalar rfl)))

/-- What `GO` reads is space, the start of a container or a quote. -/
theorem go_row (c : Nat) : isSpace c = true ∨ c = 91 ∨ c = 123 ∨ c = 34 ∨
    ∀ cls, charClass c = some cls → nextState .go cls = .error := by
  by_cases hc : c < 128
  · revert c
    decide +kernel
  · have hetc : charClass c = some .etc := if_pos (by omega)
    rw [hetc]
    refine .inr (.inr (.inr (.inr ?_)))
    rintro cls ⟨⟩
    rfl

theorem start_object (depth : Nat) : Automaton.start.step depth 123 =
    if 1 < depth then .ok ⟨.ob, [.key, .done]⟩ else .error .overflow := rfl

theorem start_array (depth : Nat) : Automaton.start.step depth 91 =
    if 1 < depth then .ok ⟨.ar, [.array, .done]⟩ else .error .overflow := rfl

theorem start_quote (depth : Nat) : Automaton.start.step depth 34 = .ok ⟨.st, [.done]⟩ := rfl

theorem start_error {c : Nat} (hc : ∀ cls, charClass c = some cls → nextState .go cls = .error) (depth : Nat) :
    Automaton.start.step depth c = .error .invalid := by
  have hstart : Automaton.start.state = .go := rfl
  unfold Automaton.step
  cases hcls : charClass c with
  | none => rfl
  | some cls =>
    dsimp only
    rw [hstart, hc cls hcls]

theorem balancedRun_cons {p q : JsonParser} {core : Core} {depth c : Nat} {cs : List Nat} {assoc : Bool} (hp : Fresh core depth p)
    (hq : p.step assoc c = some (.next q)) : BalancedRun core.created assoc p (c :: cs) ↔ BalancedRun core.created assoc q cs := by
  have hloop : ∀ cs, p.loop assoc (c :: cs) = q.loop assoc cs := fun _ => loop_cons hq
  unfold BalancedRun
  rw [decode_congr (hloop cs)]
  refine and_congr_left fun _ => ⟨fun h pre post r heq hr => ?_, fun h pre post r heq hr => ?_⟩
  · refine h (c :: pre) post r (by rw [heq, List.cons_append]) ?_
    rw [hloop, hr]
  · cases pre with
    | nil =>
      cases hr
      exact hp.held
    | cons d pre =>
      cases heq
      rw [hloop] at hr
      exact h pre post r rfl hr

theorem balancedRun_space {p : JsonParser} {core : Core} {depth : Nat} (hp : Fresh core depth p) (assoc : Bool) :
    ∀ (ws rest : List Nat), (∀ c ∈ ws, isSpace c = true) →
      (BalancedRun core.created assoc p (ws ++ rest) ↔ BalancedRun core.created assoc p rest)
  | [], _, _ => Iff.rfl
  | c :: ws, rest, hws => by
    rw [List.cons_append, balancedRun_cons hp (step_space hp assoc (hws c List.mem_cons_self)).1]
    exact balancedRun_space hp assoc ws rest fun d hd => hws d (List.mem_cons_of_mem _ hd)

/-- What is started with an object is counted twice, and the result is the container. -/
theorem first_object {p q : JsonParser} {core : Core} {depth : Nat} {refs : List Ref} (hp : Fresh core depth p)
    (hfresh : ∀ n, core.created ≤ n → core.retainPool (.container n) = 0) (hs : Sim q ⟨.ob, [.key, .done]⟩ refs)
    (heff : Effect p q [.zero] refs) : Balanced core.created (some core.created) q ⟨.ob, [.key, .done]⟩ refs := by
  have hlen := hs.bottomed.length_eq
  cases heff with
  | stay _ _ _ => cases hlen
  | close _ _ _ => cases hlen
  | inner h _ _ _ => exact absurd h (by decide)
  | outerArray _ _ _ _ h =>
    have := hs.state
    rw [h] at this
    cases this
  | outerString _ _ _ _ _ _ => cases hlen
  | outerObject _ h1 h2 h3 _ =>
    rw [hp.core_eq] at h1 h2 h3 ⊢
    refine ⟨fun n hn => ?_, fun n hn => ?_, fun n hmem => ?_, by rw [h2]; omega, (by rintro ⟨⟩), h3,
      fun _ => (by rintro ⟨⟩), by rintro ⟨⟩⟩
    · rw [h1, h3, retainValueById_pool, retainValueById_pool, hfresh n hn, List.count_cons]
      by_cases hnew : core.created = n
      · simp [hnew]
      · simp [hnew, Ne.symm hnew]
    · rw [h2] at hn
      rw [h3]
      refine ⟨?_, ?_⟩
      · simp
        omega
      · simp
        omega
    · simp at hmem
      omega

/-- What is started with an array is not counted, and stands on the stack. -/
theorem first_array {p q : JsonParser} {core : Core} {depth : Nat} {refs : List Ref} (hp : Fresh core depth p)
    (hfresh : ∀ n, core.created ≤ n → core.retainPool (.container n) = 0) (hs : Sim q ⟨.ar, [.array, .done]⟩ refs)
    (heff : Effect p q [.zero] refs) : ¬ Held q := by
  have hlen := hs.bottomed.length_eq
  cases heff with
  | stay _ _ _ => cases hlen
  | close _ _ _ => cases hlen
  | inner h _ _ _ => exact absurd h (by decide)
  | outerObject _ _ _ _ h =>
    have := hs.state
    rw [h] at this
    cases this
  | outerString _ _ _ _ _ _ => cases hlen
  | outerArray _ h1 _ _ _ =>
    intro hheld
    have htop := hs.stacked.top_eq
    have hget : q.zstack[1]? = some (.container p.core.created) := by
      rw [hs.stacked.zstack_eq]
      rfl
    have := hheld 1 p.core.created (by simp at htop; omega) hget
    rw [h1, releaseValueById_pool, retainValueById_pool, hp.core_eq, hfresh _ (Nat.le_refl _)] at this
    simp at this

theorem first_quote {p q : JsonParser} {core : Core} {depth : Nat} {refs : List Ref} (hp : Fresh core depth p)
    (hfresh : ∀ n, core.created ≤ n → core.retainPool (.container n) = 0) (hs : Sim q ⟨.st, [.done]⟩ refs)
    (heff : Effect p q [.zero] refs) : Balanced core.created none q ⟨.st, [.done]⟩ refs := by
  have hlen := hs.bottomed.length_eq
  cases heff with
  | close _ _ _ => cases hlen
  | inner h _ _ _ => exact absurd h (by decide)
  | outerObject _ _ _ _ _ => cases hlen
  | outerArray _ _ _ _ _ => cases hlen
  | outerString _ _ h _ _ _ =>
    have := hp.sim.state
    rw [h] at this
    cases this
  | stay h1 h2 h3 =>
    rw [hp.core_eq] at h1 h2
    rw [hp.z_eq] at h3
    refine ⟨fun n hn => ?_, fun n _ => ?_, fun n hmem => ?_, Nat.le_of_eq h2.symm, fun _ => rfl, ?_, by simp, fun _ => rfl⟩
    · rw [h1, h3, hfresh n hn]
      simp
    · rw [h3]
      simp
    · simp at hmem
    · intro n
      rw [h3]
      rintro ⟨⟩

theorem Fresh.free {p q : JsonParser} {core : Core} {depth : Nat} (hp : Fresh core depth p) (hcore : q.core = p.core)
    (hzstack : q.zstack = p.zstack) (htop : q.top = p.top) : q.freeJSONparser = some core := by
  rw [freeJSONparser_eq hp.sim.stacked hzstack htop, hcore, hp.core_eq]
  rfl

/-- Where `GO` rejects, nothing was made. -/
theorem fail_run {p q : JsonParser} {core : Core} {depth c : Nat} (hp : Fresh core depth p) {assoc : Bool} (cs : List Nat)
    (hq : p.step assoc c = some (.fail q)) (hcore : q.core = p.core) (hzstack : q.zstack = p.zstack) (htop : q.top = p.top)
    (hfresh : ∀ n, core.created ≤ n → core.retainPool (.container n) = 0) : BalancedRun core.created assoc p (c :: cs) := by
  have hloop : ∀ cs, p.loop assoc (c :: cs) = some (.fail q) := fun cs => by
    unfold JsonParser.loop
    rw [hq]
  refine ⟨fun pre post r heq hr => ?_, none, core, ?_, hfresh⟩
  · cases pre with
    | nil =>
      cases hr
      exact hp.held
    | cons d pre =>
      cases heq
      rw [hloop] at hr
      cases hr
  · unfold JsonParser.decode JsonParser.parseJSON
    rw [hloop]
    dsimp only
    rw [hp.free hcore hzstack htop]
    rfl

theorem empty_run {p : JsonParser} {core : Core} {depth : Nat} (hp : Fresh core depth p) (assoc : Bool)
    (hfresh : ∀ n, core.created ≤ n → core.retainPool (.container n) = 0) : BalancedRun core.created assoc p [] := by
  have hstate : p.state = .go := hp.sim.state
  have hfree : ({ p with errorCode := .syntax' } : JsonParser).freeJSONparser = some core := hp.free rfl rfl rfl
  refine ⟨fun pre post r heq hr => ?_, none, core, ?_, hfresh⟩
  · rw [(List.append_eq_nil_iff.1 heq.symm).1] at hr
    cases hr
    exact hp.held
  · unfold JsonParser.decode JsonParser.parseJSON JsonParser.loop
    dsimp only
    rw [hstate, if_neg (by decide)]
    dsimp only
    rw [hstate] at hfree
    rw [hfree]
    rfl

theorem overflow_run {p : JsonParser} {core : Core} {depth : Nat} (hp : Fresh core depth p) {assoc : Bool} {text : List Nat}
    (hrun : Automaton.start.run depth text = .error .overflow) : ¬ BalancedRun core.created assoc p text := by
  have hends := decode_ends (I := fun _ _ _ => True) (fun _ _ _ _ _ _ => trivial) assoc text hp.sim trivial hp.depth_eq
  rw [hrun] at hends
  rintro ⟨-, result, core', heq, -⟩
  rw [heq] at hends
  cases hends

theorem first_run {p : JsonParser} {core : Core} {depth : Nat} (hp : Fresh core depth p)
    (hfresh : ∀ n, core.created ≤ n → core.retainPool (.container n) = 0) (assoc : Bool) (c : Nat) (cs : List Nat)
    (hc : isSpace c ≠ true) :
    BalancedRun core.created assoc p (c :: cs) ↔
      c ≠ 91 ∧ (c = 123 → Automaton.start.run depth (c :: cs) = .ok ⟨.ok, [.done]⟩) := by
  have hstep := step_follows assoc hp.sim c
  rw [hp.depth_eq] at hstep
  generalize hq : p.step assoc c = o at hstep
  rcases go_row c with hsp | rfl | rfl | rfl | herr
  · exact absurd hsp hc
  · -- an array
    refine ⟨fun h => absurd h ?_, fun h => absurd rfl h.1⟩
    rw [start_array] at hstep
    by_cases hdepth : 1 < depth
    · rw [if_pos hdepth] at hstep
      cases hstep with
      | ok hs hd heff =>
        rw [balancedRun_cons hp hq]
        exact fun h => first_array hp hfresh hs heff (h.1 [] cs _ rfl rfl)
    · refine overflow_run hp ?_
      unfold Automaton.run
      rw [start_array, if_neg hdepth]
  · -- an object
    rw [start_object] at hstep
    by_cases hdepth : 1 < depth
    · rw [if_pos hdepth] at hstep
      have hrun : Automaton.start.run depth (123 :: cs) = Automaton.run depth ⟨.ob, [.key, .done]⟩ cs :=
        run_cons ((start_object depth).trans (if_pos hdepth))
      cases hstep with
      | ok hs hd heff =>
        rw [balancedRun_cons hp hq, object_run hs (first_object hp hfresh hs heff) (hd.trans hp.depth_eq), hrun]
        exact ⟨fun h => ⟨by decide, fun _ => h⟩, fun h => h.2 rfl⟩
    · have hrun : Automaton.start.run depth (123 :: cs) = .error .overflow := by
        unfold Automaton.run
        rw [start_object, if_neg hdepth]
      rw [hrun]
      exact ⟨fun h => absurd h (overflow_run hp hrun), fun h => absurd (h.2 rfl) (by rintro ⟨⟩)⟩
  · -- a string
    refine ⟨fun _ => ⟨by decide, fun h => absurd h (by decide)⟩, fun _ => ?_⟩
    rw [start_quote] at hstep
    cases hstep with
    | ok hs hd heff =>
      rw [balancedRun_cons hp hq]
      exact scalar_run hs (first_quote hp hfresh hs heff) (hd.trans hp.depth_eq) assoc cs
  · -- rejected
    rw [start_error herr] at hstep
    refine ⟨fun _ => ⟨?_, ?_⟩, fun _ => ?_⟩
    · rintro rfl
      cases herr .lsqrb rfl
    · rintro rfl
      cases herr .lcurb rfl
    · cases hstep with
      | invalid h1 h2 h3 h4 h5 => exact fail_run hp cs hq h1 h2 h5 hfresh

theorem retainBalance_iff {p : JsonParser} {core : Core} {depth : Nat} (hdepth : 0 < depth)
    (hnew : newJSONparser core depth = some p) (assoc : Bool) (text : List Nat) :
    RetainBalance core depth assoc text ↔ BalancedRun core.created assoc p text := by
  unfold RetainBalance BalancedRun jsonDecode
  rw [if_neg (Nat.ne_of_gt hdepth), hnew]
  refine and_congr_left fun _ => ⟨fun h pre post q => h p pre post q rfl, ?_⟩
  rintro h _ pre post q ⟨⟩
  exact h pre post q

/-- **The balance is met by a text that starts with no container, and by one that starts with an object and is accepted.** -/
theorem retain_balance (core : Core) (hfresh : ∀ n, core.created ≤ n → core.retainPool (.container n) = 0) {depth : Nat}
    (hdepth : 0 < depth) (assoc : Bool) (text : List Nat) : RetainBalance core depth assoc text ↔ Releases depth text := by
  obtain ⟨p, hnew, hsim, hd, hcore, hz, htype, -⟩ := newJSONparser_sim core hdepth
  have hp : Fresh core depth p := ⟨hsim, hd, hcore, hz, htype⟩
  have hsplit : text = text.takeWhile isSpace ++ text.dropWhile isSpace := (List.takeWhile_append_dropWhile).symm
  have hspace : ∀ c ∈ text.takeWhile isSpace, isSpace c = true := fun c hc => List.all_eq_true.1 List.all_takeWhile c hc
  have hruns := (loop_space hp assoc _ (text.dropWhile isSpace) hspace).2
  have hbalanced := balancedRun_space hp assoc _ (text.dropWhile isSpace) hspace
  rw [← hsplit] at hruns hbalanced
  rw [retainBalance_iff hdepth hnew, hbalanced]
  unfold Releases Automaton.Accepts
  rw [hruns]
  cases hrest : text.dropWhile isSpace with
  | nil => exact ⟨fun _ => ⟨by rintro ⟨⟩, by rintro ⟨⟩⟩, fun _ => empty_run hp assoc hfresh⟩
  | cons c cs =>
    have hc : isSpace c ≠ true := fun h => by
      have := List.head?_dropWhile_not isSpace text
      rw [hrest] at this
      simp [h] at this
    rw [first_run hp hfresh assoc c cs hc]
    simp

theorem retain_balance_empty : RetainBalance .new 512 false [123, 125] :=
  (retain_balance .new (fun _ _ => rfl) (by decide) false [123, 125]).2 ⟨by decide, fun _ => rfl⟩

theorem array_unretained : ¬ RetainBalance .new 512 false [91, 93] := by
  obtain ⟨p, hnew, hsim, hd, hcore, hz, htype, -⟩ := newJSONparser_sim .new (show 0 < 512 by decide)
  rw [retainBalance_iff (by decide) hnew, first_run ⟨hsim, hd, hcore, hz, htype⟩ (fun _ _ => rfl) false 91 [93] (by decide)]
  exact fun h => h.1 rfl

end Json
end ObjectScript
