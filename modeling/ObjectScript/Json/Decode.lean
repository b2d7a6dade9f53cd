import ObjectScript.Json.Simulation
/-!
# The run of the parser

Step by step the parser follows the automaton to the end of the text or to where it rejects (`loop_ends`), then the parser is
freed (`jsonDecode_ends`).  The indices stay inside of the stacks unless the automaton overflows, and then `freeJSONparser`
reads behind the last container (`indices_inside`).

`jsonDecode` is the loop with the construction and the release of the parser around it.  What is returned depends on the
automaton alone (`decode_ends`); how the containers that were built are retained and released is left to the modules
that follow.
-/
namespace ObjectScript
namespace Json

open JsonParser

theorem loop_cons {p q : JsonParser} {assoc : Bool} {c : Nat} {cs : List Nat} (h : p.step assoc c = some (.next q)) :
    p.loop assoc (c :: cs) = q.loop assoc cs := by
  conv_lhs => unfold JsonParser.loop
  rw [h]

theorem run_cons {a a' : Automaton} {depth c : Nat} {cs : List Nat} (h : a.step depth c = .ok a') :
    a.run depth (c :: cs) = a'.run depth cs := by
  conv_lhs => unfold Automaton.run
  rw [h]

/-- What a run comes to, with a property `I` that its steps keep. -/
inductive Ends (I : JsonParser → Automaton → List Ref → Prop) (depth : Nat) :
    Option Outcome → Except Reject Automaton → Prop where
  | ok {q : JsonParser} {a : Automaton} {refs : List Ref} : Sim q a refs → I q a refs → q.depth = depth →
      Ends I depth (some (.next q)) (.ok a)
  | overflow {q s : JsonParser} {a : Automaton} {refs : List Ref} (c : Nat) : Sim s a refs → I s a refs → s.depth = depth →
      a.step depth c = .error .overflow → q.zstack = s.zstack → q.top = depth → Ends I depth (some (.fail q)) (.error .overflow)
  | invalid {q s : JsonParser} {a : Automaton} {refs : List Ref} : Sim s a refs → I s a refs → s.depth = depth →
      q.core = s.core → q.zstack = s.zstack → q.top = s.top → Ends I depth (some (.fail q)) (.error .invalid)

/-- The property `I` is kept by each step. -/
def Kept (I : JsonParser → Automaton → List Ref → Prop) (depth : Nat) : Prop :=
  ∀ {p q : JsonParser} {a a' : Automaton} {refs refs' : List Ref} (c : Nat), Sim p a refs → I p a refs →
    a.step depth c = .ok a' → Sim q a' refs' → Effect p q refs refs' → I q a' refs'

/-- **The parser follows the automaton to the end.** -/
theorem loop_ends {I : JsonParser → Automaton → List Ref → Prop} {depth : Nat} (hkept : Kept I depth) (assoc : Bool) :
    ∀ (text : List Nat) {p : JsonParser} {a : Automaton} {refs : List Ref}, Sim p a refs → I p a refs → p.depth = depth →
      Ends I depth (p.loop assoc text) (a.run depth text)
  | [], _, _, _, hs, hi, hd => .ok hs hi hd
  | c :: cs, p, a, refs, hs, hi, hd => by
    have hstep := step_follows assoc hs c
    unfold JsonParser.loop Automaton.run
    rw [hd] at hstep
    generalize hp : p.step assoc c = o at hstep
    generalize ha : a.step depth c = e at hstep
    cases hstep with
    | ok hs' hd' heff => exact loop_ends hkept assoc cs hs' (hkept c hs hi ha hs' heff) (hd'.trans hd)
    | overflow h1 h2 h3 h4 h5 => exact .overflow c hs hi hd ha h2 (by rw [h5, hd])
    | invalid h1 h2 h3 h4 h5 => exact .invalid hs hi hd h1 h2 h5

theorem freeFrom_eq (rest : List Ref) : ∀ (refs : List Ref) (core : Core),
    freeFrom (refs.reverse ++ rest) core refs.length = some (refs.foldl Core.releaseValueById core)
  | [], _ => rfl
  | r :: refs, core => by
    have hsplit : (r :: refs).reverse ++ rest = refs.reverse ++ (r :: rest) := by simp
    have hget : (refs.reverse ++ (r :: rest))[refs.length]? = some r := by
      rw [List.getElem?_append_right (by simp)]
      simp
    rw [hsplit, List.length_cons, List.foldl_cons]
    unfold freeFrom
    rw [hget]
    exact freeFrom_eq (r :: rest) refs (core.releaseValueById r)

theorem freeJSONparser_eq {q s : JsonParser} {modes : List Mode} {refs : List Ref} (hs : s.Stacks modes refs)
    (hzstack : q.zstack = s.zstack) (htop : q.top = s.top) :
    q.freeJSONparser = some (refs.foldl Core.releaseValueById q.core) := by
  have hlen : (q.top + 1).toNat = refs.length := by
    have h1 := hs.top_eq
    have h2 := hs.refs_length
    omega
  unfold JsonParser.freeJSONparser
  rw [hlen, hzstack, hs.zstack_eq]
  exact freeFrom_eq _ refs q.core

/-- After an overflow the first index is that of the depth. -/
theorem freeJSONparser_none {q s : JsonParser} {modes : List Mode} {refs : List Ref} (hs : s.Stacks modes refs)
    (hzstack : q.zstack = s.zstack) (htop : q.top = s.depth) : q.freeJSONparser = none := by
  have hlen : (q.top + 1).toNat = s.depth + 1 := by omega
  have hz : s.zstack.length = s.depth := by
    have h1 := hs.refs_length
    have h2 := hs.fits
    rw [hs.zstack_eq]
    simp
    omega
  unfold JsonParser.freeJSONparser
  rw [hlen, hzstack]
  unfold freeFrom
  rw [List.getElem?_eq_none (Nat.le_of_eq hz)]

theorem newJSONparser_sim (core : Core) {depth : Nat} (hdepth : 0 < depth) :
    ∃ p, newJSONparser core depth = some p ∧ Sim p .start [.zero] ∧ p.depth = depth ∧ p.core = core ∧ p.z = .zero ∧
      p.type = .unset ∧ p.buf.bytes = [] := by
  obtain ⟨n, rfl⟩ : ∃ n, depth = n + 1 := ⟨depth - 1, by omega⟩
  refine ⟨_, rfl, ⟨rfl, ⟨rfl, rfl, hdepth, ?_, ⟨List.replicate n .array, ?_⟩, ?_⟩, .base, by rintro ⟨⟩⟩, rfl, rfl, rfl, rfl, rfl⟩
  · simp
  · simp [Automaton.start, List.replicate_succ]
  · simp [List.replicate_succ]

/-- A text that is read to `OK` with nothing open is accepted. -/
theorem decode_ok {p q : JsonParser} {assoc : Bool} {text : List Nat} (hloop : p.loop assoc text = some (.next q))
    (hs : q.Stacks [.done] [.zero]) (hok : q.state = .ok) :
    p.decode assoc text = some (some q.z, q.core.releaseValueById q.z) := by
  obtain ⟨zstack, hpop, hs'⟩ := hs.pop_ok
  have hfree : ({ q with
      core := (q.core.releaseValueById .zero).releaseValueById q.z, zstack := zstack, top := q.top - 1 } :
        JsonParser).freeJSONparser = some (q.core.releaseValueById q.z) :=
    freeJSONparser_eq (s := { q with zstack := zstack, top := q.top - 1 }) hs' rfl rfl
  unfold JsonParser.decode JsonParser.parseJSON
  rw [hloop]
  dsimp only
  rw [if_pos hok, hpop]
  dsimp only
  rw [hfree]
  rfl

/-- What `jsonDecode` returns. -/
inductive Decodes (I : JsonParser → Automaton → List Ref → Prop) (depth : Nat) :
    Option (Option Ref × Core) → Except Reject Automaton → Prop where
  | accepted {q : JsonParser} : Sim q ⟨.ok, [.done]⟩ [.zero] → I q ⟨.ok, [.done]⟩ [.zero] →
      Decodes I depth (some (some q.z, q.core.releaseValueById q.z)) (.ok ⟨.ok, [.done]⟩)
  | unfinished {q : JsonParser} {a : Automaton} {refs : List Ref} : Sim q a refs → I q a refs → a ≠ ⟨.ok, [.done]⟩ →
      Decodes I depth (some (none, refs.foldl Core.releaseValueById q.core)) (.ok a)
  | invalid {q : JsonParser} {a : Automaton} {refs : List Ref} : Sim q a refs → I q a refs →
      Decodes I depth (some (none, refs.foldl Core.releaseValueById q.core)) (.error .invalid)
  | overflow {q : JsonParser} {a : Automaton} {refs : List Ref} (c : Nat) : Sim q a refs → I q a refs →
      a.step depth c = .error .overflow → Decodes I depth none (.error .overflow)

/-- **What is returned is decided by the automaton.** -/
theorem decode_ends {I : JsonParser → Automaton → List Ref → Prop} {depth : Nat} (hkept : Kept I depth) (assoc : Bool)
    (text : List Nat) {p : JsonParser} {a : Automaton} {refs : List Ref} (hsim : Sim p a refs) (hi : I p a refs)
    (hd : p.depth = depth) : Decodes I depth (p.decode assoc text) (a.run depth text) := by
  have hends := loop_ends hkept assoc text hsim hi hd
  generalize hloop : p.loop assoc text = o at hends
  generalize a.run depth text = e at hends
  cases hends with
  | overflow c hs hi hd' hover hzstack htop =>
    unfold JsonParser.decode JsonParser.parseJSON
    rw [hloop]
    dsimp only
    rw [freeJSONparser_none hs.stacked hzstack (htop.trans (by rw [hd']))]
    exact .overflow c hs hi hover
  | invalid hs hi hd' hc hzstack htop =>
    unfold JsonParser.decode JsonParser.parseJSON
    rw [hloop]
    dsimp only
    rw [freeJSONparser_eq hs.stacked hzstack htop, hc]
    exact .invalid hs hi
  | ok hs hi hd' =>
    rename_i q a refs
    have hs' : ({ q with errorCode := .syntax' } : JsonParser).Stacks a.modes refs := hs.stacked
    by_cases hok : q.state = .ok
    · obtain ⟨s, modes⟩ := a
      have hstate : s = .ok := hs.state.symm.trans hok
      subst hstate
      have hb := hs.bottomed
      cases hb with
      | base =>
        rw [decode_ok hloop hs.stacked hok]
        exact .accepted hs hi
      | cons hne hb =>
        unfold JsonParser.decode JsonParser.parseJSON
        rw [hloop]
        dsimp only
        rw [if_pos hok, hs.stacked.pop_mismatch hne]
        dsimp only
        rw [freeJSONparser_eq hs' rfl rfl]
        refine .unfinished (q := q) hs hi ?_
        rintro heq
        cases heq
        exact hne rfl
    · unfold JsonParser.decode JsonParser.parseJSON
      rw [hloop]
      dsimp only
      rw [if_neg hok]
      dsimp only
      rw [freeJSONparser_eq hs' rfl rfl]
      refine .unfinished (q := q) hs hi fun ha => hok ?_
      rw [hs.state, ha]

/-- **The indices into both stacks are inside of them, also when the parser is freed, unless the text opens a container when
as many are open as the depth allows.** -/
theorem indices_inside (core : Core) (depth : Nat) (assoc : Bool) (text : List Nat) :
    jsonDecode core depth assoc text ≠ none ↔ (0 < depth → Automaton.start.run depth text ≠ .error .overflow) := by
  unfold jsonDecode
  by_cases hdepth : depth = 0
  · rw [if_pos hdepth]
    exact ⟨fun _ hpos => absurd hdepth (by omega), fun _ => Option.some_ne_none _⟩
  · rw [if_neg hdepth]
    obtain ⟨p, hp, hsim, hd, -⟩ := newJSONparser_sim core (Nat.pos_of_ne_zero hdepth)
    have hends := decode_ends (I := fun _ _ _ => True) (fun _ _ _ _ _ _ => trivial) assoc text hsim trivial hd
    rw [hp]
    dsimp only
    generalize p.decode assoc text = o at hends
    generalize Automaton.start.run depth text = e at hends
    cases hends with
    | overflow _ _ _ _ => exact ⟨fun h => absurd rfl h, fun h => absurd rfl (h (Nat.pos_of_ne_zero hdepth))⟩
    | accepted _ _ => exact ⟨fun _ _ => by rintro ⟨⟩, fun _ => Option.some_ne_none _⟩
    | unfinished _ _ _ => exact ⟨fun _ _ => by rintro ⟨⟩, fun _ => Option.some_ne_none _⟩
    | invalid _ _ => exact ⟨fun _ _ => by rintro ⟨⟩, fun _ => Option.some_ne_none _⟩

/-- Five hundred and twelve brackets are one more than the depth of `decode` has place for. -/
theorem index_outside : jsonDecode .new 512 false (List.replicate 512 91) = none := by
  obtain ⟨p, hp, hsim, hd, -⟩ := newJSONparser_sim Core.new (show 0 < 512 by decide)
  have hends := decode_ends (I := fun _ _ _ => True) (fun _ _ _ _ _ _ => trivial) false (List.replicate 512 91) hsim trivial hd
  have hrun : Automaton.start.run 512 (List.replicate 512 91) = .error .overflow := by decide +kernel
  rw [hrun] at hends
  unfold jsonDecode
  rw [if_neg (by decide), hp]
  dsimp only
  generalize p.decode false (List.replicate 512 91) = o at hends
  cases hends with
  | overflow _ _ _ _ => rfl

end Json
end ObjectScript
