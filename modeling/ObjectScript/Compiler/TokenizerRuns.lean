import ObjectScript.Compiler.TokenizerTurns
import Mathlib.Data.List.TakeWhile
/-!
# Runs of the tokenizer

`parseLines` over a whole text.  It comes to an end inside of its lines, with all of the text read and nothing left open, or
with an error, exactly when no state on the way is one of those in which the source slips.

The runs are over `Sound` states.  A turn makes what is left of the text shorter, so the fuel that the text gives is
enough, and the first state that does not meet `Meets` is where a run goes out of its line.
-/
namespace ObjectScript
namespace Compiler
namespace Tokenizer
namespace Scanner

/-- `parseLines`, as far as `n` turns go; none is a read outside of a line. -/
def run : Nat → Scanner → Option Outcome
  | 0, s => some (.next s)
  | n + 1, s =>
    match s.turn with
    | some (.next t) => run n t
    | o => o

/-- The states that `parseLines` comes to. -/
inductive Reachable (start : Scanner) : Scanner → Prop where
  | start : Reachable start start
  | turn {s t : Scanner} : Reachable start s → s.turn = some (.next t) → Reachable start t

/-- The turn goes on to another line, or it was the last one. -/
def GoesOn (s : Scanner) : Prop := (∃ t, s.turn = some (.next t) ∧ t.below ≠ s.below) ∨ ∃ t, s.turn = some (.done t)

/-- **The run ends**, with true and nothing left open or with an error, and what is behind the cursor of a line that is left is
nothing. -/
structure Total (start : Scanner) : Prop where
  ends : ∃ n, (∃ t, run n start = some (.done t) ∧ ¬ t.Open) ∨ ∃ error pos, run n start = some (.fail error pos)
  complete : ∀ s, Reachable start s → s.GoesOn → s.rest.dropWhile (· ≠ 0) = []

variable {s t start : Scanner}

theorem dropWhile_nonzero {r : List Nat} : r.dropWhile (· ≠ 0) = [] ↔ 0 ∉ r := by
  rw [List.dropWhile_eq_nil_iff]
  constructor
  · intro h hmem
    exact absurd rfl (of_decide_eq_true (h 0 hmem))
  · intro h c hc
    exact decide_eq_true fun h0 => h (h0 ▸ hc)

/-! ## Where a line is left -/

inductive Left (s : Scanner) : Option Outcome → Prop where
  | next {t : Scanner} : t.below ≠ s.below → s.below ≠ [] → Left s (some (.next t))
  | done {t : Scanner} : (t.Open ↔ s.Open) → Left s (some (.done t))
  | outside : Left s none

theorem Left.of_same {s' : Scanner} {o : Option Outcome} (h : Left s' o) (hb : s'.below = s.below) (hopen : s'.Open ↔ s.Open) :
    Left s o := by
  cases h with
  | next h hne => exact .next (hb ▸ h) (hb ▸ hne)
  | done ho => exact .done (ho.trans hopen)
  | outside => exact .outside

theorem left_next {l : List Nat} {ls : List (List Nat)} (hbelow : s.below = l :: ls) (ht : t.below = ls) :
    Left s (some (.next t)) := by
  refine .next ?_ ?_
  · rw [ht, hbelow]
    exact (List.cons_ne_self l ls).symm
  · rw [hbelow]
    exact List.cons_ne_nil _ _

theorem endLine_left (s : Scanner) : Left s (some s.endLine) := by
  unfold endLine
  split
  · exact .done Iff.rfl
  · rename_i l ls hbelow
    exact left_next hbelow rfl

theorem templateTurn_left (h : strstr [60, 37] s.str = none) (buf : List Nat) : Left s (s.templateTurn buf) := by
  unfold templateTurn
  rw [h]
  dsimp only
  rcases nextLine_cases s with ⟨hnext, -⟩ | ⟨l, ls, hbelow, hnext⟩
  · rw [hnext]
    exact .done Iff.rfl
  · rw [hnext]
    exact left_next hbelow rfl

theorem commentTurn_left (hs : s.Sound) (h : strstr [42, 47] s.str = none) (text : List Nat) (line pos : Nat) :
    Left s (s.commentTurn text line pos) := by
  have hcount := hs.count_eq
  unfold commentTurn
  rw [h]
  dsimp only
  rw [if_neg (by omega)]
  rcases nextLine_cases s with ⟨hnext, -⟩ | ⟨l, ls, hbelow, hnext⟩
  · rw [hnext]
    exact .outside
  · rw [hnext]
    exact left_next hbelow rfl

theorem multiTurn_left (hhead : head s.str = 0) (hne : s.below ≠ []) (buf start : List Nat) :
    Left s (s.multiTurn buf start) := by
  unfold multiTurn
  rw [if_pos hhead]
  rcases nextLine_cases s with ⟨-, hbelow⟩ | ⟨l, ls, hbelow, hnext⟩
  · exact absurd hbelow hne
  · rw [hnext]
    exact left_next hbelow rfl

theorem isPrefixOf_cons_ne {c d : Nat} {pat str : List Nat} (hne : c ≠ d) : (c :: pat).isPrefixOf (d :: str) = false := by
  rw [List.isPrefixOf_cons_cons, beq_false_of_ne hne, Bool.false_and]

/-- The turn of a token that is no string but one of several lines. -/
theorem tokenTurn_eq {c : Nat} {r : List Nat} (hstr : s.str = c :: r) (hc : c ∉ [0, 37, 125, 96, 34, 39]) :
    s.tokenTurn =
      if [60, 60, 60].isPrefixOf (c :: r) then s.beginMulti else ({ s with stringType := .notString } : Scanner).plain := by
  simp only [List.mem_cons, List.not_mem_nil, or_false, not_or] at hc
  obtain ⟨h0, h37, h125, h96, h34, h39⟩ := hc
  have hhead : head s.str = c := by
    rw [hstr]
    rfl
  have htag : (if s.templateEnabled && !s.isTemplate then looksLike s.str 0 [37, 62] else some false) = some false := by
    rw [looksLike_start _ _ (by decide), hstr, isPrefixOf_cons_ne (Ne.symm h37)]
    exact ite_self _
  unfold tokenTurn
  rw [htag, hhead, if_neg h0]
  dsimp only
  rw [if_neg (fun h => h125 h.2), if_neg h96, if_neg h34, if_neg h39, looksLike_start _ _ (by decide), hstr]
  cases [60, 60, 60].isPrefixOf (c :: r) with
  | true => rfl
  | false => rfl

theorem tokenTurn_left (h : s.EndsLine) : Left s s.tokenTurn := by
  rcases h with hhead | ⟨r, hr⟩ | hmark
  · unfold tokenTurn
    rw [if_pos hhead]
    exact endLine_left s
  · rw [tokenTurn_eq hr.symm (by decide), if_neg (by simp)]
    unfold plain
    rw [looksLike_start _ _ (by decide), looksLike_start _ _ (by decide)]
    rw [show [47, 47].isPrefixOf s.str = true from List.isPrefixOf_iff_prefix.2 ⟨r, hr⟩]
    dsimp only
    split
    · exact (endLine_left _).of_same rfl Iff.rfl
    · exact (endLine_left _).of_same rfl Iff.rfl
  · obtain ⟨⟨r, hr⟩, hvar, hid, hquote, hend, hne⟩ := hmark
    have hlen : 3 ≤ s.str.length := by
      rw [← hr]
      simp
    rw [tokenTurn_eq hr.symm (by decide), if_pos (by rfl)]
    unfold afterMark at hquote hend
    unfold beginMulti
    rw [if_neg (by omega), advance_some hlen]
    dsimp only
    rw [if_neg (fun h => h.elim hquote (Nat.not_lt.2 hid)), if_neg (not_not.2 hend)]
    unfold nextLine
    dsimp only
    cases hbelow : s.below with
    | nil => exact absurd hbelow hne
    | cons l ls =>
      dsimp only
      rw [enter_multi]
      · exact left_next hbelow rfl
      · exact quote_type _
      · exact hvar

theorem turn_left (hs : s.Sound) (h : s.Leaves) : Left s s.turn := by
  unfold Leaves at h
  unfold turn
  cases hmode : s.mode with
  | code =>
    rw [hmode] at h
    dsimp only at h ⊢
    cases hb : s.between with
    | true =>
      rw [hb, if_pos rfl] at h
      rw [if_pos rfl]
      exact templateTurn_left h []
    | false =>
      rw [hb, if_neg Bool.false_ne_true] at h
      rw [if_neg Bool.false_ne_true]
      have htoken : Left { s with str := skipSpaces s.str } s.codeTurn := tokenTurn_left h
      exact htoken.of_same rfl Iff.rfl
  | multi buf start =>
    rw [hmode] at h
    exact multiTurn_left h.1 h.2 buf start
  | string buf start =>
    rw [hmode] at h
    exact h.elim
  | comment text line pos =>
    rw [hmode] at h
    exact commentTurn_left hs h text line pos
  | template buf =>
    rw [hmode] at h
    exact templateTurn_left h buf

/-! ## The slips -/

/-- Behind `1.#` a name is compared with what is not there. -/
theorem tokenTurn_number (hhead : head s.str = 49) (hnone : parseFloat s.str = none) : s.tokenTurn = none := by
  obtain ⟨c, r, hstr, -⟩ := head_ne_zero (hhead.trans_ne (by decide) : head s.str ≠ 0)
  obtain rfl : c = 49 := by
    rw [hstr] at hhead
    exact hhead
  have hoperator : operators.find? (fun op => op.isPrefixOf s.str) = none := by
    rw [hstr]
    rfl
  rw [tokenTurn_eq hstr (by decide), if_neg (by simp)]
  unfold plain
  rw [looksLike_start _ _ (by decide), looksLike_start _ _ (by decide)]
  dsimp only
  rw [hoperator, parseNumber_none.2 hnone, hhead, hstr, isPrefixOf_cons_ne (by decide), isPrefixOf_cons_ne (by decide)]
  rfl

/-- Where something is open behind the last line, the turn does not go on. -/
theorem closed_of_next (hs : s.Sound) (hturn : s.turn = some (.next t)) (h : s.Leaves) : s.below ≠ [] := by
  have hleft := turn_left hs h
  rw [hturn] at hleft
  cases hleft with
  | next _ hne => exact hne

/-- Behind the line the mark is compared with what is not there. -/
theorem mark_of_turn (hturn : s.turn ≠ none) (buf start : List Nat) (hmode : s.mode = .multi buf start)
    (hhead : head s.str ≠ 0) : s.multiStringId.length ≤ s.str.length + 1 := by
  refine Nat.le_of_not_lt fun hlt => hturn ?_
  unfold turn
  rw [hmode]
  dsimp only
  unfold multiTurn memcmp
  rw [if_neg hhead, if_neg (by omega)]

/-- In front of the mark a character of an empty text is read. -/
theorem first_of_turn (hs : s.Sound) (hturn : s.turn ≠ none) (buf start : List Nat) (hmode : s.mode = .multi buf start)
    (hpre : s.multiStringId <+: s.str) (hstart : s.str.length = s.lineStart.length) : buf ≠ [10] := by
  rintro rfl
  obtain ⟨hvar, hid⟩ := hs.multi _ _ hmode
  have hhead : head s.str ≠ 0 := fun h0 => by
    obtain ⟨r, hr⟩ := hpre
    cases hmark : s.multiStringId with
    | nil => exact hid hmark
    | cons c mark =>
      rw [hmark] at hr
      rw [← hr] at h0
      refine hs.nonzero ?_
      rw [hmark, show c = 0 from h0]
      exact List.mem_cons_self
  refine hturn ?_
  unfold turn
  rw [hmode]
  dsimp only
  unfold multiTurn
  rw [if_neg hhead, memcmp_eq_true hpre]
  dsimp only
  rw [if_neg (by omega), advance_some hpre.length_le]
  dsimp only
  rw [if_pos ⟨hstart, by decide⟩]
  rfl

theorem number_of_turn (hturn : s.turn ≠ none) (hmode : s.mode = .code) (hb : s.between = false)
    (r : List Nat) (hstr : skipSpaces s.str = 49 :: 46 :: 35 :: r) : HasPlace specials (46 :: 35 :: r) := by
  have hhead : head (skipSpaces s.str) = 49 := by
    rw [hstr]
    rfl
  refine (parseFloat_some (by omega) (by omega)).1 (fun hnone => hturn ?_) r hstr
  unfold turn
  rw [hmode]
  dsimp only
  rw [hb, if_neg Bool.false_ne_true]
  exact tokenTurn_number (s := { s with str := skipSpaces s.str }) hhead hnone

/-- **A turn takes something of the text**, also where the source has slipped before. -/
theorem turn_takes (hs : s.Sound) (hturn : s.turn = some (.next t)) : t.left < s.left ∧ t.Sound := by
  have hsome : s.turn ≠ none := by
    rw [hturn]
    rintro ⟨⟩
  have hp := turn_proceeds_of hs (fun hleaves hbelow => absurd hbelow (closed_of_next hs hturn hleaves))
    (mark_of_turn hsome) (first_of_turn hs hsome) (number_of_turn hsome)
  rw [hturn] at hp
  cases hp with
  | next hlt ht _ => exact ⟨hlt, ht⟩

/-- A state where the source slips is none that a run with a good end comes to. -/
theorem meets_of_turn (hs : s.Sound) (hturn : s.turn ≠ none) (hdone : ∀ t, s.turn = some (.done t) → ¬ t.Open)
    (hrest : s.GoesOn → s.rest.dropWhile (· ≠ 0) = []) : s.Meets where
  closed h hbelow hopen := by
    cases htl : s.turn with
    | none => exact hturn htl
    | some o =>
      have hleft := turn_left hs h
      rw [htl] at hleft
      cases hleft with
      | next _ hne => exact hne hbelow
      | done ho => exact hdone _ htl (ho.2 hopen)
  mark := mark_of_turn hturn
  first := first_of_turn hs hturn
  number := number_of_turn hturn
  kept h := by
    refine dropWhile_nonzero.1 (hrest ?_)
    cases htl : s.turn with
    | none => exact absurd htl hturn
    | some o =>
      have hleft := turn_left hs h
      rw [htl] at hleft
      cases hleft with
      | next hne _ => exact .inl ⟨_, htl, hne⟩
      | done _ => exact .inr ⟨_, htl⟩

/-! ## Runs -/

theorem run_next (n : Nat) (h : s.turn = some (.next t)) : run (n + 1) s = run n t := by
  rw [run, h]

theorem run_stop (n : Nat) (h : ∀ t, s.turn ≠ some (.next t)) : run (n + 1) s = s.turn := by
  rw [run]
  split
  · rename_i t hturn
    exact absurd hturn (h t)
  · rfl

theorem Reachable.run_eq (h : Reachable start s) {n : Nat} (hn : ∀ t, run n start ≠ some (.next t)) :
    ∃ j, run (j + 1) s = run n start := by
  induction h with
  | start =>
    cases n with
    | zero => exact absurd rfl (hn start)
    | succ n => exact ⟨n, rfl⟩
  | turn _ hturn ih =>
    obtain ⟨j, hj⟩ := ih
    rw [run_next j hturn] at hj
    cases j with
    | zero => exact absurd hj.symm (hn _)
    | succ j => exact ⟨j, hj⟩

theorem Reachable.sound (hstart : start.Sound) (h : Reachable start s) : s.Sound := by
  induction h with
  | start => exact hstart
  | turn _ hturn ih => exact (turn_takes ih hturn).2

/-- A run with a good end meets what is asked of each state. -/
theorem Total.meets (h : start.Total) (hstart : start.Sound) (hr : Reachable start s) : s.Sound ∧ s.Meets := by
  obtain ⟨n, hn⟩ := h.ends
  have hnext : ∀ t, run n start ≠ some (.next t) := fun t heq => by
    rw [heq] at hn
    rcases hn with ⟨u, ⟨⟩, -⟩ | ⟨error, pos, ⟨⟩⟩
  have hsound := hr.sound hstart
  obtain ⟨j, hj⟩ := hr.run_eq hnext
  refine ⟨hsound, meets_of_turn hsound (fun hturn => ?_) (fun t hturn hopen => ?_) (h.complete s hr)⟩
  · rw [run_stop j (by rw [hturn]; rintro _ ⟨⟩), hturn] at hj
    rw [← hj] at hn
    rcases hn with ⟨u, ⟨⟩, -⟩ | ⟨error, pos, ⟨⟩⟩
  · rw [run_stop j (by rw [hturn]; rintro _ ⟨⟩), hturn] at hj
    rw [← hj] at hn
    rcases hn with ⟨u, ⟨⟩, hu⟩ | ⟨error, pos, ⟨⟩⟩
    exact hu hopen

theorem run_ends (hmeets : ∀ s, Reachable start s → s.Meets) (hstart : start.Sound) : ∀ (m : Nat) (s : Scanner), s.left < m →
    Reachable start s →
    ∃ n, (∃ t, run n s = some (.done t) ∧ ¬ t.Open) ∨ ∃ error pos, run n s = some (.fail error pos)
  | 0, _, hm, _ => absurd hm (Nat.not_lt_zero _)
  | m + 1, s, hm, hr => by
    have hp := turn_proceeds (hr.sound hstart) (hmeets s hr)
    cases hturn : s.turn with
    | none =>
      rw [hturn] at hp
      cases hp
    | some o =>
      rw [hturn] at hp
      cases hp with
      | next hlt _ _ =>
        obtain ⟨n, hn⟩ := run_ends hmeets hstart m _ (by omega) (hr.turn hturn)
        refine ⟨n + 1, ?_⟩
        rw [run_next n hturn]
        exact hn
      | done ho hbelow hleaves =>
        refine ⟨1, .inl ⟨_, ?_, fun h => (hmeets s hr).closed hleaves hbelow (ho.1 h)⟩⟩
        rw [run_stop 0 (by rw [hturn]; rintro _ ⟨⟩), hturn]
      | fail error pos =>
        refine ⟨1, .inr ⟨error, pos, ?_⟩⟩
        rw [run_stop 0 (by rw [hturn]; rintro _ ⟨⟩), hturn]

theorem leaves_of_goesOn (hs : s.Sound) (hm : s.Meets) (h : s.GoesOn) : s.Leaves := by
  have hp := turn_proceeds hs hm
  rcases h with ⟨t, hturn, hne⟩ | ⟨t, hturn⟩
  · rw [hturn] at hp
    cases hp with
    | next _ _ hb => exact hb.resolve_left hne
  · rw [hturn] at hp
    cases hp with
    | done _ _ hl => exact hl

theorem total_of_meets (hmeets : ∀ s, Reachable start s → s.Meets) (hstart : start.Sound) : start.Total where
  ends := run_ends hmeets hstart _ start (Nat.lt_succ_self _) .start
  complete s hr h :=
    dropWhile_nonzero.2 ((hmeets s hr).kept (leaves_of_goesOn (hr.sound hstart) (hmeets s hr) h))

end Scanner

/-! ## A text -/

/-- What stands in front of the text is skipped inside of the line. -/
theorem skip_some (b : Bool) (pat line : List Nat) :
    ∃ str, (if (b && pat.isPrefixOf line) = true then advance line pat.length else some line) = some str := by
  split
  · rename_i h
    exact ⟨_, advance_some (List.isPrefixOf_iff_prefix.1 (Bool.and_eq_true_iff.1 h).2).length_le⟩
  · exact ⟨_, rfl⟩

theorem begin_sound (saveComments : Bool) (type : SourceCodeType) (checkUtf8Bom : Bool) (lines : List (List Nat)) :
    ∃ o, begin saveComments type checkUtf8Bom lines = some o ∧ ∀ start, o = some start → start.Sound := by
  cases lines with
  | nil => exact ⟨none, rfl, by rintro _ ⟨⟩⟩
  | cons line below =>
    unfold begin
    dsimp only
    rw [looksLike_if _ _ _ (by decide)]
    dsimp only
    obtain ⟨lineStart, hstart⟩ := skip_some (decide (checkUtf8Bom = true)) [239, 187, 191] line
    rw [show advance line 3 = advance line [239, 187, 191].length from rfl, hstart]
    dsimp only
    rw [looksLike_if _ _ _ (by decide)]
    dsimp only
    obtain ⟨str, hstr⟩ := skip_some (decide (type = .auto)) [60, 37] lineStart
    rw [show advance lineStart 2 = advance lineStart [60, 37].length from rfl, hstr]
    refine ⟨_, rfl, ?_⟩
    rintro _ ⟨⟩
    refine ⟨?_, .inl ⟨rfl, rfl⟩, List.not_mem_nil, (by rintro ⟨⟩), (by rintro _ _ ⟨⟩), by rintro _ _ ⟨⟩⟩
    show 0 + below.length + 1 = (line :: below).length
    rw [List.length_cons, Nat.zero_add]

def Tokenizes (saveComments : Bool) (type : SourceCodeType) (checkUtf8Bom : Bool) (text : List Nat) : Prop :=
  ∃ o, begin saveComments type checkUtf8Bom (splitLines text) = some o ∧ ∀ start, o = some start → start.Total

/-- **A text is tokenized** exactly when no state on the way is one of those in which the source slips. -/
theorem tokenizes_iff (saveComments : Bool) (type : SourceCodeType) (checkUtf8Bom : Bool) (text : List Nat) :
    Tokenizes saveComments type checkUtf8Bom text ↔
      ∀ start, begin saveComments type checkUtf8Bom (splitLines text) = some (some start) →
        ∀ s, Scanner.Reachable start s → s.Meets := by
  obtain ⟨o, ho, hsound⟩ := begin_sound saveComments type checkUtf8Bom (splitLines text)
  constructor
  · rintro ⟨o', ho', htotal⟩ start hstart s hr
    have hsome : o' = some start := Option.some.inj (ho'.symm.trans hstart)
    have hsome' : o = some start := Option.some.inj (ho.symm.trans hstart)
    exact ((htotal start hsome).meets (hsound start hsome') hr).2
  · intro h
    refine ⟨o, ho, fun start hstart => ?_⟩
    rw [hstart] at ho
    exact Scanner.total_of_meets (h start ho) (hsound start hstart)

/-- Behind a comment that is not closed a line is read that is not there. -/
theorem comment_outside : ¬ Tokenizes false .plain false [47, 42] := by
  rintro ⟨o, ho, htotal⟩
  obtain ⟨n, hn⟩ := (htotal _ (Option.some.inj ho).symm).ends
  rcases n with _ | _ | n
  · rcases hn with ⟨t, ⟨⟩, -⟩ | ⟨error, pos, ⟨⟩⟩
  · rcases hn with ⟨t, ⟨⟩, -⟩ | ⟨error, pos, ⟨⟩⟩
  · rcases hn with ⟨t, ⟨⟩, -⟩ | ⟨error, pos, ⟨⟩⟩

end Tokenizer
end Compiler
end ObjectScript
