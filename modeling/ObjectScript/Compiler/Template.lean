import ObjectScript.Compiler.TemplateTurns
/-!
# Templates

A template is text with sections of code in it.  `Template` says how it is to be read: what is outside of the sections is
written as it stands, and each section is tokenized as plain source is, from its place on.  The tokenizer does so, but it puts
a line end behind text that has none at its end.

`Template` is a relation between a text and its tokens, with a constructor for each thing that may come next: text, the
two kinds of sections, and the end.  `templateTokens_iff` compares it with the tokenizer, whose slips are at a zero byte
and at the end of the last text.  It is about `OS_SOURCECODE_TEMPLATE`; `OS_SOURCECODE_AUTO`, where a mark at the start of
the text decides, is in `begin` only.
-/
namespace ObjectScript
namespace Compiler
namespace Tokenizer

/-! ## How a template is to be read -/

/-- What the tokens of a template say, character by character outside of the sections. -/
inductive Piece where
  | char (c : Nat)
  | nextValue
  | token (t : Token)
deriving DecidableEq, Repr

def Token.pieces (t : Token) : List Piece :=
  match t.type with
  | .outputString => t.text.map .char
  | .outputNextValue => [.nextValue]
  | _ => [.token t]

def pieces (ts : List Token) : List Piece := ts.flatMap Token.pieces

def lastBreak (text : List Nat) : List Nat := if text.getLast? = some 10 then [10] else []

/-- The mark `<%` is nowhere. -/
def NoTag (text : List Nat) : Prop := ¬ [60, 37] <:+: text

/-- What stands in front of the first mark `<%`. -/
def FirstTag (text before : List Nat) : Prop := NoTag (before ++ [60]) ∧ ∃ rest, text = before ++ 60 :: 37 :: rest

namespace Scanner

/-- The text that is left, with the line end behind the last line. -/
def ahead (last : List Nat) (s : Scanner) : List Nat := s.str ++ s.below.flatMap (fun l => 10 :: l) ++ last

/-- The place `n` characters on. -/
def forward : Nat → Scanner → Scanner
  | 0, s => s
  | n + 1, s =>
    match s.str, s.below with
    | _ :: str, _ => forward n { s with str := str }
    | [], l :: ls => forward n { s with curLine := s.curLine + 1, lineStart := l, str := l, below := ls }
    | [], [] => s

/-- Plain source from the cursor on, without the tokens so far.  A `${ }` that is open stays open: a mark inside of it closes
the section all the same. -/
def alone (s : Scanner) : Scanner := { s with mode := .code, templateEnabled := false, isTemplate := false, tokens := [] }

/-- Behind the mark `<%`; an equals sign says that a value is to be written. -/
def behindOpen (s : Scanner) : Scanner × List Piece :=
  if head s.str = 61 then ({ s with str := s.str.tail }, [.nextValue]) else (s, [])

/-- A section is opened behind the text `before`. -/
def Opens (last : List Nat) (s : Scanner) (before : List Nat) (c : Scanner) (value : List Piece) : Prop :=
  FirstTag (s.ahead last) before ∧ (s.forward (before.length + 2)).behindOpen = (c, value)

/-- The tokenizer comes to a state, not past the mark that closes the section. -/
inductive CodeTo (s : Scanner) : Scanner → Prop where
  | start : CodeTo s s
  | turn {t u : Scanner} : CodeTo s t → ¬ t.AtClose → t.turn = some (.next u) → CodeTo s u

def behindClose (s : Scanner) : Scanner := { s.alone with str := (skipSpaces s.str).drop 2 }

end Scanner

inductive Ending where
  | inText
  | inCode
  | fail (error : ErrorType) (pos : Nat)
  | outside
deriving DecidableEq, Repr

open Scanner in
/-- **How a template is to be read** from a place between its sections. -/
inductive Template (last : List Nat) : Scanner → List Piece → Ending → Prop where
  | text {s : Scanner} : NoTag (s.ahead last) → Template last s ((s.ahead last).map .char) .inText
  | closed {s c e : Scanner} {before : List Nat} {value ps : List Piece} {o : Ending} : s.Opens last before c value →
      c.CodeTo e → e.AtClose → Template last e.behindClose ps o →
      Template last s (before.map .char ++ value ++ pieces e.tokens ++ ps) o
  | code {s c e t : Scanner} {before : List Nat} {value : List Piece} : s.Opens last before c value →
      c.CodeTo e → ¬ e.AtClose → e.turn = some (.done t) →
      Template last s (before.map .char ++ value ++ pieces t.tokens) .inCode
  | fail {s c e : Scanner} {before : List Nat} {value : List Piece} {error : ErrorType} {pos : Nat} :
      s.Opens last before c value → c.CodeTo e → ¬ e.AtClose → e.turn = some (.fail error pos) →
      Template last s (before.map .char ++ value ++ pieces e.tokens) (.fail error pos)
  | outside {s c e : Scanner} {before : List Nat} {value : List Piece} :
      s.Opens last before c value → c.CodeTo e → ¬ e.AtClose → e.turn = none →
      Template last s (before.map .char ++ value ++ pieces e.tokens) .outside

/-! ## Text -/

theorem pieces_append (ts us : List Token) : pieces (ts ++ us) = pieces ts ++ pieces us := List.flatMap_append

theorem strstr_tag : ∀ {a : List Nat} (r : List Nat), NoTag (a ++ [60]) → 0 ∉ a →
    strstr [60, 37] (a ++ 60 :: 37 :: r) = some (a, 60 :: 37 :: r)
  | [], r, _, _ => rfl
  | c :: a, r, htag, hzero => by
    have hc : c ≠ 0 := fun h => hzero (by rw [h]; exact List.mem_cons_self)
    have hprefix : [60, 37].isPrefixOf (c :: (a ++ 60 :: 37 :: r)) = false := by
      refine Bool.eq_false_iff.2 fun h => htag ?_
      obtain ⟨r', hr'⟩ := List.isPrefixOf_iff_prefix.1 h
      cases a with
      | nil => cases hr'
      | cons d a =>
        cases hr'
        exact (List.prefix_append [60, 37] (a ++ [60])).isInfix
    have htail : NoTag (a ++ [60]) := fun h => htag (h.trans (List.suffix_cons c _).isInfix)
    rw [List.cons_append, strstr, hprefix, if_neg Bool.false_ne_true, if_neg hc,
      strstr_tag r htail fun h => hzero (List.mem_cons_of_mem _ h)]
    rfl

theorem strstr_noTag : ∀ {r : List Nat}, NoTag r → strstr [60, 37] r = none
  | [], _ => rfl
  | c :: r, htag => by
    have hprefix : [60, 37].isPrefixOf (c :: r) = false :=
      Bool.eq_false_iff.2 fun h => htag (List.isPrefixOf_iff_prefix.1 h).isInfix
    rw [strstr, hprefix, if_neg Bool.false_ne_true, strstr_noTag fun h => htag (h.trans (List.suffix_cons c r).isInfix)]
    exact ite_self _

theorem cstr_eq {r : List Nat} (h : 0 ∉ r) : cstr r = r :=
  List.takeWhile_eq_self_iff.2 fun _ hc => decide_eq_true fun h0 => h (h0 ▸ hc)

theorem firstTag_line {line rest before : List Nat} (hrest : rest = [] ∨ ∃ r, rest = 10 :: r)
    (h : FirstTag (line ++ rest) before) :
    (∃ r, line = before ++ 60 :: 37 :: r) ∨
      NoTag line ∧ ∃ r before', rest = 10 :: r ∧ before = line ++ 10 :: before' ∧ FirstTag r before' := by
  obtain ⟨htag, r, hr⟩ := h
  rcases List.append_eq_append_iff.1 hr with ⟨behind, rfl, hrest'⟩ | ⟨behind, rfl, hbehind⟩
  · refine .inr ⟨fun h => htag (h.trans ?_), ?_⟩
    · rw [List.append_assoc]
      exact (List.prefix_append line _).isInfix
    · rcases hrest with rfl | ⟨r', rfl⟩
      · simp at hrest'
      · cases behind with
        | nil => cases hrest'
        | cons d behind =>
          obtain ⟨rfl, rfl⟩ := List.cons.inj hrest'
          refine ⟨_, behind, rfl, rfl, fun h => htag (h.trans ?_), r, rfl⟩
          rw [List.append_assoc, List.cons_append]
          exact (List.suffix_append_of_suffix (List.suffix_cons 10 _)).isInfix
  · match behind, hbehind with
    | [], hbehind =>
      rcases hrest with rfl | ⟨r', rfl⟩
      · cases hbehind
      · cases hbehind
    | [d], hbehind =>
      rcases hrest with rfl | ⟨r', rfl⟩
      · cases hbehind
      · cases hbehind
    | d :: d' :: behind, hbehind =>
      cases hbehind
      exact .inl ⟨behind, rfl⟩

theorem noTag_line {line rest : List Nat} (h : NoTag (line ++ 10 :: rest)) : NoTag line ∧ NoTag rest :=
  ⟨fun hi => h (hi.trans (List.prefix_append _ _).isInfix),
    fun hi => h (hi.trans (List.suffix_append_of_suffix (List.suffix_cons 10 rest)).isInfix)⟩

namespace Scanner

theorem forward_line {s : Scanner} {l : List Nat} {ls : List (List Nat)} (hbelow : s.below = l :: ls) (n : Nat) :
    ∀ str : List Nat,
    forward (str.length + 1 + n) { s with str := str } =
      forward n { s with curLine := s.curLine + 1, lineStart := l, str := l, below := ls }
  | [] => by
    rw [List.length_nil, Nat.zero_add, Nat.add_comm, forward, hbelow]
  | _ :: str => by
    rw [List.length_cons, show str.length + 1 + 1 + n = (str.length + 1 + n) + 1 by omega, forward]
    exact forward_line hbelow n str

theorem forward_drop (s : Scanner) : ∀ (n : Nat) (str : List Nat), n ≤ str.length →
    forward n { s with str := str } = { s with str := str.drop n }
  | 0, _, _ => rfl
  | n + 1, [], h => absurd h (Nat.not_succ_le_zero n)
  | n + 1, _ :: str, h => forward_drop s n str (Nat.le_of_succ_le_succ h)

/-- The text between the sections is read, with `buf` of it behind. -/
structure AtText (r : Scanner) (buf : List Nat) : Prop where
  enabled : r.templateEnabled = true
  text : r.isTemplate = true
  mode : r.mode = .code ∧ buf = [] ∨ r.mode = .template buf

theorem AtText.turn {r : Scanner} {buf : List Nat} (h : r.AtText buf) : r.turn = r.templateTurn buf := by
  unfold Scanner.turn
  rcases h.mode with ⟨hmode, rfl⟩ | hmode
  · rw [hmode]
    dsimp only
    rw [if_pos (show r.between = true by unfold between; rw [h.enabled, h.text]; rfl)]
  · rw [hmode]

/-- The line goes to the text, and the next one is read. -/
theorem AtText.line {r : Scanner} {buf l : List Nat} {ls : List (List Nat)} (h : r.AtText buf) (hbelow : r.below = l :: ls)
    (htag : NoTag r.str) (hzero : 0 ∉ r.str) :
    ∃ u, r.turn = some (.next u) ∧ u.AtText (buf ++ r.str ++ [10]) ∧ u.below = ls ∧ u.str = l ∧ u.tokens = r.tokens ∧
      u.alone = { r.alone with curLine := r.curLine + 1, lineStart := l, str := l, below := ls } := by
  refine ⟨{ r with
    curLine := r.curLine + 1, lineStart := l, str := l, below := ls, mode := .template (buf ++ r.str ++ [10]) }, ?_,
    ⟨h.enabled, h.text, .inr rfl⟩, rfl, rfl, rfl, rfl⟩
  rw [h.turn, templateTurn, strstr_noTag htag, cstr_eq hzero, nextLine, hbelow]

theorem pieces_output (text : List Nat) (line pos : Nat) : pieces [⟨text, .outputString, line, pos⟩] = text.map .char :=
  List.append_nil _

theorem ahead_cons {s : Scanner} {l : List Nat} {ls : List (List Nat)} {last : List Nat} (hbelow : s.below = l :: ls) :
    s.ahead last = s.str ++ 10 :: (l ++ ls.flatMap (fun l => 10 :: l) ++ last) := by
  unfold ahead
  rw [hbelow, List.flatMap_cons]
  simp

/-- **Text without a mark** is read to its end, and a line end is put behind it. -/
theorem text_done {r : Scanner} {buf : List Nat} (h : r.AtText buf) (htag : NoTag (r.ahead [])) (hzero : 0 ∉ r.ahead []) :
    ∃ n t, run n r = some (.done t) ∧ pieces t.tokens = pieces r.tokens ++ (buf ++ r.ahead [] ++ [10]).map .char := by
  obtain ⟨below, hbelow⟩ : ∃ below, r.below = below := ⟨_, rfl⟩
  induction below generalizing r buf with
  | nil =>
    have hahead : r.ahead [] = r.str := by
      unfold ahead
      rw [hbelow]
      simp
    rw [hahead] at htag hzero ⊢
    refine ⟨1, r.addToken (buf ++ r.str ++ [10]) .outputString 0, ?_, ?_⟩
    · have hturn : r.turn = some (.done (r.addToken (buf ++ r.str ++ [10]) .outputString 0)) := by
        rw [h.turn, templateTurn, strstr_noTag htag, cstr_eq hzero, nextLine, hbelow]
      rw [run_stop 0 (by rw [hturn]; rintro _ ⟨⟩), hturn]
    · unfold addToken
      rw [pieces_append, pieces_output]
  | cons l ls ih =>
    have hahead : r.ahead [] = _ := ahead_cons hbelow
    rw [hahead] at htag hzero ⊢
    obtain ⟨hline, hrest⟩ := noTag_line htag
    obtain ⟨u, hturn, hu, hubelow, hustr, htokens, -⟩ := h.line hbelow hline fun h0 => hzero (List.mem_append_left _ h0)
    have huahead : u.ahead [] = l ++ ls.flatMap (fun l => 10 :: l) ++ [] := by
      unfold ahead
      rw [hustr, hubelow]
    have hrestZero : 0 ∉ u.ahead [] := by
      rw [huahead]
      exact fun h0 => hzero (List.mem_append_right _ (List.mem_cons_of_mem _ h0))
    obtain ⟨n, t, hrun, ht⟩ := ih hu (by rw [huahead]; exact hrest) hrestZero hubelow
    refine ⟨n + 1, t, by rw [run_next n hturn, hrun], ?_⟩
    rw [ht, htokens, huahead]
    simp

theorem AtText.open {r : Scanner} {buf before x : List Nat} (h : r.AtText buf) (hline : r.str = before ++ 60 :: 37 :: x)
    (htag : NoTag (before ++ [60])) (hzero : 0 ∉ before) :
    ∃ ts, r.turn = some (.next (({ r.alone with str := x } : Scanner).behindOpen.1.within ts true)) ∧
      pieces ts = pieces r.tokens ++ (buf ++ before).map .char ++ ({ r.alone with str := x } : Scanner).behindOpen.2 := by
  obtain ⟨output, houtput⟩ : ∃ output : Scanner,
      output = if buf ++ before ≠ [] then r.addToken (buf ++ before) .outputString (r.pos r.str) else r := ⟨_, rfl⟩
  have htokens : output = { r with tokens := output.tokens } ∧
      pieces output.tokens = pieces r.tokens ++ (buf ++ before).map .char := by
    rw [houtput]
    split
    · refine ⟨rfl, ?_⟩
      unfold addToken
      rw [pieces_append, pieces_output]
    · rename_i hempty
      refine ⟨rfl, ?_⟩
      rw [not_not.1 hempty]
      simp
  obtain ⟨hsame, hpieces⟩ := htokens
  have hturn : r.turn =
      if head x = 61 then some (.next { ({ output with str := x, isTemplate := false, mode := .code } : Scanner).addToken [61]
        .outputNextValue (r.str.length - x.length) with str := x.tail })
      else some (.next { output with str := x, isTemplate := false, mode := .code }) := by
    rw [h.turn, templateTurn, hline, strstr_tag x htag hzero, ← hline]
    dsimp only
    rw [← houtput, advance_some (by simp)]
    rfl
  unfold behindOpen
  rw [hturn, hsame]
  by_cases hequals : head x = 61
  · refine ⟨output.tokens ++ [⟨[61], .outputNextValue, r.curLine, r.str.length - x.length⟩], ?_, ?_⟩
    · rw [if_pos hequals, if_pos hequals]
      simp only [within, addToken, alone, List.append_nil, h.enabled]
    · rw [if_pos hequals, pieces_append, hpieces]
      rfl
  · refine ⟨output.tokens, ?_, ?_⟩
    · rw [if_neg hequals, if_neg hequals]
      simp only [within, alone, List.append_nil, h.enabled]
    · rw [if_neg hequals, hpieces, List.append_nil]

theorem AtText.reached {r c : Scanner} {buf before x : List Nat} {value : List Piece} (h : r.AtText buf)
    (hline : r.str = before ++ 60 :: 37 :: x) (htag : NoTag (before ++ [60])) (hzero : 0 ∉ before)
    (hopen : (r.alone.forward (before.length + 2)).behindOpen = (c, value)) :
    ∃ ts, Reachable r (c.within ts true) ∧ pieces ts = pieces r.tokens ++ (buf ++ before).map .char ++ value := by
  have hforward : r.alone.forward (before.length + 2) = { r.alone with str := x } := by
    have hdrop := forward_drop r.alone (before.length + 2) r.str (by rw [hline]; simp)
    have hbehind : r.str.drop (before.length + 2) = x := by
      rw [hline]
      simp
    rw [hbehind] at hdrop
    exact hdrop
  obtain ⟨ts, hturn, hts⟩ := h.open hline htag hzero
  rw [hforward] at hopen
  rw [hopen] at hturn hts
  exact ⟨ts, Reachable.start.turn hturn, hts⟩

/-- **Text in front of a mark** is read, and the section behind the mark is opened. -/
theorem text_opens {last : List Nat} (hlast : last = [] ∨ last = [10]) {r c : Scanner} {buf before : List Nat}
    {value : List Piece} (h : r.AtText buf) (hzero : 0 ∉ before) (hopens : r.alone.Opens last before c value) :
    ∃ ts, Reachable r (c.within ts true) ∧ pieces ts = pieces r.tokens ++ (buf ++ before).map .char ++ value := by
  obtain ⟨below, hbelow⟩ : ∃ below, r.below = below := ⟨_, rfl⟩
  obtain ⟨hfirst, hopen⟩ := hopens
  induction below generalizing r buf before with
  | nil =>
    have hahead : r.alone.ahead last = r.str ++ last := by
      unfold ahead
      rw [show r.alone.below = [] from hbelow]
      simp [alone]
    rw [hahead] at hfirst
    rcases firstTag_line (hlast.imp_right fun h => ⟨[], h⟩) hfirst with ⟨x, hline⟩ | ⟨-, x, before', hx, -, -, y, hx'⟩
    · exact h.reached hline hfirst.1 hzero hopen
    · have hlen := congrArg List.length hx
      rw [hx', List.length_cons, List.length_append, List.length_cons, List.length_cons] at hlen
      rcases hlast with rfl | rfl
      · cases hx
      · simp at hlen
  | cons l ls ih =>
    have hahead : r.alone.ahead last = r.str ++ 10 :: (l ++ ls.flatMap (fun l => 10 :: l) ++ last) :=
      ahead_cons (s := r.alone) hbelow
    rw [hahead] at hfirst
    rcases firstTag_line (.inr ⟨_, rfl⟩) hfirst with ⟨x, hline⟩ | ⟨htag, x, before', hx, rfl, hfirst'⟩
    · exact h.reached hline hfirst.1 hzero hopen
    · obtain ⟨u, hturn, hu, hubelow, hustr, htokens, halone⟩ := h.line hbelow htag fun h0 => hzero (List.mem_append_left _ h0)
      obtain rfl := (List.cons.inj hx).2
      have huahead : u.alone.ahead last = l ++ ls.flatMap (fun l => 10 :: l) ++ last := by
        rw [halone]
        rfl
      have hzero' : 0 ∉ before' := fun h0 => hzero (List.mem_append_right _ (List.mem_cons_of_mem _ h0))
      have hforward : r.alone.forward ((r.str ++ 10 :: before').length + 2) = u.alone.forward (before'.length + 2) := by
        have hline := forward_line (s := r.alone) hbelow (before'.length + 2) r.str
        rw [List.length_append, List.length_cons, halone,
          show r.str.length + (before'.length + 1) + 2 = r.str.length + 1 + (before'.length + 2) by omega]
        exact hline
      rw [hforward] at hopen
      obtain ⟨ts, hreach, hts⟩ := ih hu hzero' hubelow (by rw [huahead]; exact hfirst') hopen
      refine ⟨ts, (Reachable.start.turn hturn).trans hreach, ?_⟩
      rw [hts, htokens]
      simp

/-! ## Sections -/

theorem behindOpen_plain {s : Scanner} (hs : s.Plain) : s.behindOpen.1.Plain := by
  unfold behindOpen
  split
  · exact hs
  · exact hs

theorem forward_plain : ∀ (n : Nat) {s : Scanner}, s.Plain → (s.forward n).Plain
  | 0, _, hs => hs
  | n + 1, s, hs => by
    rw [forward]
    split
    · exact forward_plain n hs
    · exact forward_plain n hs
    · exact hs

/-- **A section is read** as a text of its own. -/
theorem CodeTo.reached {c e : Scanner} (h : c.CodeTo e) (hc : c.Plain) (ts : List Token) :
    Reachable (c.within ts true) (e.within ts true) ∧ e.Plain := by
  induction h with
  | start => exact ⟨.start, hc⟩
  | turn _ hclose hturn ih =>
    obtain ⟨hreach, hplain⟩ := ih
    refine ⟨hreach.turn ?_, turn_plain hplain hturn⟩
    rw [turn_within ts true _ hplain.1 fun _ => hclose, hturn]
    rfl

theorem close_turn {e : Scanner} (h : e.AtClose) (ts : List Token) :
    (e.within ts true).turn = some (.next { e.within ts true with str := (skipSpaces e.str).drop 2, isTemplate := true }) := by
  obtain ⟨hmode, x, hx⟩ := h
  have hlook : looksLike (skipSpaces e.str) 0 [37, 62] = some true := by
    rw [looksLike_start _ _ (by decide), ← hx]
    rfl
  unfold Scanner.turn
  rw [show (e.within ts true).mode = .code from hmode]
  dsimp only
  rw [if_neg (show ¬ (e.within ts true).between = true by exact Bool.false_ne_true)]
  unfold codeTurn tokenTurn
  obtain ⟨u, hu⟩ : ∃ u : Scanner, u = { e.within ts true with str := skipSpaces (e.within ts true).str } := ⟨_, rfl⟩
  have hstr : u.str = skipSpaces e.str := by
    rw [hu]
    rfl
  have htag : (if u.templateEnabled && !u.isTemplate then looksLike (skipSpaces e.str) 0 [37, 62] else some false) =
      some true := by
    rw [hu]
    exact hlook
  rw [← hu, hstr, if_neg (show ¬ head (skipSpaces e.str) = 0 by rw [← hx]; exact (by decide : ¬ (37 : Nat) = 0)), htag]
  dsimp only
  rw [advance_some (by rw [← hx]; simp), hu]
  rfl

def ComesTo (r : Scanner) (last : List Nat) (ps : List Piece) : Ending → Prop
  | .inText => ∃ n t, run n r = some (.done t) ∧
      pieces t.tokens = pieces r.tokens ++ ps ++ if last = [] then [.char 10] else []
  | .inCode => ∃ n t, run n r = some (.done t) ∧ pieces t.tokens = pieces r.tokens ++ ps
  | .fail error pos => ∃ n, run n r = some (.fail error pos)
  | .outside => ∃ n, run n r = none

theorem ComesTo.of_reached {r u : Scanner} {last : List Nat} {ps qs : List Piece} {o : Ending} (hreach : Reachable r u)
    (htokens : pieces u.tokens = pieces r.tokens ++ qs) (h : u.ComesTo last ps o) : r.ComesTo last (qs ++ ps) o := by
  cases o with
  | inText =>
    obtain ⟨n, t, hrun, ht⟩ := h
    obtain ⟨m, hm⟩ := hreach.run_end hrun
    exact ⟨m, t, hm, by rw [ht, htokens]; simp⟩
  | inCode =>
    obtain ⟨n, t, hrun, ht⟩ := h
    obtain ⟨m, hm⟩ := hreach.run_end hrun
    exact ⟨m, t, hm, by rw [ht, htokens]; simp⟩
  | fail error pos =>
    obtain ⟨n, hrun⟩ := h
    exact hreach.run_end hrun
  | outside =>
    obtain ⟨n, hrun⟩ := h
    exact hreach.run_end hrun

/-- There is no zero byte in the text outside of the sections. -/
def NoZero (ps : List Piece) : Prop := .char 0 ∉ ps

/-- The text in front of a section goes to the tokens, and the section is a text of its own. -/
theorem section_opened {last : List Nat} (hlast : last = [] ∨ last = [10]) {r c : Scanner} {before : List Nat}
    {value qs : List Piece} (hr : r.AtText []) (hopens : r.alone.Opens last before c value)
    (hzero : NoZero (before.map .char ++ value ++ qs)) :
    ∃ ts, Reachable r (c.within ts true) ∧ c.Plain ∧ pieces ts = pieces r.tokens ++ (before.map .char ++ value) := by
  have hbefore : 0 ∉ before := fun h0 => hzero (by simp [h0])
  obtain ⟨ts, hreach, hts⟩ := text_opens hlast hr hbefore hopens
  refine ⟨ts, hreach, ?_, by rw [hts]; simp⟩
  have hplain := behindOpen_plain (forward_plain (before.length + 2) (s := r.alone) ⟨rfl, rfl⟩)
  rw [hopens.2] at hplain
  exact hplain

theorem section_ends {r c e : Scanner} {ts : List Token} (hreach : Reachable r (c.within ts true)) (hplain : c.Plain)
    (hcode : c.CodeTo e) (hclose : ¬ e.AtClose) (hstop : ∀ t, e.turn ≠ some (.next t)) :
    ∃ m, run m r = e.turn.map (Outcome.within ts true) := by
  obtain ⟨hend, hplain', -⟩ := hcode.reached hplain ts
  have hturn := turn_within ts true e hplain' fun _ => hclose
  refine (hreach.trans hend).run_end (n := 1) ((run_stop 0 ?_).trans hturn)
  intro t ht
  rw [hturn] at ht
  obtain ⟨o, ho, hnext⟩ := Option.map_eq_some_iff.1 ht
  cases o with
  | next u => exact hstop u ho
  | done u => cases hnext
  | fail error pos => cases hnext

/-- **The tokenizer reads a template as it is to be read**, but for a line end behind the last text. -/
theorem template_comes {last : List Nat} (hlast : last = [] ∨ last = [10]) {s : Scanner} {ps : List Piece} {o : Ending}
    (h : Template last s ps o) (hzero : NoZero ps) : ∀ {r : Scanner}, r.AtText [] → r.alone = s → r.ComesTo last ps o := by
  induction h with
  | text htag =>
    rintro r hr rfl
    have hahead : r.alone.ahead last = r.ahead [] ++ last := by
      unfold ahead
      simp [alone]
    rw [hahead] at htag hzero ⊢
    obtain ⟨n, t, hrun, ht⟩ := text_done hr (fun h => htag (h.trans (List.prefix_append _ _).isInfix))
      (fun h0 => hzero (by simp [h0]))
    refine ⟨n, t, hrun, ?_⟩
    rw [ht]
    rcases hlast with rfl | rfl
    · simp
    · simp
  | closed hopens hcode hclose _ ih =>
    rintro r hr rfl
    rw [List.append_assoc] at hzero
    obtain ⟨ts, hreach, hplain, hts⟩ := section_opened hlast hr hopens hzero
    have hbehind := (hreach.trans (hcode.reached hplain ts).1).turn (close_turn hclose ts)
    refine ComesTo.of_reached hbehind ?_ (ih (fun h0 => hzero (by simp [h0])) ⟨rfl, rfl, .inl ⟨hclose.1, rfl⟩⟩ rfl)
    show pieces (ts ++ _) = _
    rw [pieces_append, hts, List.append_assoc]
  | code hopens hcode hclose hturn =>
    rintro r hr rfl
    obtain ⟨ts, hreach, hplain, hts⟩ := section_opened hlast hr hopens hzero
    obtain ⟨m, hm⟩ := section_ends hreach hplain hcode hclose (by rw [hturn]; rintro _ ⟨⟩)
    rw [hturn] at hm
    refine ⟨m, _, hm, ?_⟩
    show pieces (ts ++ _) = _
    rw [pieces_append, hts, List.append_assoc]
  | fail hopens hcode hclose hturn =>
    rintro r hr rfl
    obtain ⟨ts, hreach, hplain, -⟩ := section_opened hlast hr hopens hzero
    obtain ⟨m, hm⟩ := section_ends hreach hplain hcode hclose (by rw [hturn]; rintro _ ⟨⟩)
    rw [hturn] at hm
    exact ⟨m, hm⟩
  | outside hopens hcode hclose hturn =>
    rintro r hr rfl
    obtain ⟨ts, hreach, hplain, -⟩ := section_opened hlast hr hopens hzero
    obtain ⟨m, hm⟩ := section_ends hreach hplain hcode hclose (by rw [hturn]; rintro _ ⟨⟩)
    rw [hturn] at hm
    exact ⟨m, hm⟩

/-! ## Each template is read -/

theorem exists_firstTag : ∀ {text : List Nat}, ¬ NoTag text → ∃ before, FirstTag text before
  | [], h => absurd (fun hin => absurd hin.length_le (by decide)) h
  | c :: text, h => by
    by_cases hpre : [60, 37] <+: c :: text
    · obtain ⟨rest, hrest⟩ := hpre
      refine ⟨[], fun hin => absurd hin.length_le (by decide), rest, ?_⟩
      exact hrest.symm
    · have htail : ¬ NoTag text := fun hno => h fun hin => (List.infix_cons_iff.1 hin).elim hpre hno
      obtain ⟨before, hbefore, rest, rfl⟩ := exists_firstTag htail
      refine ⟨c :: before, fun hin => ?_, rest, rfl⟩
      rcases List.infix_cons_iff.1 hin with hin | hin
      · refine hpre (hin.trans ⟨37 :: rest, ?_⟩)
        simp
      · exact hbefore hin

theorem CodeTo.trans {a b c : Scanner} (h : a.CodeTo b) (h' : b.CodeTo c) : a.CodeTo c := by
  induction h' with
  | start => exact h
  | turn _ hclose hturn ih => exact ih.turn hclose hturn

theorem CodeTo.sound {s e : Scanner} (h : s.CodeTo e) (hs : s.Sound) : e.Sound ∧ e.left ≤ s.left := by
  induction h with
  | start => exact ⟨hs, Nat.le_refl _⟩
  | turn _ _ hturn ih =>
    obtain ⟨hlt, ht⟩ := turn_takes ih.1 hturn
    exact ⟨ht, Nat.le_trans (Nat.le_of_lt hlt) ih.2⟩

/-- **A section comes to its end.**  By induction on what is left of the text. -/
theorem section_end : ∀ (m : Nat) {s : Scanner}, s.left < m → s.Sound →
    ∃ e, s.CodeTo e ∧ (e.AtClose ∨ ¬ e.AtClose ∧ ∀ t, e.turn ≠ some (.next t))
  | 0, _, hm, _ => absurd hm (Nat.not_lt_zero _)
  | m + 1, s, hm, hs => by
    by_cases hclose : s.AtClose
    · exact ⟨s, .start, .inl hclose⟩
    by_cases hnext : ∃ t, s.turn = some (.next t)
    · obtain ⟨t, hturn⟩ := hnext
      obtain ⟨hlt, ht⟩ := turn_takes hs hturn
      obtain ⟨e, hcode, hend⟩ := section_end m (by omega) ht
      exact ⟨e, (CodeTo.start.turn hclose hturn).trans hcode, hend⟩
    · exact ⟨s, .start, .inr ⟨hclose, fun t ht => hnext ⟨t, ht⟩⟩⟩

theorem forward_sound : ∀ (n : Nat) {s : Scanner}, s.Sound → (forward n s).Sound ∧ (forward n s).left ≤ s.left
  | 0, _, hs => ⟨hs, Nat.le_refl _⟩
  | n + 1, s, hs => by
    rw [forward]
    split
    · rename_i str hstr
      obtain ⟨hsound, hle⟩ := forward_sound n (s := { s with str := str })
        ⟨hs.count_eq, hs.stack, hs.nonzero, hs.marked, hs.multi, hs.string⟩
      have hlt : ({ s with str := str } : Scanner).left < s.left := by
        refine left_lt rfl ?_
        rw [hstr]
        exact Nat.lt_succ_self _
      exact ⟨hsound, Nat.le_trans hle (Nat.le_of_lt hlt)⟩
    · rename_i l ls hstr hbelow
      have hcount : s.curLine + 1 + ls.length + 1 = s.count := by
        have hcount := hs.count_eq
        rw [hbelow, List.length_cons] at hcount
        omega
      obtain ⟨hsound, hle⟩ := forward_sound n (s := { s with curLine := s.curLine + 1, lineStart := l, str := l, below := ls })
        ⟨hcount, hs.stack, hs.nonzero, hs.marked, hs.multi, hs.string⟩
      refine ⟨hsound, Nat.le_trans hle ?_⟩
      show l.length + (ls.map fun l => l.length + 1).sum ≤ s.str.length + (s.below.map fun l => l.length + 1).sum
      rw [hbelow, List.map_cons, List.sum_cons]
      omega
    · exact ⟨hs, Nat.le_refl _⟩

theorem Opens.sound {last before : List Nat} {s c : Scanner} {value : List Piece} (h : s.Opens last before c value)
    (hs : s.Sound) : c.Sound ∧ c.left ≤ s.left := by
  obtain ⟨-, hopen⟩ := h
  obtain ⟨u, hu⟩ : ∃ u, u = s.forward (before.length + 2) := ⟨_, rfl⟩
  obtain ⟨hsound, hle⟩ := forward_sound (before.length + 2) hs
  rw [← hu] at hopen hsound hle
  unfold behindOpen at hopen
  split at hopen
  · cases hopen
    refine ⟨⟨hsound.count_eq, hsound.stack, hsound.nonzero, hsound.marked, hsound.multi, hsound.string⟩, ?_⟩
    refine Nat.le_trans (Nat.add_le_add_right ?_ _) hle
    exact tail_length_le u.str
  · cases hopen
    exact ⟨hsound, hle⟩

theorem alone_sound {s : Scanner} (hs : s.Sound) : s.alone.Sound :=
  ⟨hs.count_eq, hs.stack, hs.nonzero, hs.marked, (by rintro _ _ ⟨⟩), by rintro _ _ ⟨⟩⟩

theorem behindClose_sound {e : Scanner} (he : e.Sound) (hclose : e.AtClose) :
    e.behindClose.Sound ∧ e.behindClose.left < e.left := by
  have halone := alone_sound he
  refine ⟨⟨halone.count_eq, halone.stack, halone.nonzero, halone.marked, halone.multi, halone.string⟩, left_lt rfl ?_⟩
  have hlen : 2 ≤ (skipSpaces e.str).length := hclose.2.length_le
  have hle := skipSpaces_length_le e.str
  show ((skipSpaces e.str).drop 2).length < e.str.length
  rw [List.length_drop]
  omega

/-- **Each template is read**: its sections follow one another to its end. -/
theorem exists_template (last : List Nat) : ∀ (m : Nat) {s : Scanner}, s.left < m → s.Sound → ∃ ps o, Template last s ps o
  | 0, _, hm, _ => absurd hm (Nat.not_lt_zero _)
  | m + 1, s, hm, hs => by
    by_cases htag : NoTag (s.ahead last)
    · exact ⟨_, _, .text htag⟩
    obtain ⟨before, hfirst⟩ := exists_firstTag htag
    obtain ⟨c, value, hopens⟩ : ∃ c value, s.Opens last before c value := ⟨_, _, hfirst, rfl⟩
    obtain ⟨hc, hcleft⟩ := hopens.sound hs
    obtain ⟨e, hcode, hend⟩ := section_end _ (Nat.lt_succ_self _) hc
    obtain ⟨he, heleft⟩ := hcode.sound hc
    rcases hend with hclose | ⟨hclose, hstop⟩
    · obtain ⟨hbehind, hlt⟩ := behindClose_sound he hclose
      obtain ⟨ps, o, hread⟩ := exists_template last m (s := e.behindClose) (by omega) hbehind
      exact ⟨_, _, .closed hopens hcode hclose hread⟩
    · cases hturn : e.turn with
      | none => exact ⟨_, _, .outside hopens hcode hclose hturn⟩
      | some o =>
        cases o with
        | next t => exact absurd hturn (hstop t)
        | done t => exact ⟨_, _, .code hopens hcode hclose hturn⟩
        | fail error pos => exact ⟨_, _, .fail hopens hcode hclose hturn⟩

end Scanner

/-! ## A template text -/

def joinLines : List (List Nat) → List Nat
  | [] => []
  | l :: ls => l ++ ls.flatMap fun l => 10 :: l

theorem splitLines_nil {text : List Nat} (h : splitLines text = []) : text = [] := by
  unfold splitLines at h
  split at h
  · rfl
  · cases h
  · split at h <;> cases h

/-- The lines of a text and the line end behind the last one are the text. -/
theorem splitLines_join : ∀ text : List Nat, joinLines (splitLines text) ++ lastBreak text = text
  | [] => rfl
  | c :: text => by
    have ih := splitLines_join text
    have hlast : text ≠ [] → lastBreak (c :: text) = lastBreak text := fun hne => by
      unfold lastBreak
      rw [List.getLast?_cons_of_ne_nil hne]
    by_cases hempty : text = []
    · subst hempty
      by_cases hc : c = 10
      · subst hc
        rfl
      · rw [splitLines_line (List.cons_ne_nil _ _) (by simp [Ne.symm hc])]
        simp [joinLines, lastBreak, hc]
    · rw [hlast hempty]
      cases hlines : splitLines text with
      | nil => exact absurd (splitLines_nil hlines) hempty
      | cons l ls =>
        rw [hlines] at ih
        by_cases hc : c = 10
        · subst hc
          rw [splitLines, hlines]
          exact congrArg (10 :: ·) ih
        · have hsplit : splitLines (c :: text) = (c :: l) :: ls := by
            rw [splitLines, hlines]
            exact fun h => hc h
          rw [hsplit]
          exact congrArg (c :: ·) ih

variable (saveComments checkUtf8Bom : Bool) (text : List Nat)

/-- The tokenizer is put in front of the text, behind a byte order mark that is looked for. -/
theorem begin_template {start : Scanner}
    (h : begin saveComments .template checkUtf8Bom (splitLines text) = some (some start)) :
    start.AtText [] ∧ start.tokens = [] ∧ ∃ mark, text = mark ++ start.ahead (lastBreak text) ∧
      (mark = [] ∨ checkUtf8Bom = true ∧ mark = [239, 187, 191]) := by
  have hjoin := splitLines_join text
  cases hlines : splitLines text with
  | nil =>
    rw [hlines] at h
    cases h
  | cons line below =>
    rw [hlines] at h hjoin
    unfold begin at h
    dsimp only at h
    rw [looksLike_if _ _ _ (by decide)] at h
    dsimp only at h
    by_cases hmark : (decide (checkUtf8Bom = true) && [239, 187, 191].isPrefixOf line) = true
    · obtain ⟨hbom, hprefix⟩ := Bool.and_eq_true_iff.1 hmark
      obtain ⟨r, hr⟩ := List.isPrefixOf_iff_prefix.1 hprefix
      rw [if_pos hmark, advance_some (by rw [← hr]; simp)] at h
      dsimp only at h
      rw [if_neg (by decide)] at h
      dsimp only at h
      rw [if_neg Bool.false_ne_true] at h
      cases h
      refine ⟨⟨rfl, rfl, .inl ⟨rfl, rfl⟩⟩, rfl, [239, 187, 191], ?_, .inr ⟨of_decide_eq_true hbom, rfl⟩⟩
      refine hjoin.symm.trans ?_
      rw [← hr]
      simp [joinLines, Scanner.ahead]
    · rw [if_neg hmark] at h
      dsimp only at h
      rw [if_neg (by decide)] at h
      dsimp only at h
      rw [if_neg Bool.false_ne_true] at h
      cases h
      exact ⟨⟨rfl, rfl, .inl ⟨rfl, rfl⟩⟩, rfl, [], hjoin.symm, .inl rfl⟩

/-- The tokens of a template whose sections are in order say what is to be read. -/
def TemplateTokens : Prop :=
  ∀ start, begin saveComments .template checkUtf8Bom (splitLines text) = some (some start) →
    ∀ ps o, Template (lastBreak text) start.alone ps o → o = .inText ∨ o = .inCode →
      ∃ tokens, ParseLines saveComments .template checkUtf8Bom (splitLines text) tokens ∧ pieces tokens = ps

/-- Where a section is not in order, its error is that of the template. -/
def TemplateErrors : Prop :=
  ∀ start, begin saveComments .template checkUtf8Bom (splitLines text) = some (some start) →
    ∀ ps error pos, Template (lastBreak text) start.alone ps (.fail error pos) → Scanner.NoZero ps →
      ∃ n, Scanner.run n start = some (.fail error pos)

/-- No zero byte is outside of the sections, and text at the end of the template ends with a line end. -/
def KeptText : Prop :=
  ∀ start, begin saveComments .template checkUtf8Bom (splitLines text) = some (some start) →
    ∀ ps o, Template (lastBreak text) start.alone ps o → o = .inText ∨ o = .inCode →
      Scanner.NoZero ps ∧ (o = .inText → text.getLast? = some 10)

def TemplateReads : Prop :=
  ∀ start, begin saveComments .template checkUtf8Bom (splitLines text) = some (some start) →
    ∃ ps o, Template (lastBreak text) start.alone ps o

theorem lastBreak_cases : lastBreak text = [] ∨ lastBreak text = [10] := by
  unfold lastBreak
  split
  · exact .inr rfl
  · exact .inl rfl

theorem pieces_noZero {ts : List Token} (h : ∀ t ∈ ts, t.Clean) : Scanner.NoZero (pieces ts) := by
  intro hmem
  obtain ⟨t, ht, hpiece⟩ := List.mem_flatMap.1 hmem
  unfold Token.pieces at hpiece
  split at hpiece
  · rename_i htype
    obtain ⟨c, hc, hc0⟩ := List.mem_map.1 hpiece
    cases hc0
    exact h t ht htype hc
  · simp at hpiece
  · simp at hpiece

theorem keptText_of_tokens (h : TemplateTokens saveComments checkUtf8Bom text) : KeptText saveComments checkUtf8Bom text := by
  intro start hstart ps o hread hend
  obtain ⟨hat, htokens, -⟩ := begin_template saveComments checkUtf8Bom text hstart
  obtain ⟨tokens, hparse, rfl⟩ := h start hstart ps o hread hend
  unfold ParseLines at hparse
  rw [hstart] at hparse
  rcases hparse with ⟨hnone, -⟩ | ⟨start', n, t, hsome, hrun, rfl⟩
  · cases hnone
  cases hsome
  have hzero : Scanner.NoZero (pieces t.tokens) := by
    have hbuffer : start.BufferClean := by
      intro buf hbuf
      rcases hat.mode with ⟨hmode, -⟩ | hmode
      · rw [hmode] at hbuf
        cases hbuf
      · rw [hmode] at hbuf
        cases hbuf
        exact List.not_mem_nil
    obtain ⟨new, hnew, hclean⟩ := Scanner.run_adds hbuffer hrun
    rw [hnew, htokens]
    exact pieces_noZero hclean
  refine ⟨hzero, ?_⟩
  rintro rfl
  refine Classical.byContradiction fun hbreak => ?_
  have hlast : lastBreak text = [] := if_neg hbreak
  obtain ⟨m, u, hm, hu⟩ := Scanner.template_comes (lastBreak_cases text) hread hzero hat rfl
  have heq := Scanner.run_unique (n := n) (m := m) (by rw [hrun]; rintro _ ⟨⟩) (by rw [hm]; rintro _ ⟨⟩)
  rw [hrun, hm] at heq
  cases heq
  rw [if_pos hlast, htokens] at hu
  have hlen := congrArg List.length hu
  simp [pieces] at hlen

theorem tokens_of_keptText (h : KeptText saveComments checkUtf8Bom text) : TemplateTokens saveComments checkUtf8Bom text := by
  intro start hstart ps o hread hend
  obtain ⟨hat, htokens, -⟩ := begin_template saveComments checkUtf8Bom text hstart
  obtain ⟨hzero, hbreak⟩ := h start hstart ps o hread hend
  have hcomes := Scanner.template_comes (lastBreak_cases text) hread hzero hat rfl
  rcases hend with rfl | rfl
  · obtain ⟨n, t, hrun, ht⟩ := hcomes
    have hlast : lastBreak text = [10] := if_pos (hbreak rfl)
    refine ⟨t.tokens, .inr ⟨start, n, t, hstart, hrun, rfl⟩, ?_⟩
    rw [ht, htokens, hlast]
    simp [pieces]
  · obtain ⟨n, t, hrun, ht⟩ := hcomes
    refine ⟨t.tokens, .inr ⟨start, n, t, hstart, hrun, rfl⟩, ?_⟩
    rw [ht, htokens]
    rfl

/-- **A template is tokenized as it is to be read** exactly when no zero byte is outside of its sections and text at its end
ends with a line end; the errors of its sections are those of texts of their own.  Each template is one that can be read. -/
theorem templateTokens_iff : (TemplateTokens saveComments checkUtf8Bom text ↔ KeptText saveComments checkUtf8Bom text) ∧
    TemplateErrors saveComments checkUtf8Bom text ∧ TemplateReads saveComments checkUtf8Bom text := by
  refine ⟨⟨keptText_of_tokens saveComments checkUtf8Bom text, tokens_of_keptText saveComments checkUtf8Bom text⟩, ?_, ?_⟩
  · intro start hstart ps error pos hread hzero
    obtain ⟨hat, -, -⟩ := begin_template saveComments checkUtf8Bom text hstart
    exact Scanner.template_comes (lastBreak_cases text) hread hzero hat rfl
  · intro start hstart
    obtain ⟨o, ho, hsound⟩ := begin_sound saveComments .template checkUtf8Bom (splitLines text)
    have hstart := hsound start (Option.some.inj (ho.symm.trans hstart))
    exact Scanner.exists_template _ _ (Nat.lt_succ_self _) (Scanner.alone_sound hstart)

/-- Behind a letter a line end is written that the template does not have. -/
theorem letter_not_templateTokens : ¬ TemplateTokens false false [97] := fun h => by
  have htag : NoTag [97] := fun hin => absurd hin.length_le (by decide)
  have hbreak := (keptText_of_tokens false false [97] h _ rfl _ _ (.text htag) (.inl rfl)).2 rfl
  cases hbreak

end Tokenizer
end Compiler
end ObjectScript
