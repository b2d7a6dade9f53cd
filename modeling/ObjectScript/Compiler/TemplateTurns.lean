import ObjectScript.Compiler.TokenizerFrames
/-!
# The turns of a section

In a section of a template a turn is that of a text of its own, up to the mark that closes the section: neither the tokens that
there are nor the marks of the template are looked at.

`turn_within` compares the turns for every mode of the tokenizer and whatever is in front of the cursor; with it, what
is known of runs over texts of their own is carried over to sections.
-/
namespace ObjectScript
namespace Compiler
namespace Tokenizer

/-- The scanner behind tokens `ts`, in a section of a template or in a text of its own. -/
def Scanner.within (ts : List Token) (e : Bool) (s : Scanner) : Scanner :=
  { s with tokens := ts ++ s.tokens, templateEnabled := e, isTemplate := false }

def Outcome.within (ts : List Token) (e : Bool) : Outcome → Outcome
  | .next s => .next (s.within ts e)
  | .done s => .done (s.within ts e)
  | .fail error pos => .fail error pos

namespace Scanner

variable (ts : List Token) (e : Bool) (s : Scanner)

theorem map_ite (c : Prop) [Decidable c] (o o' : Option Outcome) :
    (if c then o else o').map (Outcome.within ts e) =
      if c then o.map (Outcome.within ts e) else o'.map (Outcome.within ts e) :=
  apply_ite _ c o o'

theorem addToken_within (text : List Nat) (type : TokenType) (pos : Nat) :
    (s.within ts e).addToken text type pos = (s.addToken text type pos).within ts e := by
  simp only [addToken, within, List.append_assoc]

theorem nextLine_within : (s.within ts e).nextLine = s.nextLine.map (within ts e) := by
  unfold nextLine
  cases hbelow : s.below with
  | nil => simp only [within, hbelow, Option.map_none]
  | cons l ls => simp only [within, hbelow, Option.map_some]

theorem endLine_within : (s.within ts e).endLine = s.endLine.within ts e := by
  unfold endLine
  cases hbelow : s.below with
  | nil => simp only [within, hbelow, Outcome.within]
  | cons l ls => simp only [within, hbelow, Outcome.within]

theorem inject_within (buf start str : List Nat) :
    (s.within ts e).inject buf start str = (s.inject buf start str).within ts e := by
  simp only [inject, addToken, within, pos, List.append_assoc]

theorem stringTurn_within (buf start : List Nat) :
    (s.within ts e).stringTurn buf start = (s.stringTurn buf start).map (Outcome.within ts e) := by
  unfold stringTurn
  simp only [inject_within]
  cases hescape : escape s.str.tail with
  | none =>
    simp only [map_ite, Option.map_some, Outcome.within, within, addToken, pos, List.append_assoc, hescape]
    rfl
  | some r =>
    simp only [map_ite, Option.map_some, Outcome.within, within, addToken, pos, List.append_assoc, hescape]
    rfl

theorem closeMulti_within (r start : List Nat) (trimmed : Option (List Nat)) :
    (match trimmed with
      | none => none
      | some buf => some (Outcome.next (({ s.within ts e with
          stringType := .notString, str := r, mode := .code } : Scanner).addToken buf .string (s.pos start)))) =
    (match trimmed with
      | none => none
      | some buf => some (Outcome.next (({ s with
          stringType := .notString, str := r, mode := .code } : Scanner).addToken buf .string (s.pos start)))).map
      (Outcome.within ts e) := by
  cases trimmed with
  | none => rfl
  | some buf => simp only [Option.map_some, Outcome.within, within, addToken, List.append_assoc]

theorem multiTurn_within (buf start : List Nat) :
    (s.within ts e).multiTurn buf start = (s.multiTurn buf start).map (Outcome.within ts e) := by
  unfold multiTurn
  by_cases hhead : head s.str = 0
  · rw [if_pos hhead, if_pos (show head (s.within ts e).str = 0 from hhead), nextLine_within]
    cases hnext : s.nextLine with
    | none => rfl
    | some t => rfl
  · rw [if_neg hhead, if_neg (show ¬ head (s.within ts e).str = 0 from hhead)]
    simp only [inject_within]
    cases hmark : memcmp s.str s.multiStringId with
    | none => simp only [Option.map_none, within, hmark]
    | some b =>
      cases b with
      | false =>
        simp only [map_ite, Option.map_some, Outcome.within, within, pos, hmark]
        rfl
      | true =>
        cases hadvance : advance s.str s.multiStringId.length with
        | none =>
          simp only [map_ite, Option.map_some, Option.map_none, Outcome.within, within, pos, hmark, hadvance]
        | some r =>
          simp only [within, hmark, hadvance]
          by_cases hvar : s.varInString ≠ 0
          · rw [if_pos hvar, if_pos hvar]
            rfl
          · rw [if_neg hvar, if_neg hvar]
            exact closeMulti_within ts e s r start _

theorem commentTurn_within (text : List Nat) (line p : Nat) :
    (s.within ts e).commentTurn text line p = (s.commentTurn text line p).map (Outcome.within ts e) := by
  unfold commentTurn
  simp only [nextLine_within]
  cases hmark : strstr [42, 47] s.str with
  | none =>
    cases hnext : s.nextLine with
    | none =>
      simp only [map_ite, Option.map_some, Option.map_none, Outcome.within, within, pos, hmark]
      rfl
    | some t =>
      simp only [map_ite, Option.map_some, Outcome.within, within, pos, hmark]
      rfl
  | some r =>
    obtain ⟨before, mark⟩ := r
    cases hadvance : advance mark 2 with
    | none => simp only [Option.map_none, within, hmark, hadvance]
    | some str =>
      simp only [map_ite, Option.map_some, Outcome.within, within, List.append_assoc, hmark, hadvance]

theorem operator_within (op : List Nat) :
    (s.within ts e).operator op = (s.operator op).map (Outcome.within ts e) := by
  unfold operator
  cases hadvance : advance s.str op.length with
  | none => simp only [Option.map_none, within, hadvance]
  | some str =>
    simp only [map_ite, Option.map_some, Outcome.within, within, addToken, pos, List.append_assoc, hadvance]

theorem plain_within : (s.within ts e).plain = s.plain.map (Outcome.within ts e) := by
  unfold plain
  rw [show (s.within ts e).str = s.str from rfl]
  cases hline : looksLike s.str 0 [47, 47] with
  | none => rfl
  | some line =>
    cases line with
    | true =>
      have hsaved : (s.within ts e).saveComments = s.saveComments := rfl
      dsimp only
      by_cases hsave : s.saveComments = true
      · rw [hsaved, if_pos hsave, if_pos hsave, addToken_within, endLine_within]
        rfl
      · rw [hsaved, if_neg hsave, if_neg hsave, endLine_within]
        rfl
    | false =>
      cases hcomment : looksLike s.str 0 [47, 42] with
      | none => rfl
      | some comment =>
        cases comment with
        | true =>
          cases hadvance : advance s.str 2 with
          | none => rfl
          | some str => rfl
        | false =>
          dsimp only
          by_cases hname : isNameStart (head s.str) = true
          · rw [if_pos hname, if_pos hname, addToken_within]
            rfl
          · rw [if_neg hname, if_neg hname]
            cases hoperator : operators.find? fun op => op.isPrefixOf s.str with
            | some op => exact operator_within ts e s op
            | none =>
              cases hnumber : parseNumber s.str with
              | none => rfl
              | some number =>
                cases number with
                | none => rfl
                | some str =>
                  dsimp only
                  rw [addToken_within]
                  rfl

theorem enter_within : (s.within ts e).enter = s.enter.map (Outcome.within ts e) := by
  unfold enter
  rw [plain_within]
  cases htype : s.stringType with
  | notString => simp only [show (s.within ts e).stringType = .notString from htype]
  | simple =>
    simp only [show (s.within ts e).stringType = .simple from htype]
    rw [show (s.within ts e).str = s.str from rfl]
    cases advance s.str 1 with
    | none => rfl
    | some str => simp only [Option.map_some, Outcome.within, within]
  | quote =>
    simp only [show (s.within ts e).stringType = .quote from htype]
    rw [show (s.within ts e).str = s.str from rfl]
    cases advance s.str 1 with
    | none => rfl
    | some str => simp only [Option.map_some, Outcome.within, within]
  | multiSimple => simp only [map_ite, Option.map_some, Outcome.within, within, pos, htype]
  | multiQuote => simp only [map_ite, Option.map_some, Outcome.within, within, pos, htype]

theorem closeInject_within : (s.within ts e).closeInject = s.closeInject.map (Outcome.within ts e) := by
  unfold closeInject
  rw [show (s.within ts e).stringTypeStack = s.stringTypeStack from rfl]
  cases hstack : s.stringTypeStack with
  | nil => rfl
  | cons top stack =>
    dsimp only
    have hinner : ∀ str : List Nat, ({ ((({ s.within ts e with varInString := 0 } : Scanner).addToken [41] .endBracketBlock
          (s.pos s.str)).addToken [125] .afterInjectVar (s.pos s.str)) with
        stringType := top, stringTypeStack := stack, str := str } : Scanner) =
        ({ ((({ s with varInString := 0 } : Scanner).addToken [41] .endBracketBlock
          (s.pos s.str)).addToken [125] .afterInjectVar (s.pos s.str)) with
        stringType := top, stringTypeStack := stack, str := str } : Scanner).within ts e := by
      intro str
      simp only [within, addToken, List.append_assoc]
    by_cases htop : top = .multiQuote
    · rw [if_pos htop, if_pos htop, show (s.within ts e).str = s.str from rfl]
      cases advance s.str 1 with
      | none => rfl
      | some str => exact (congrArg enter (hinner str)).trans (enter_within ts e _)
    · rw [if_neg htop, if_neg htop]
      exact (congrArg enter (hinner s.str)).trans (enter_within ts e _)

theorem rawString_within : (s.within ts e).rawString = s.rawString.map (Outcome.within ts e) := by
  unfold rawString
  cases hmark : strstr [96] s.str.tail with
  | none => simp only [Option.map_some, Outcome.within, within, hmark]
  | some r =>
    obtain ⟨text, mark⟩ := r
    cases hadvance : advance mark 1 with
    | none => simp only [Option.map_none, within, hmark, hadvance]
    | some str => simp only [Option.map_some, Outcome.within, within, addToken, pos, List.append_assoc, hmark, hadvance]

theorem enterBelow_within (error : ErrorType) (p : Nat) :
    (match (s.within ts e).nextLine with
      | none => some (Outcome.fail error p)
      | some t => t.enter) =
    (match s.nextLine with
      | none => some (Outcome.fail error p)
      | some t => t.enter).map (Outcome.within ts e) := by
  rw [nextLine_within]
  cases s.nextLine with
  | none => rfl
  | some t => exact enter_within ts e t

theorem beginMulti_within : (s.within ts e).beginMulti = s.beginMulti.map (Outcome.within ts e) := by
  unfold beginMulti
  rw [show (s.within ts e).varInString = s.varInString from rfl, show (s.within ts e).str = s.str from rfl]
  by_cases hvar : s.varInString ≠ 0
  · rw [if_pos hvar, if_pos hvar]
    rfl
  · rw [if_neg hvar, if_neg hvar]
    cases advance s.str 3 with
    | none => rfl
    | some start =>
      obtain ⟨type, htype⟩ : ∃ type : StringType,
          type = if head (start.drop (markId start).length) = 39 then .multiSimple else .multiQuote := ⟨_, rfl⟩
      dsimp only
      rw [← htype, map_ite, map_ite]
      by_cases hmark : head (start.drop (markId start).length) = 0 ∨ (markId start).length < 2
      · rw [if_pos hmark, if_pos hmark]
        rfl
      · rw [if_neg hmark, if_neg hmark]
        by_cases hbehind : head ((start.drop (markId start).length).tail.dropWhile isLow) ≠ 0
        · rw [if_pos hbehind, if_pos hbehind]
          exact enter_within ts e { s with
            multiStringId := markId start, stringType := type, str := (start.drop (markId start).length).tail }
        · rw [if_neg hbehind, if_neg hbehind]
          exact enterBelow_within ts e { s with
            multiStringId := markId start, stringType := type, str := (start.drop (markId start).length).tail } _ _

theorem tokenTurn_within (hplain : s.templateEnabled = false) (hclose : e = true → ¬ [37, 62] <+: s.str) :
    (s.within ts e).tokenTurn = s.tokenTurn.map (Outcome.within ts e) := by
  have htag : (if (s.within ts e).templateEnabled && !(s.within ts e).isTemplate then looksLike s.str 0 [37, 62]
      else some false) = some false := by
    show (if e && true then looksLike s.str 0 [37, 62] else some false) = some false
    cases e with
    | false => rfl
    | true =>
      rw [looksLike_start _ _ (by decide)]
      simpa [← List.isPrefixOf_iff_prefix] using hclose rfl
  have hnotag : (if s.templateEnabled && !s.isTemplate then looksLike s.str 0 [37, 62] else some false) = some false := by
    rw [hplain]
    rfl
  unfold tokenTurn
  rw [show (s.within ts e).str = s.str from rfl, htag, hnotag, show (s.within ts e).varInString = s.varInString from rfl]
  dsimp only
  have henter : ∀ type : StringType, ({ s.within ts e with stringType := type } : Scanner).enter =
      ({ s with stringType := type } : Scanner).enter.map (Outcome.within ts e) := fun type =>
    enter_within ts e { s with stringType := type }
  rw [map_ite, map_ite, map_ite, map_ite, map_ite]
  by_cases hend : head s.str = 0
  · rw [if_pos hend, if_pos hend, endLine_within]
    rfl
  rw [if_neg hend, if_neg hend]
  by_cases hinject : s.varInString = 1 ∧ head s.str = 125
  · rw [if_pos hinject, if_pos hinject, closeInject_within]
  rw [if_neg hinject, if_neg hinject]
  by_cases hraw : head s.str = 96
  · rw [if_pos hraw, if_pos hraw, rawString_within]
  rw [if_neg hraw, if_neg hraw]
  by_cases hquote : head s.str = 34
  · rw [if_pos hquote, if_pos hquote]
    exact henter .quote
  rw [if_neg hquote, if_neg hquote]
  by_cases hsimple : head s.str = 39
  · rw [if_pos hsimple, if_pos hsimple]
    exact henter .simple
  rw [if_neg hsimple, if_neg hsimple]
  cases looksLike s.str 0 [60, 60, 60] with
  | none => rfl
  | some b =>
    cases b with
    | false => exact henter .notString
    | true => exact beginMulti_within ts e s

theorem openSection_within (tag : List Nat) (n : Nat) :
    (match advance tag 2 with
      | none => none
      | some str =>
        let t := { s.within ts e with str := str, isTemplate := false, mode := .code }
        if head str = 61 then
          some (Outcome.next { t.addToken [61] .outputNextValue (n - str.length) with str := str.tail })
        else some (Outcome.next t)) =
    (match advance tag 2 with
      | none => none
      | some str =>
        let t := { s with str := str, isTemplate := false, mode := .code }
        if head str = 61 then
          some (Outcome.next { t.addToken [61] .outputNextValue (n - str.length) with str := str.tail })
        else some (Outcome.next t)).map (Outcome.within ts e) := by
  cases advance tag 2 with
  | none => rfl
  | some str =>
    dsimp only
    rw [map_ite]
    simp only [Option.map_some, Outcome.within, within, addToken, List.append_assoc]

theorem templateTurn_within (buf : List Nat) :
    (s.within ts e).templateTurn buf = (s.templateTurn buf).map (Outcome.within ts e) := by
  unfold templateTurn
  rw [show (s.within ts e).str = s.str from rfl]
  cases strstr [60, 37] s.str with
  | none =>
    dsimp only
    rw [nextLine_within]
    cases s.nextLine with
    | none => simp only [Option.map_none, Option.map_some, Outcome.within, addToken_within]
    | some t => rfl
  | some r =>
    obtain ⟨before, tag⟩ := r
    dsimp only
    by_cases hne : buf ++ before ≠ []
    · rw [if_pos hne, if_pos hne, addToken_within]
      exact openSection_within ts e _ tag s.str.length
    · rw [if_neg hne, if_neg hne]
      exact openSection_within ts e s tag s.str.length

/-- `%>` is in front. -/
def AtClose : Prop := s.mode = .code ∧ [37, 62] <+: skipSpaces s.str

/-- **A turn in a section of a template** is a turn over a text of its own, but where the section is closed. -/
theorem turn_within (hplain : s.templateEnabled = false) (hclose : e = true → ¬ s.AtClose) :
    (s.within ts e).turn = s.turn.map (Outcome.within ts e) := by
  unfold turn
  rw [show (s.within ts e).mode = s.mode from rfl]
  cases hm : s.mode with
  | code =>
    have hbetween : (s.within ts e).between = false := by
      unfold between within
      exact Bool.and_false _
    have hplainBetween : s.between = false := by
      unfold between
      rw [hplain]
      rfl
    dsimp only
    rw [hbetween, hplainBetween, if_neg Bool.false_ne_true, if_neg Bool.false_ne_true]
    exact tokenTurn_within ts e { s with str := skipSpaces s.str } hplain fun he hprefix => hclose he ⟨hm, hprefix⟩
  | multi buf start => exact multiTurn_within ts e s buf start
  | string buf start => exact stringTurn_within ts e s buf start
  | comment text line p => exact commentTurn_within ts e s text line p
  | template buf => exact templateTurn_within ts e s buf

def Plain : Prop := s.templateEnabled = false ∧ s.isTemplate = false

/-- A turn over a text of its own leaves it one. -/
theorem turn_plain {s t : Scanner} (hs : s.Plain) (h : s.turn = some (.next t)) : t.Plain := by
  have hself : s.within [] false = s := by
    obtain ⟨henabled, htemplate⟩ := hs
    cases s
    simp only at henabled htemplate
    subst henabled htemplate
    rfl
  have hturn := turn_within [] false s hs.1 (by rintro ⟨⟩)
  rw [hself, h] at hturn
  have ht := Outcome.next.inj (Option.some.inj hturn)
  rw [ht]
  exact ⟨rfl, rfl⟩

end Scanner
end Tokenizer
end Compiler
end ObjectScript
