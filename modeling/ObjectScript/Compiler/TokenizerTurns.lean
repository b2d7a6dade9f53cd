import ObjectScript.Compiler.TokenizerReading
/-!
# Turns of the tokenizer

Each turn of `parseLines` takes something of the text.  It stays inside of its line, and goes on to another line only where
`Leaves` says so, as long as it does not stand where one of the slips of the source is (`Meets`).

There is one lemma for each kind of turn, by the mode of the tokenizer and what is in front of the cursor: text of a
template, a string, a string of several lines, a comment, and plain source with its names, operators and numbers.  Each
says that the turn is `Sound` again exactly where `Meets` holds.
-/
namespace ObjectScript
namespace Compiler
namespace Tokenizer
namespace Scanner

variable (s : Scanner)

def left : Nat := s.str.length + (s.below.map fun l => l.length + 1).sum

/-- **What holds before each turn.** -/
structure Sound : Prop where
  count_eq : s.curLine + s.below.length + 1 = s.count
  stack : s.varInString = 0 ∧ s.stringTypeStack = [] ∨
    s.varInString ≠ 0 ∧ (s.stringTypeStack = [.quote] ∨ s.stringTypeStack = [.multiQuote])
  nonzero : 0 ∉ s.multiStringId
  marked : .multiQuote ∈ s.stringTypeStack → s.multiStringId ≠ []
  multi : ∀ buf start, s.mode = .multi buf start → s.varInString = 0 ∧ s.multiStringId ≠ []
  string : ∀ buf start, s.mode = .string buf start → s.stringType = .simple ∨ s.stringType = .quote

/-- A comment, a string, a value in a string or a section of a template is open. -/
def Open : Prop :=
  (match s.mode with
    | .code | .template _ => False
    | _ => True) ∨ s.varInString ≠ 0 ∨ s.templateEnabled = true ∧ s.isTemplate = false

/-- What is behind the mark of a string of several lines, from the quote on. -/
def afterMark (str : List Nat) : List Nat := (str.drop 3).drop (markId (str.drop 3)).length

/-- A string of several lines that begins on the next line. -/
def BeginsBelow (str : List Nat) : Prop :=
  [60, 60, 60] <+: str ∧ s.varInString = 0 ∧ 2 ≤ (markId (str.drop 3)).length ∧ head (afterMark str) ≠ 0 ∧
    head ((afterMark str).tail.dropWhile isLow) = 0 ∧ s.below ≠ []

/-- **The turn leaves the line.** -/
def Leaves : Prop :=
  match s.mode with
  | .code =>
    if s.between then strstr [60, 37] s.str = none
    else head (skipSpaces s.str) = 0 ∨ [47, 47] <+: skipSpaces s.str ∨ s.BeginsBelow (skipSpaces s.str)
  | .template _ => strstr [60, 37] s.str = none
  | .comment _ _ _ => strstr [42, 47] s.str = none
  | .multi _ _ => head s.str = 0 ∧ s.below ≠ []
  | .string _ _ => False

/-- What there is of the line where it is left; a comment of one line goes with it. -/
def rest : List Nat :=
  match s.mode with
  | .code =>
    if s.between then s.str
    else
      let str := skipSpaces s.str
      if [47, 47].isPrefixOf str then []
      else if [60, 60, 60].isPrefixOf str then (afterMark str).tail.dropWhile isLow
      else str
  | _ => s.str

/-- **The state is none of those in which the source slips.** -/
structure Meets : Prop where
  /-- nothing is open where the last line is left -/
  closed : s.Leaves → s.below = [] → ¬ s.Open
  /-- the mark of a string of several lines is no longer than what is left of the line -/
  mark : ∀ buf start, s.mode = .multi buf start → head s.str ≠ 0 → s.multiStringId.length ≤ s.str.length + 1
  /-- the mark does not stand below a first line that is empty -/
  first : ∀ buf start, s.mode = .multi buf start → s.multiStringId <+: s.str → s.str.length = s.lineStart.length → buf ≠ [10]
  /-- behind `1.#` there is place for the names it is compared with -/
  number : s.mode = .code → s.between = false → ∀ r, skipSpaces s.str = 49 :: 46 :: 35 :: r → HasPlace specials (46 :: 35 :: r)
  /-- there is no zero byte in what is left of a line -/
  kept : s.Leaves → 0 ∉ s.rest

/-- What a turn comes to; `L` is where it may leave the line. -/
inductive Proceeds (L : Prop) : Option Outcome → Prop where
  | next {t : Scanner} : t.left < s.left → t.Sound → t.below = s.below ∨ L → Proceeds L (some (.next t))
  | done {t : Scanner} : (t.Open ↔ s.Open) → s.below = [] → L → Proceeds L (some (.done t))
  | fail (error : ErrorType) (pos : Nat) : Proceeds L (some (.fail error pos))

variable {s} {t : Scanner} {L : Prop} {o : Option Outcome}

theorem Proceeds.mono {L' : Prop} (h : s.Proceeds L o) (hL : L → L') : s.Proceeds L' o := by
  cases h with
  | next hlt ht hb => exact .next hlt ht (hb.imp_right hL)
  | done ho hb hl => exact .done ho hb (hL hl)
  | fail error pos => exact .fail error pos

theorem left_lt (hb : t.below = s.below) (hlt : t.str.length < s.str.length) : t.left < s.left := by
  unfold left
  rw [hb]
  omega

theorem Proceeds.skip (h : ({ s with str := skipSpaces s.str } : Scanner).Proceeds L o) : s.Proceeds L o := by
  have hle : ({ s with str := skipSpaces s.str } : Scanner).left ≤ s.left :=
    Nat.add_le_add_right (skipSpaces_length_le s.str) _
  cases h with
  | next hlt ht hb => exact .next (Nat.lt_of_lt_of_le hlt hle) ht hb
  | done ho hb hl => exact .done ho hb hl
  | fail error pos => exact .fail error pos

theorem Proceeds.of_same {s' : Scanner} (h : s'.Proceeds L o) (hleft : s'.left = s.left) (hb : s'.below = s.below)
    (hopen : s'.Open ↔ s.Open) : s.Proceeds L o := by
  cases h with
  | next hlt ht h => exact .next (hleft ▸ hlt) ht (hb ▸ h)
  | done ho h hl => exact .done (ho.trans hopen) (hb ▸ h) hl
  | fail error pos => exact .fail error pos

theorem nextLine_cases (s : Scanner) : s.nextLine = none ∧ s.below = [] ∨
    ∃ l ls, s.below = l :: ls ∧
      s.nextLine = some { s with curLine := s.curLine + 1, lineStart := l, str := l, below := ls } := by
  unfold nextLine
  cases hbelow : s.below with
  | nil => exact .inl ⟨rfl, rfl⟩
  | cons l ls => exact .inr ⟨l, ls, rfl, rfl⟩

theorem Sound.stack_nil (hs : s.Sound) (h : s.varInString = 0) : s.stringTypeStack = [] := by
  rcases hs.stack with h1 | h1
  · exact h1.2
  · exact absurd h h1.1

theorem Sound.code (hs : s.Sound) (h1 : t.count = s.count) (h2 : t.curLine = s.curLine) (h3 : t.below = s.below)
    (h4 : t.varInString = s.varInString) (h5 : t.stringTypeStack = s.stringTypeStack)
    (h6 : t.multiStringId = s.multiStringId) (h7 : t.mode = .code) (hlt : t.str.length < s.str.length) :
    s.Proceeds L (some (.next t)) := by
  refine .next (left_lt h3 hlt) ⟨?_, ?_, ?_, ?_, ?_, ?_⟩ (.inl h3)
  · rw [h1, h2, h3]
    exact hs.count_eq
  · rw [h4, h5]
    exact hs.stack
  · rw [h6]
    exact hs.nonzero
  · rw [h5, h6]
    exact hs.marked
  · rw [h7]
    rintro _ _ ⟨⟩
  · rw [h7]
    rintro _ _ ⟨⟩

theorem Sound.line (hs : s.Sound) {l : List Nat} {ls : List (List Nat)} (hbelow : s.below = l :: ls) (mode : Mode)
    (h1 : ∀ buf start, mode = .multi buf start → s.varInString = 0 ∧ s.multiStringId ≠ [])
    (h2 : ∀ buf start, mode ≠ .string buf start) (hl : L) :
    s.Proceeds L (some (.next
      { s with curLine := s.curLine + 1, lineStart := l, str := l, below := ls, mode := mode })) := by
  refine .next ?_ ⟨?_, hs.stack, hs.nonzero, hs.marked, h1, fun buf start h => absurd h (h2 buf start)⟩ (.inr hl)
  · unfold left
    rw [hbelow]
    simp
    omega
  · have hcount := hs.count_eq
    rw [hbelow, List.length_cons] at hcount
    dsimp only
    omega

theorem endLine_proceeds (hs : s.Sound) (hl : L) : s.Proceeds L (some s.endLine) := by
  unfold endLine
  split
  · rename_i hbelow
    exact .done Iff.rfl hbelow hl
  · rename_i l ls hbelow
    exact hs.line hbelow _ (by rintro _ _ ⟨⟩) (by rintro _ _ ⟨⟩) hl

/-- **A turn over the text of a template.** -/
theorem templateTurn_proceeds (hs : s.Sound) (buf : List Nat) :
    s.Proceeds (strstr [60, 37] s.str = none) (s.templateTurn buf) := by
  unfold templateTurn
  split
  · rename_i before tag hstr
    obtain ⟨hsplit, hpre⟩ := strstr_some hstr
    have hlen : 2 ≤ tag.length := hpre.length_le
    have hlt : (tag.drop 2).length < s.str.length := by
      rw [hsplit]
      simp at hlen ⊢
      omega
    have hlt' := Nat.lt_of_le_of_lt (tail_length_le (tag.drop 2)) hlt
    rw [advance_some hlen]
    dsimp only
    split
    · split
      · exact hs.code rfl rfl rfl rfl rfl rfl rfl hlt'
      · exact hs.code rfl rfl rfl rfl rfl rfl rfl hlt'
    · split
      · exact hs.code rfl rfl rfl rfl rfl rfl rfl hlt
      · exact hs.code rfl rfl rfl rfl rfl rfl rfl hlt
  · rename_i hstr
    dsimp only
    rcases nextLine_cases s with ⟨hnext, hbelow⟩ | ⟨l, ls, hbelow, hnext⟩
    · rw [hnext]
      exact .done Iff.rfl hbelow hstr
    · rw [hnext]
      exact hs.line hbelow _ (by rintro _ _ ⟨⟩) (by rintro _ _ ⟨⟩) hstr

theorem Sound.inMulti (hs : s.Sound) (hvar : s.varInString = 0) (hid : s.multiStringId ≠ []) {str : List Nat} (buf start : List Nat)
    (hlt : str.length < s.str.length) : s.Proceeds L (some (.next { s with str := str, mode := .multi buf start })) :=
  .next (left_lt (t := { s with str := str, mode := .multi buf start }) rfl hlt)
    ⟨hs.count_eq, hs.stack, hs.nonzero, hs.marked, fun _ _ _ => ⟨hvar, hid⟩, by rintro _ _ ⟨⟩⟩ (.inl rfl)

theorem Sound.inString (hs : s.Sound) (htype : s.stringType = .simple ∨ s.stringType = .quote) {str : List Nat}
    (buf start : List Nat) (hlt : str.length < s.str.length) :
    s.Proceeds L (some (.next { s with str := str, mode := .string buf start })) :=
  .next (left_lt (t := { s with str := str, mode := .string buf start }) rfl hlt)
    ⟨hs.count_eq, hs.stack, hs.nonzero, hs.marked, (by rintro _ _ ⟨⟩), fun _ _ _ => htype⟩ (.inl rfl)

theorem inject_proceeds (hs : s.Sound) (hvar : s.varInString = 0)
    (htype : s.stringType = .quote ∨ s.stringType = .multiQuote ∧ s.multiStringId ≠ []) (buf start : List Nat) {str : List Nat}
    (hlt : str.length < s.str.length) : s.Proceeds L (some (.next (s.inject buf start str))) := by
  have hstack := hs.stack_nil hvar
  refine .next (left_lt (t := s.inject buf start str) rfl hlt)
    ⟨hs.count_eq, .inr ⟨Nat.one_ne_zero, ?_⟩, hs.nonzero, ?_, (by rintro _ _ ⟨⟩), by rintro _ _ ⟨⟩⟩ (.inl rfl)
  · show s.stringType :: s.stringTypeStack = _ ∨ s.stringType :: s.stringTypeStack = _
    rw [hstack]
    rcases htype with h | ⟨h, -⟩
    · rw [h]
      exact .inl rfl
    · rw [h]
      exact .inr rfl
  · show _ ∈ s.stringType :: s.stringTypeStack → _
    rw [hstack]
    rcases htype with h | ⟨-, h⟩
    · rw [h]
      intro hmem
      simp at hmem
    · exact fun _ => h

/-- Only in front of a line end alone is the buffer read behind its start. -/
theorem trimLineEnd_none {buf : List Nat} (hne : buf ≠ []) : trimLineEnd buf = none ↔ buf = [10] := by
  constructor
  · intro h
    unfold trimLineEnd at h
    dsimp only at h
    split at h
    · rename_i hlast
      split at hlast
      · rename_i hten
        have hdrop : buf.dropLast = [] := List.getLast?_eq_none_iff.1 hlast
        have hsplit := List.dropLast_append_getLast? 10 hten
        rw [hdrop] at hsplit
        exact hsplit.symm
      · exact absurd (List.getLast?_eq_none_iff.1 hlast) hne
    · cases h
  · rintro rfl
    rfl

/-- **A turn over a string of several lines.** -/
theorem multiTurn_proceeds (hs : s.Sound) {buf start : List Nat} (hmode : s.mode = .multi buf start)
    (hmark : head s.str ≠ 0 → s.multiStringId.length ≤ s.str.length + 1)
    (hfirst : s.multiStringId <+: s.str → s.str.length = s.lineStart.length → buf ≠ [10]) :
    s.Proceeds (head s.str = 0 ∧ s.below ≠ []) (s.multiTurn buf start) := by
  obtain ⟨hvar, hid⟩ := hs.multi buf start hmode
  unfold multiTurn
  by_cases hhead : head s.str = 0
  · rw [if_pos hhead]
    rcases nextLine_cases s with ⟨hnext, hbelow⟩ | ⟨l, ls, hbelow, hnext⟩
    · rw [hnext]
      exact .fail _ _
    · rw [hnext]
      refine hs.line hbelow _ (fun _ _ _ => ⟨hvar, hid⟩) (by rintro _ _ ⟨⟩) ⟨hhead, ?_⟩
      rw [hbelow]
      exact List.cons_ne_nil _ _
  rw [if_neg hhead]
  have hpos := length_pos_of_head hhead
  cases hcmp : memcmp s.str s.multiStringId with
  | none =>
    unfold memcmp at hcmp
    rw [if_pos (hmark hhead)] at hcmp
    cases hcmp
  | some b =>
    cases b with
    | true =>
      -- the mark is at least one character of the line
      have hpre := memcmp_true hs.nonzero hcmp
      have hidpos := List.length_pos_of_ne_nil hid
      have hlt : (s.str.drop s.multiStringId.length).length < s.str.length := by
        rw [List.length_drop]
        omega
      dsimp only
      rw [if_neg (by omega), advance_some hpre.length_le]
      dsimp only
      split
      · rename_i htrim
        split at htrim
        · rename_i hstart
          have hten := (trimLineEnd_none hstart.2).1 htrim
          exact absurd hten (hfirst hpre hstart.1)
        · cases htrim
      · exact hs.code rfl rfl rfl rfl rfl rfl rfl hlt
    | false =>
      have hlt : s.str.tail.length < s.str.length := by
        rw [List.length_tail]
        omega
      have hlt' := Nat.lt_of_le_of_lt (tail_length_le s.str.tail) hlt
      dsimp only
      split
      · rename_i hc
        rw [if_neg (by omega)]
        exact inject_proceeds hs hvar (.inr ⟨hc.1, hid⟩) _ _ hlt'
      · split
        · exact hs.inMulti hvar hid _ _ hlt'
        · exact hs.inMulti hvar hid _ _ hlt

theorem escape_length {str rest : List Nat} {c : Nat} (h : escape str = some (c, rest)) : rest.length ≤ str.length := by
  have htail := tail_length_le str
  have hmap : ∀ {o : Option (Int × List Nat)} {t : List Nat}, t.length ≤ str.length →
      (∀ r, o = some r → r.2.length < t.length) → (o.map fun r => (escapeValue r.1, r.2)) = some (c, rest) →
      rest.length ≤ str.length := fun {o t} hle hlt h => by
    obtain ⟨r, hr, heq⟩ := Option.map_eq_some_iff.1 h
    cases heq
    have := hlt r hr
    omega
  unfold escape at h
  split at h
  case h_10 => exact hmap htail (fun r hr => parseSimple_length hr) h
  case h_11 => exact hmap (Nat.le_refl _) (fun r hr => parseSimple_length hr) h
  case h_12 =>
    split at h
    · exact hmap (Nat.le_refl _) (fun r hr => parseSimple_length hr) h
    · cases h
      exact Nat.le_refl _
  all_goals
    cases h
    exact htail

/-- **A turn over a string.** -/
theorem stringTurn_proceeds (hs : s.Sound) {buf start : List Nat} (hmode : s.mode = .string buf start) :
    s.Proceeds False (s.stringTurn buf start) := by
  have htype := hs.string buf start hmode
  unfold stringTurn
  dsimp only
  by_cases hhead : head s.str = 0
  · rw [if_pos hhead]
    exact .fail _ _
  rw [if_neg hhead]
  have hpos := length_pos_of_head hhead
  have hlt : s.str.tail.length < s.str.length := by
    rw [List.length_tail]
    omega
  have hlt' := Nat.lt_of_le_of_lt (tail_length_le s.str.tail) hlt
  generalize (if s.stringType = .simple then 39 else 34) = closeChar
  split
  · -- the string is closed
    exact hs.code rfl rfl rfl rfl rfl rfl rfl hlt
  · split
    · rename_i hc
      by_cases hvar : s.varInString = 0
      · rw [if_neg (by omega)]
        exact inject_proceeds hs hvar (.inl (htype.resolve_left hc.2.1)) _ _ hlt'
      · rw [if_pos hvar]
        exact .fail _ _
    · split
      · split
        · split
          · exact hs.inString htype _ _ hlt'
          · exact hs.inString htype _ _ hlt
        · split
          · exact .fail _ _
          · rename_i c rest hescape
            exact hs.inString htype _ _ (Nat.lt_of_le_of_lt (escape_length hescape) hlt)
      · exact hs.inString htype _ _ hlt

/-- **A turn over a comment.** -/
theorem commentTurn_proceeds (hs : s.Sound) {text : List Nat} {line pos : Nat} (hmode : s.mode = .comment text line pos)
    (hclosed : s.Leaves → s.below = [] → ¬ s.Open) :
    s.Proceeds (strstr [42, 47] s.str = none) (s.commentTurn text line pos) := by
  unfold commentTurn
  split
  · rename_i before mark hstr
    obtain ⟨hsplit, hpre⟩ := strstr_some hstr
    have hlen : 2 ≤ mark.length := hpre.length_le
    have hlt : (mark.drop 2).length < s.str.length := by
      rw [hsplit]
      simp at hlen ⊢
      omega
    rw [advance_some hlen]
    dsimp only
    split
    · exact hs.code rfl rfl rfl rfl rfl rfl rfl hlt
    · exact hs.code rfl rfl rfl rfl rfl rfl rfl hlt
  · rename_i hstr
    have hcount := hs.count_eq
    rw [if_neg (by omega)]
    dsimp only
    rcases nextLine_cases s with ⟨hnext, hbelow⟩ | ⟨l, ls, hbelow, hnext⟩
    · have hleaves : s.Leaves := by
        unfold Leaves
        rw [hmode]
        exact hstr
      refine absurd (.inl ?_) (hclosed hleaves hbelow)
      rw [hmode]
      trivial
    · rw [hnext]
      exact hs.line hbelow _ (by rintro _ _ ⟨⟩) (by rintro _ _ ⟨⟩) hstr

theorem operator_proceeds (hs : s.Sound) (hmode : s.mode = .code) {op : List Nat} (hop : op ≠ []) (hpre : op <+: s.str) :
    s.Proceeds L (s.operator op) := by
  have hpos := List.length_pos_of_ne_nil hop
  have hle := hpre.length_le
  have hlt : (s.str.drop op.length).length < s.str.length := by
    rw [List.length_drop]
    omega
  have hcount : ∀ n, n ≠ 0 → s.varInString ≠ 0 → s.Proceeds L (some (.next
      { s.addToken op .operator (s.pos s.str) with str := s.str.drop op.length, varInString := n })) := fun n hn hvar => by
    have hstack := hs.stack.resolve_left fun h => hvar h.1
    refine .next (left_lt rfl hlt) ⟨hs.count_eq, .inr ⟨hn, hstack.2⟩, hs.nonzero, hs.marked, ?_, ?_⟩ (.inl rfl)
    · rintro buf start h
      cases hmode.symm.trans h
    · rintro buf start h
      cases hmode.symm.trans h
  unfold operator
  rw [advance_some hle]
  dsimp only
  split
  · rename_i hopen
    exact hcount _ (Nat.succ_ne_zero _) hopen.1
  · split
    · rename_i hclose
      by_cases hone : s.varInString - 1 = 0
      · rw [if_pos hone]
        exact .fail _ _
      · rw [if_neg hone]
        exact hcount _ hone hclose.1
    · exact hs.code rfl rfl rfl rfl rfl rfl hmode hlt

theorem operators_ne_nil : ∀ op ∈ operators, op ≠ [] := by
  decide

theorem head_ne_of_operator {str : List Nat} {c : Nat} (hc : [c] ∈ operators)
    (hnone : operators.find? (fun op => op.isPrefixOf str) = none) (hhead : head str ≠ 0) : head str ≠ c := by
  obtain ⟨d, r, rfl, -⟩ := head_ne_zero hhead
  rintro rfl
  exact absurd (List.isPrefixOf_iff_prefix.2 ⟨r, rfl⟩) (List.find?_eq_none.1 hnone _ hc)

/-- **A turn over a comment, a name, an operator or a number.** -/
theorem plain_proceeds (hs : s.Sound) (hmode : s.mode = .code) (hhead : head s.str ≠ 0)
    (hnumber : ∀ r, s.str = 49 :: 46 :: 35 :: r → HasPlace specials (46 :: 35 :: r)) : s.Proceeds ([47, 47] <+: s.str) s.plain := by
  have hpos := length_pos_of_head hhead
  unfold plain
  rw [looksLike_start _ _ (by decide), looksLike_start _ _ (by decide)]
  cases hline : [47, 47].isPrefixOf s.str with
  | true =>
    dsimp only
    split
    · exact (endLine_proceeds (s := s.addToken _ _ _) ⟨hs.count_eq, hs.stack, hs.nonzero, hs.marked, hs.multi, hs.string⟩
        (List.isPrefixOf_iff_prefix.1 hline)).of_same rfl rfl Iff.rfl
    · exact endLine_proceeds hs (List.isPrefixOf_iff_prefix.1 hline)
  | false =>
    cases hmulti : [47, 42].isPrefixOf s.str with
    | true =>
      have hlen : 2 ≤ s.str.length := (List.isPrefixOf_iff_prefix.1 hmulti).length_le
      dsimp only
      rw [advance_some hlen]
      refine .next (left_lt rfl ?_) ⟨hs.count_eq, hs.stack, hs.nonzero, hs.marked, (by rintro _ _ ⟨⟩), by rintro _ _ ⟨⟩⟩ (.inl rfl)
      dsimp only
      rw [List.length_drop]
      omega
    | false =>
      dsimp only
      split
      · refine hs.code rfl rfl rfl rfl rfl rfl hmode (Nat.lt_of_le_of_lt (dropWhile_length_le _ _) ?_)
        rw [List.length_tail]
        omega
      · split
        · rename_i op hop
          have hpre := List.find?_some hop
          exact operator_proceeds hs hmode (operators_ne_nil op (List.mem_of_find?_eq_some hop))
            (List.isPrefixOf_iff_prefix.1 hpre)
        · rename_i hnone
          split
          · rename_i hnumber'
            exact absurd (parseNumber_none.1 hnumber') ((parseFloat_some (head_ne_of_operator (by decide) hnone hhead)
              (head_ne_of_operator (by decide) hnone hhead)).2 hnumber)
          · exact .fail _ _
          · rename_i str hstr
            exact hs.code rfl rfl rfl rfl rfl rfl hmode (parseNumber_length hstr)

theorem enter_string (h : s.stringType = .simple ∨ s.stringType = .quote) (hpos : 0 < s.str.length) :
    s.enter = some (.next { s with str := s.str.drop 1, mode := .string [] s.str }) := by
  unfold enter
  rw [advance_some hpos]
  rcases h with h | h
  · rw [h]
    rfl
  · rw [h]
    rfl

theorem enter_multi (h : s.stringType = .multiSimple ∨ s.stringType = .multiQuote) (hvar : s.varInString = 0) :
    s.enter = some (.next { s with mode := .multi [] s.str }) := by
  unfold enter
  rw [if_neg (by omega)]
  rcases h with h | h
  · rw [h]
  · rw [h]

theorem drop_one_lt {str : List Nat} (hpos : 0 < str.length) : (str.drop 1).length < str.length := by
  rw [List.length_drop]
  omega

theorem stringStart_proceeds (hs : s.Sound) (hpos : 0 < s.str.length) {top : StringType} (htop : top = .simple ∨ top = .quote) :
    s.Proceeds L ({ s with stringType := top } : Scanner).enter := by
  rw [enter_string]
  · exact .next (left_lt rfl (drop_one_lt hpos))
      ⟨hs.count_eq, hs.stack, hs.nonzero, hs.marked, (by rintro _ _ ⟨⟩), fun _ _ _ => htop⟩ (.inl rfl)
  · exact htop
  · exact hpos

/-- **A turn over the brace behind a value in a string.** -/
theorem closeInject_proceeds (hs : s.Sound) (hvar : s.varInString = 1) (hpos : 0 < s.str.length) :
    s.Proceeds L s.closeInject := by
  have hstack := (hs.stack.resolve_left fun h => by omega).2
  unfold closeInject
  rcases hstack with hstack | hstack
  · rw [hstack]
    dsimp only
    rw [if_neg (by decide), enter_string]
    · exact .next (left_lt rfl (drop_one_lt hpos))
        ⟨hs.count_eq, .inl ⟨rfl, rfl⟩, hs.nonzero, (by rintro ⟨⟩), (by rintro _ _ ⟨⟩), fun _ _ _ => .inr rfl⟩ (.inl rfl)
    · exact .inr rfl
    · exact hpos
  · have hid := hs.marked (by rw [hstack]; exact List.mem_singleton_self _)
    rw [hstack]
    dsimp only
    rw [if_pos rfl, advance_some hpos]
    dsimp only
    rw [enter_multi]
    · exact .next (left_lt rfl (drop_one_lt hpos))
        ⟨hs.count_eq, .inl ⟨rfl, rfl⟩, hs.nonzero, (by rintro ⟨⟩), (fun _ _ _ => ⟨rfl, hid⟩), by rintro _ _ ⟨⟩⟩ (.inl rfl)
    · exact .inr rfl
    · rfl

theorem rawString_proceeds (hs : s.Sound) (hmode : s.mode = .code) (hpos : 0 < s.str.length) : s.Proceeds L s.rawString := by
  unfold rawString
  split
  · exact .fail _ _
  · rename_i text mark hstr
    obtain ⟨hsplit, hpre⟩ := strstr_some hstr
    have hlen : 1 ≤ mark.length := hpre.length_le
    rw [advance_some hlen]
    refine hs.code rfl rfl rfl rfl rfl rfl hmode ?_
    have htail := congrArg List.length hsplit
    rw [List.length_append, List.length_tail] at htail
    show (mark.drop 1).length < s.str.length
    rw [List.length_drop]
    omega

theorem markId_nonzero (str : List Nat) : 0 ∉ markId str := by
  intro h
  have hall := List.all_eq_true.1 List.all_takeWhile 0 h
  simp at hall

theorem quote_type (c : Prop) [Decidable c] :
    (if c then StringType.multiSimple else .multiQuote) = .multiSimple ∨
      (if c then StringType.multiSimple else .multiQuote) = .multiQuote := by
  by_cases hc : c
  · exact .inl (if_pos hc)
  · exact .inr (if_neg hc)

/-- **A turn over the mark of a string of several lines.** -/
theorem beginMulti_proceeds (hs : s.Sound) (hpre : [60, 60, 60] <+: s.str) :
    s.Proceeds (s.BeginsBelow s.str) s.beginMulti := by
  have hlen : 3 ≤ s.str.length := hpre.length_le
  unfold beginMulti
  by_cases hvar : s.varInString = 0
  · rw [if_neg (by omega), advance_some hlen]
    dsimp only
    split
    · exact .fail _ _
    · rename_i hid
      have hne : markId (s.str.drop 3) ≠ [] := fun h => hid (.inr (by rw [h]; decide))
      have hle : ((s.str.drop 3).drop (markId (s.str.drop 3)).length).tail.length < s.str.length := by
        rw [List.length_tail, List.length_drop, List.length_drop]
        omega
      split
      · rw [enter_multi]
        · exact .next (left_lt rfl hle)
            ⟨hs.count_eq, .inl ⟨hvar, hs.stack_nil hvar⟩, markId_nonzero _, fun _ => hne, (fun _ _ _ => ⟨hvar, hne⟩),
              by rintro _ _ ⟨⟩⟩ (.inl rfl)
        · exact quote_type _
        · exact hvar
      · rename_i hend
        unfold nextLine
        dsimp only
        cases hbelow : s.below with
        | nil => exact .fail _ _
        | cons l ls =>
          dsimp only
          have hcount := hs.count_eq
          rw [hbelow, List.length_cons] at hcount
          rw [enter_multi]
          · refine .next ?_ ⟨?_, .inl ⟨hvar, hs.stack_nil hvar⟩, markId_nonzero _, fun _ => hne, (fun _ _ _ => ⟨hvar, hne⟩), ?_⟩
              (.inr ⟨hpre, hvar, Nat.le_of_not_lt fun h => hid (.inr h), fun h => hid (.inl h), not_not.1 hend, ?_⟩)
            · unfold left
              rw [hbelow]
              simp
              omega
            · dsimp only
              omega
            · rintro _ _ ⟨⟩
            · rw [hbelow]
              exact List.cons_ne_nil _ _
          · exact quote_type _
          · exact hvar
  · rw [if_pos hvar]
    exact .fail _ _

/-- The turn of a token, where it may leave the line. -/
def EndsLine (s : Scanner) : Prop := head s.str = 0 ∨ [47, 47] <+: s.str ∨ s.BeginsBelow s.str

/-- **A turn over a token.** -/
theorem tokenTurn_proceeds (hs : s.Sound) (hmode : s.mode = .code)
    (hnumber : ∀ r, s.str = 49 :: 46 :: 35 :: r → HasPlace specials (46 :: 35 :: r)) :
    s.Proceeds s.EndsLine s.tokenTurn := by
  unfold tokenTurn
  by_cases hhead : head s.str = 0
  · rw [if_pos hhead]
    exact endLine_proceeds hs (.inl hhead)
  rw [if_neg hhead]
  have hpos := length_pos_of_head hhead
  rw [looksLike_if _ _ _ (by decide)]
  cases hclose : decide ((s.templateEnabled && !s.isTemplate) = true) && [37, 62].isPrefixOf s.str with
  | true =>
    have hlen : 2 ≤ s.str.length := (List.isPrefixOf_iff_prefix.1 (Bool.and_eq_true_iff.1 hclose).2).length_le
    dsimp only
    rw [advance_some hlen]
    refine hs.code rfl rfl rfl rfl rfl rfl hmode ?_
    show (s.str.drop 2).length < s.str.length
    rw [List.length_drop]
    omega
  | false =>
    dsimp only
    split
    · rename_i hbrace
      exact closeInject_proceeds hs hbrace.1 hpos
    · split
      · exact rawString_proceeds hs hmode hpos
      · split
        · exact stringStart_proceeds hs hpos (.inr rfl)
        · split
          · exact stringStart_proceeds hs hpos (.inl rfl)
          · rw [looksLike_start _ _ (by decide)]
            cases hmark : [60, 60, 60].isPrefixOf s.str with
            | true => exact (beginMulti_proceeds hs (List.isPrefixOf_iff_prefix.1 hmark)).mono fun h => .inr (.inr h)
            | false =>
              have hplain := plain_proceeds (s := { s with stringType := .notString })
                ⟨hs.count_eq, hs.stack, hs.nonzero, hs.marked, hs.multi, fun buf start h => nomatch hmode.symm.trans h⟩ hmode hhead hnumber
              exact (hplain.of_same (s := s) rfl rfl Iff.rfl).mono fun h => Or.inr (Or.inl h)

/-- **A turn**, where it is not lost at one of the slips. -/
theorem turn_proceeds_of (hs : s.Sound) (hclosed : s.Leaves → s.below = [] → ¬ s.Open)
    (hmark : ∀ buf start, s.mode = .multi buf start → head s.str ≠ 0 → s.multiStringId.length ≤ s.str.length + 1)
    (hfirst : ∀ buf start, s.mode = .multi buf start → s.multiStringId <+: s.str → s.str.length = s.lineStart.length →
      buf ≠ [10])
    (hnumber : s.mode = .code → s.between = false → ∀ r, skipSpaces s.str = 49 :: 46 :: 35 :: r →
      HasPlace specials (46 :: 35 :: r)) :
    s.Proceeds s.Leaves s.turn := by
  unfold turn Leaves
  cases hmode : s.mode with
  | code =>
    dsimp only
    cases hb : s.between with
    | true =>
      rw [if_pos rfl, if_pos rfl]
      exact templateTurn_proceeds hs []
    | false =>
      rw [if_neg Bool.false_ne_true, if_neg Bool.false_ne_true]
      have htoken := tokenTurn_proceeds (s := { s with str := skipSpaces s.str })
        ⟨hs.count_eq, hs.stack, hs.nonzero, hs.marked, hs.multi, hs.string⟩ hmode (hnumber hmode hb)
      exact htoken.skip
  | multi buf start => exact multiTurn_proceeds hs hmode (hmark buf start hmode) (hfirst buf start hmode)
  | string buf start => exact stringTurn_proceeds hs hmode
  | comment text line pos => exact commentTurn_proceeds hs hmode hclosed
  | template buf => exact templateTurn_proceeds hs buf

/-- **A turn.** -/
theorem turn_proceeds (hs : s.Sound) (hm : s.Meets) : s.Proceeds s.Leaves s.turn :=
  turn_proceeds_of hs hm.closed hm.mark hm.first hm.number

end Scanner

end Tokenizer
end Compiler
end ObjectScript
