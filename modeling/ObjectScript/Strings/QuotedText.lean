import ObjectScript.Compiler.TokenizerFrames
import ObjectScript.Strings.Sprintf
/-!
# Quoted strings

`appendQuotedString` writes a string between quotes, one byte after the other, and the tokenizer reads it back.  What it writes
for a control character without a letter, or for a byte from 128 on, is no escape, and it leaves `${` as it is.

`byte_reached` takes the tokenizer over what one byte was written as, and `quoted_reached` is the induction over the
string.  For the converse a byte that is written otherwise makes the string that is read longer or another one
(`readBack`), or opens an injection.
-/
namespace ObjectScript
namespace Strings

open Compiler.Tokenizer
open Compiler.Tokenizer.Scanner (Reachable)

/-- The characters that are written as a backslash and a letter, with the letter. -/
def letterOf (c : Nat) : Option Nat :=
  match c with
  | 34 => some 34
  | 13 => some 114
  | 10 => some 110
  | 9 => some 116
  | 11 => some 118
  | 8 => some 98
  | 12 => some 102
  | 92 => some 92
  | _ => none

/-- `*str < ' '` of a signed character -/
def belowSpace (c : Nat) : Bool := c < 32 || 128 ≤ c

/-- A turn of the loop of `appendQuotedString`. -/
def quoteChar (c : Nat) : List Nat :=
  match letterOf c with
  | some letter => [92, letter]
  | none => if belowSpace c then [48, 120, UPPER_DIGITS.getD (c / 16 % 16) 0, UPPER_DIGITS.getD (c % 16) 0] else [c]

def appendQuotedString (buf string : List Nat) : List Nat :=
  string.foldl (fun buf c => buf ++ quoteChar c) (buf ++ [34]) ++ [34]

def quoted (string : List Nat) : List Nat := string.flatMap quoteChar ++ [34]

theorem appendQuotedString_eq (buf string : List Nat) : appendQuotedString buf string = buf ++ 34 :: quoted string := by
  have hfold : ∀ (s acc : List Nat), s.foldl (fun buf c => buf ++ quoteChar c) acc = acc ++ s.flatMap quoteChar := by
    intro s
    induction s with
    | nil => simp
    | cons c s ih =>
      intro acc
      rw [List.foldl_cons, ih, List.flatMap_cons, List.append_assoc]
  unfold appendQuotedString quoted
  rw [hfold]
  simp

theorem quoted_cons (c : Nat) (string : List Nat) : quoted (c :: string) = quoteChar c ++ quoted string := by
  unfold quoted
  rw [List.flatMap_cons, List.append_assoc]

theorem quoteChar_cases (c : Nat) : (∃ letter, letterOf c = some letter ∧ quoteChar c = [92, letter]) ∨
    letterOf c = none ∧ belowSpace c = true ∧
      quoteChar c = [48, 120, UPPER_DIGITS.getD (c / 16 % 16) 0, UPPER_DIGITS.getD (c % 16) 0] ∨
    letterOf c = none ∧ belowSpace c = false ∧ quoteChar c = [c] := by
  unfold quoteChar
  cases hletter : letterOf c with
  | some letter => exact .inl ⟨letter, rfl, rfl⟩
  | none =>
    cases hbelow : belowSpace c with
    | true => exact .inr (.inl ⟨rfl, rfl, rfl⟩)
    | false => exact .inr (.inr ⟨rfl, rfl, rfl⟩)

/-- An opening brace is in front only where the string has it. -/
theorem head_quoted {string : List Nat} (h : head (quoted string) = 123) : ∃ r, string = 123 :: r := by
  cases string with
  | nil => cases h
  | cons c r =>
    rw [quoted_cons] at h
    rcases quoteChar_cases c with ⟨letter, -, hq⟩ | ⟨-, -, hq⟩ | ⟨-, -, hq⟩
    · rw [hq] at h
      cases h
    · rw [hq] at h
      cases h
    · rw [hq] at h
      exact ⟨r, by rw [show c = 123 from h]⟩

theorem hexDigit_literal : ∀ d < 16, UPPER_DIGITS.getD d 0 ∉ [0, 34, 92] ∧ UPPER_DIGITS.getD d 0 ≠ 36 := by decide

/-! ## In a string -/

/-- In a string between quotes that began at `start`. -/
def inQuote (s : Scanner) (buf start str : List Nat) : Scanner :=
  { s with stringType := .quote, str := str, mode := .string buf start }

variable {s : Scanner} {buf start r : List Nat} {c : Nat}

theorem literal_turn (hc : c ∉ [0, 34, 92]) (hinject : c = 36 → head r ≠ 123) :
    (inQuote s buf start (c :: r)).turn = some (.next (inQuote s (buf ++ [c]) start r)) := by
  simp only [List.mem_cons, List.not_mem_nil, or_false, not_or] at hc
  obtain ⟨h0, h34, h92⟩ := hc
  show (inQuote s buf start (c :: r)).stringTurn buf start = _
  unfold Scanner.stringTurn
  show (if c = 0 then _ else if c = 34 then _ else if c = 36 ∧ StringType.quote ≠ .simple ∧ head r = 123 then _ else
    if c = 92 then _ else _) = _
  rw [if_neg h0, if_neg h34, if_neg (fun h => hinject h.1 h.2.2), if_neg h92]
  rfl

theorem escape_letterOf {letter : Nat} (h : letterOf c = some letter) (r : List Nat) :
    Scanner.escape (letter :: r) = some (c, r) := by
  unfold letterOf at h
  split at h
  all_goals cases h
  all_goals rfl

theorem escape_turn {letter : Nat} (h : letterOf c = some letter) :
    (inQuote s buf start (92 :: letter :: r)).turn = some (.next (inQuote s (buf ++ [c]) start r)) := by
  show (inQuote s buf start (92 :: letter :: r)).stringTurn buf start = _
  have hstr : (inQuote s buf start (92 :: letter :: r)).str = 92 :: letter :: r := rfl
  have htype : (inQuote s buf start (92 :: letter :: r)).stringType = .quote := rfl
  have hsimple : ¬ StringType.quote = .simple := by rintro ⟨⟩
  have h92 : head (92 :: letter :: r) = 92 := rfl
  unfold Scanner.stringTurn
  dsimp only
  rw [hstr, htype, h92, List.tail_cons, if_neg (by decide), if_neg hsimple, if_neg (by decide),
    if_neg (fun h36 => absurd h36.1 (by decide)), if_pos rfl, if_neg hsimple, escape_letterOf h r]
  rfl

def readBack (c : Nat) : List Nat := if (letterOf c).isSome then [c] else quoteChar c

/-- **What is written for a byte is read back**, whatever is behind it. -/
theorem byte_reached (hinject : c = 36 → head r ≠ 123) :
    Reachable (inQuote s buf start (quoteChar c ++ r)) (inQuote s (buf ++ readBack c) start r) := by
  unfold readBack
  rcases quoteChar_cases c with ⟨letter, hletter, hq⟩ | ⟨hletter, hbelow, hq⟩ | ⟨hletter, hbelow, hq⟩
  · rw [hq, hletter]
    exact Reachable.start.turn (escape_turn hletter)
  · obtain ⟨hhigh, hhigh36⟩ := hexDigit_literal (c / 16 % 16) (Nat.mod_lt _ (by decide))
    obtain ⟨hlow, hlow36⟩ := hexDigit_literal (c % 16) (Nat.mod_lt _ (by decide))
    rw [hletter, hq]
    obtain ⟨high, hhigheq⟩ : ∃ high, high = UPPER_DIGITS.getD (c / 16 % 16) 0 := ⟨_, rfl⟩
    obtain ⟨low, hloweq⟩ : ∃ low, low = UPPER_DIGITS.getD (c % 16) 0 := ⟨_, rfl⟩
    rw [← hhigheq] at hhigh hhigh36 ⊢
    rw [← hloweq] at hlow hlow36 ⊢
    have hfirst : Reachable (inQuote s buf start (48 :: 120 :: high :: low :: r))
        (inQuote s (buf ++ [48] ++ [120]) start (high :: low :: r)) :=
      (Reachable.start.turn (literal_turn (by decide) (by rintro ⟨⟩))).turn (literal_turn (by decide) (by rintro ⟨⟩))
    have hlast := (hfirst.turn (literal_turn hhigh (fun h => absurd h hhigh36))).turn
      (literal_turn hlow (fun h => absurd h hlow36))
    simpa using hlast
  · have hc : c ∉ [0, 34, 92] := by
      intro hmem
      simp only [List.mem_cons, List.not_mem_nil, or_false] at hmem
      rcases hmem with rfl | rfl | rfl
      · cases hbelow
      · cases hletter
      · cases hletter
    rw [hletter, hq]
    exact Reachable.start.turn (literal_turn hc hinject)

/-- There is no `${` in the string. -/
def NoInjection (string : List Nat) : Prop := ¬ [36, 123] <:+: string

theorem noInjection_tail {string : List Nat} (h : NoInjection (c :: string)) : NoInjection string :=
  fun hin => h (hin.trans (List.suffix_cons c string).isInfix)

theorem noInjection_head {string : List Nat} (h : NoInjection (c :: string)) : c = 36 → head (quoted string) ≠ 123 := by
  rintro rfl hhead
  obtain ⟨t, rfl⟩ := head_quoted hhead
  exact h (List.prefix_append [36, 123] t).isInfix

/-- **A string is read back** up to the last quote, byte after byte. -/
theorem quoted_reached : ∀ (string buf : List Nat), NoInjection string →
    Reachable (inQuote s buf start (quoted string)) (inQuote s (buf ++ string.flatMap readBack) start [34])
  | [], buf, _ => by
    rw [List.flatMap_nil, List.append_nil]
    exact .start
  | c :: string, buf, h => by
    rw [quoted_cons, List.flatMap_cons, ← List.append_assoc]
    exact (byte_reached (noInjection_head h)).trans (quoted_reached string _ (noInjection_tail h))

/-- The first `${` is come to. -/
theorem injection_reached : ∀ (string buf : List Nat), ¬ NoInjection string →
    ∃ buf' r, Reachable (inQuote s buf start (quoted string)) (inQuote s buf' start (36 :: 123 :: r))
  | [], buf, h => absurd (fun hin => by simpa using List.IsInfix.length_le hin) h
  | c :: string, buf, h => by
    by_cases hhere : c = 36 ∧ ∃ r, string = 123 :: r
    · obtain ⟨rfl, r, rfl⟩ := hhere
      exact ⟨buf, quoted r, .start⟩
    · have htail : ¬ NoInjection string := fun hno => h fun hin => by
        rcases List.infix_cons_iff.1 hin with hprefix | hin
        · obtain ⟨r, hr⟩ := hprefix
          obtain ⟨rfl, rfl⟩ := List.cons.inj hr
          exact hhere ⟨rfl, r, rfl⟩
        · exact hno hin
      have hinject : c = 36 → head (quoted string) ≠ 123 := fun h36 hhead => hhere ⟨h36, head_quoted hhead⟩
      obtain ⟨buf', r, hr⟩ := injection_reached string (buf ++ readBack c) htail
      rw [quoted_cons]
      exact ⟨buf', r, (byte_reached hinject).trans hr⟩

/-! ## A text -/

theorem quoteChar_line (c : Nat) : 10 ∉ quoteChar c := by
  rcases quoteChar_cases c with ⟨letter, hletter, hq⟩ | ⟨-, -, hq⟩ | ⟨hletter, hbelow, hq⟩
  · rw [hq]
    unfold letterOf at hletter
    split at hletter
    all_goals cases hletter
    all_goals decide
  · have h : ∀ d < 16, 10 ≠ UPPER_DIGITS.getD d 0 := by decide
    rw [hq]
    simp [-List.getD_eq_getElem?_getD, h _ (Nat.mod_lt _ (by decide))]
  · rw [hq]
    intro h
    rw [List.mem_singleton] at h
    rw [← h] at hletter
    cases hletter

theorem quoted_line (string : List Nat) : 10 ∉ 34 :: quoted string := by
  unfold quoted
  simp [quoteChar_line]

/-- The tokenizer in front of a line that is all of the text. -/
def atLine (saveComments : Bool) (line : List Nat) : Scanner :=
  { count := 1, saveComments := saveComments, curLine := 0, lineStart := line, str := line, below := [],
    templateEnabled := false, isTemplate := false, stringType := .notString, stringTypeStack := [], varInString := 0,
    multiStringId := [], mode := .code, tokens := [] }

variable (saveComments checkUtf8Bom : Bool) (string : List Nat)

theorem begin_quoted : begin saveComments .plain checkUtf8Bom (splitLines (appendQuotedString [] string)) =
    some (some (atLine saveComments (34 :: quoted string))) := by
  rw [appendQuotedString_eq, List.nil_append, splitLines_line (List.cons_ne_nil _ _) (quoted_line string)]
  cases checkUtf8Bom with
  | false => rfl
  | true => rfl

theorem quote_turn : (atLine saveComments (34 :: quoted string)).turn =
    some (.next (inQuote (atLine saveComments (34 :: quoted string)) [] (34 :: quoted string) (quoted string))) := rfl

/-- The string is read to its end where nothing is injected. -/
theorem quoted_done (h : NoInjection string) :
    ∃ n t, Scanner.run n (atLine saveComments (34 :: quoted string)) = some (.done t) ∧
      t.tokens = [⟨string.flatMap readBack, .string, 0, 0⟩] := by
  have hreach := (Reachable.start.turn (quote_turn saveComments string)).trans (quoted_reached string [] h)
  obtain ⟨n, hn⟩ := hreach.run_end (n := 2) rfl
  refine ⟨n, _, hn, ?_⟩
  show [(⟨[] ++ string.flatMap readBack, .string, 0, _⟩ : Token)] = _
  rw [List.nil_append, Scanner.pos]
  simp [inQuote, atLine]

theorem injection_tokens (h : ¬ NoInjection string) {n : Nat} {t : Scanner}
    (hrun : Scanner.run n (atLine saveComments (34 :: quoted string)) = some (.done t)) : 3 ≤ t.tokens.length := by
  obtain ⟨buf, r, hr⟩ : ∃ buf r, Reachable _ (inQuote (atLine saveComments (34 :: quoted string)) buf _ (36 :: 123 :: r)) :=
    injection_reached string [] h
  have hreach := ((Reachable.start.turn (quote_turn saveComments string)).trans hr).turn (t := _) rfl
  obtain ⟨m, hm⟩ := hreach.run_eq (n := n) (by rw [hrun]; rintro _ ⟨⟩)
  rw [hrun] at hm
  obtain ⟨new, hnew, -⟩ := Scanner.run_adds (Scanner.bufferClean_of_ne (by rintro _ ⟨⟩)) hm
  rw [hnew, List.length_append]
  exact Nat.le_add_right_of_le (by rfl)

def Readable (c : Nat) : Prop := letterOf c ≠ none ∨ 32 ≤ c ∧ c ≤ 127

theorem readBack_eq_iff : readBack c = [c] ↔ Readable c := by
  unfold readBack Readable
  rcases quoteChar_cases c with ⟨letter, hletter, hq⟩ | ⟨hletter, hbelow, hq⟩ | ⟨hletter, hbelow, hq⟩
  · simp [hletter]
  · simp [hletter, hq]
    simp [belowSpace] at hbelow
    omega
  · simp [hletter, hq]
    simp [belowSpace] at hbelow
    omega

theorem readBack_length (c : Nat) : 1 ≤ (readBack c).length := by
  unfold readBack
  rcases quoteChar_cases c with ⟨letter, hletter, hq⟩ | ⟨hletter, -, hq⟩ | ⟨hletter, -, hq⟩
  all_goals simp [hletter, hq]

theorem flatMap_readBack_length : ∀ string : List Nat, string.length ≤ (string.flatMap readBack).length
  | [] => Nat.le_refl _
  | c :: string => by
    have hc := readBack_length c
    have hrest := flatMap_readBack_length string
    rw [List.flatMap_cons, List.length_append, List.length_cons]
    omega

/-- A string is read back as itself where each of its bytes is: what is read of a byte is never nothing. -/
theorem flatMap_readBack_iff : ∀ string : List Nat, string.flatMap readBack = string ↔ ∀ c ∈ string, Readable c
  | [] => by simp
  | c :: string => by
    rw [List.flatMap_cons, List.forall_mem_cons, ← readBack_eq_iff, ← flatMap_readBack_iff string]
    constructor
    · intro h
      have hlen : (readBack c).length + (string.flatMap readBack).length = string.length + 1 := by
        rw [← List.length_append, h, List.length_cons]
      have hc := readBack_length c
      have hrest := flatMap_readBack_length string
      have heq : readBack c ++ string.flatMap readBack = [c] ++ string := h
      exact List.append_inj heq (by rw [List.length_singleton]; omega)
    · rintro ⟨hc, hrest⟩
      rw [hc, hrest]
      rfl

theorem parseLines_quoted {tokens : List Token}
    (h : ParseLines saveComments .plain checkUtf8Bom (splitLines (appendQuotedString [] string)) tokens) :
    NoInjection string ∧ tokens = [⟨string.flatMap readBack, .string, 0, 0⟩] ∨ 3 ≤ tokens.length := by
  unfold ParseLines at h
  rw [begin_quoted] at h
  rcases h with ⟨h, -⟩ | ⟨start, n, t, h, hrun, rfl⟩
  · cases h
  · cases h
    by_cases hno : NoInjection string
    · obtain ⟨m, u, hm, htokens⟩ := quoted_done saveComments string hno
      have heq := Scanner.run_unique (n := n) (m := m) (by rw [hrun]; rintro _ ⟨⟩) (by rw [hm]; rintro _ ⟨⟩)
      rw [hrun, hm] at heq
      cases heq
      exact .inl ⟨hno, htokens⟩
    · exact .inr (injection_tokens saveComments string hno hrun)

def QuotedBack : Prop :=
  ∃ token, ParseText saveComments .plain checkUtf8Bom (appendQuotedString [] string) [token] ∧ token.type = .string ∧
    token.text = string

theorem quotedBack_of_readable (hread : ∀ c ∈ string, Readable c) (hno : NoInjection string) :
    QuotedBack saveComments checkUtf8Bom string := by
  obtain ⟨n, t, hrun, htokens⟩ := quoted_done saveComments string hno
  rw [(flatMap_readBack_iff string).2 hread] at htokens
  have hlines : ParseLines saveComments .plain checkUtf8Bom (splitLines (appendQuotedString [] string))
      [⟨string, .string, 0, 0⟩] :=
    .inr ⟨_, n, t, begin_quoted saveComments checkUtf8Bom string, hrun, htokens⟩
  exact ⟨_, ⟨_, hlines, by rw [if_neg (List.cons_ne_nil _ _)]⟩, rfl, rfl⟩

theorem readable_of_quotedBack (h : QuotedBack saveComments checkUtf8Bom string) :
    (∀ c ∈ string, Readable c) ∧ NoInjection string := by
  obtain ⟨token, ⟨ts, hlines, htokens⟩, -, htext⟩ := h
  rcases parseLines_quoted saveComments checkUtf8Bom string hlines with ⟨hno, rfl⟩ | hlen
  · rw [if_neg (List.cons_ne_nil _ _)] at htokens
    cases htokens
    exact ⟨(flatMap_readBack_iff string).1 htext, hno⟩
  · rw [if_neg (by rintro rfl; exact absurd hlen (by decide))] at htokens
    rw [← htokens] at hlen
    exact absurd hlen (by simp)

/-- **A quoted string is read back** exactly when each of its bytes is written as itself or as a backslash and a letter, and
there is no `${` in it. -/
theorem quotedBack_iff : QuotedBack saveComments checkUtf8Bom string ↔ (∀ c ∈ string, Readable c) ∧ NoInjection string :=
  ⟨readable_of_quotedBack saveComments checkUtf8Bom string,
    fun h => quotedBack_of_readable saveComments checkUtf8Bom string h.1 h.2⟩

/-- A control character comes back as the four characters that are written for it. -/
theorem control_not_quotedBack : ¬ QuotedBack false false [1] := fun h =>
  absurd ((readable_of_quotedBack false false [1] h).1 1 List.mem_cons_self) (by unfold Readable; decide)

end Strings
end ObjectScript
