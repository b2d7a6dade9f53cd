import ObjectScript.Compiler.TokenizerRuns
/-!
# What a turn of the tokenizer adds

A turn only puts tokens behind those that there are, and none of them is read again.  In a section of a template a turn is
that of a text of its own, up to the mark that closes the section.

`turn_grows` is what all later modules use of a turn: the new tokens are behind the old ones, and both the lines and the
cursor are where the readers left them.
-/
namespace ObjectScript
namespace Compiler
namespace Tokenizer

def Token.Clean (t : Token) : Prop := t.type = .outputString → 0 ∉ t.text

namespace Scanner

/-- The tokens of `t` are those of `s` and others behind them. -/
def Adds (s t : Scanner) : Prop := ∃ new, t.tokens = s.tokens ++ new ∧ ∀ token ∈ new, token.Clean

/-- The text that is put together for a token comes from C strings. -/
def BufferClean (s : Scanner) : Prop := ∀ buf, s.mode = .template buf → 0 ∉ buf

inductive Grows (s : Scanner) : Option Outcome → Prop where
  | next {t : Scanner} : s.Adds t → t.BufferClean → Grows s (some (.next t))
  | done {t : Scanner} : s.Adds t → Grows s (some (.done t))
  | fail (error : ErrorType) (pos : Nat) : Grows s (some (.fail error pos))
  | outside : Grows s none

variable {s t u : Scanner} {o : Option Outcome}

theorem Adds.refl (s : Scanner) : s.Adds s := ⟨[], (List.append_nil _).symm, by simp⟩

theorem Adds.of_tokens (h : t.tokens = s.tokens) : s.Adds t := ⟨[], by rw [h, List.append_nil], by simp⟩

theorem Adds.trans (h : s.Adds t) (h' : t.Adds u) : s.Adds u := by
  obtain ⟨new, hnew, hclean⟩ := h
  obtain ⟨new', hnew', hclean'⟩ := h'
  refine ⟨new ++ new', by rw [hnew', hnew, List.append_assoc], ?_⟩
  intro token htoken
  rcases List.mem_append.1 htoken with hmem | hmem
  · exact hclean token hmem
  · exact hclean' token hmem

theorem Adds.token (h : s.Adds t) {k : Token} (hclean : k.Clean) (hu : u.tokens = t.tokens ++ [k]) : s.Adds u :=
  h.trans ⟨[k], hu, by simpa using hclean⟩

theorem bufferClean_of_ne (h : ∀ buf, s.mode ≠ .template buf) : s.BufferClean := fun buf hbuf => absurd hbuf (h buf)

theorem bufferClean_of_code (hmode : s.mode = .code) (h : t.mode = s.mode) : t.BufferClean :=
  bufferClean_of_ne (by rw [h, hmode]; rintro _ ⟨⟩)

theorem clean_of_ne {text : List Nat} {type : TokenType} {line pos : Nat} (h : type ≠ .outputString) :
    (⟨text, type, line, pos⟩ : Token).Clean := fun ht => absurd ht h

theorem Grows.of_adds (h : Grows t o) (hadds : s.Adds t) : Grows s o := by
  cases h with
  | next h hbuf => exact .next (hadds.trans h) hbuf
  | done h => exact .done (hadds.trans h)
  | fail error pos => exact .fail error pos
  | outside => exact .outside

theorem Grows.of_tokens (h : Grows t o) (htokens : t.tokens = s.tokens) : Grows s o := h.of_adds (.of_tokens htokens)

theorem endLine_grows (s : Scanner) : Grows s (some s.endLine) := by
  unfold endLine
  split
  · exact .done (.refl s)
  · exact .next (.refl s) (bufferClean_of_ne (by rintro _ ⟨⟩))

theorem inject_grows (buf start str : List Nat) : Grows s (some (.next (s.inject buf start str))) :=
  .next ((((Adds.refl s).token (u := _) (clean_of_ne (by decide)) rfl).token (u := _) (clean_of_ne (by decide)) rfl).token
    (clean_of_ne (by decide)) rfl) (bufferClean_of_ne (by rintro _ ⟨⟩))

theorem nextLine_adds (h : s.nextLine = some t) : t.tokens = s.tokens ∧ t.mode = s.mode := by
  unfold nextLine at h
  split at h
  · cases h
  · cases h
    exact ⟨rfl, rfl⟩

theorem stringTurn_grows (buf start : List Nat) : Grows s (s.stringTurn buf start) := by
  unfold stringTurn
  dsimp only
  repeat' split
  all_goals first
    | exact .fail _ _
    | exact .next (.refl s) (bufferClean_of_ne (by rintro _ ⟨⟩))
    | exact .next ((Adds.refl s).token (clean_of_ne (by decide)) rfl) (bufferClean_of_ne (by rintro _ ⟨⟩))
    | exact inject_grows _ _ _

theorem multiTurn_grows (buf start : List Nat) : Grows s (s.multiTurn buf start) := by
  unfold multiTurn
  dsimp only
  repeat' split
  all_goals first
    | exact .fail _ _
    | exact .outside
    | exact .next (.refl s) (bufferClean_of_ne (by rintro _ ⟨⟩))
    | exact .next ((Adds.refl s).token (clean_of_ne (by decide)) rfl) (bufferClean_of_ne (by rintro _ ⟨⟩))
    | exact inject_grows _ _ _
    | skip
  rename_i t hnext
  exact .next (.of_tokens (nextLine_adds hnext).1) (bufferClean_of_ne (by rintro _ ⟨⟩))

theorem cstr_clean (r : List Nat) : 0 ∉ cstr r := fun h => by
  have := List.mem_takeWhile_imp h
  simp at this

theorem strstr_clean {mark : List Nat} : ∀ {r before rest : List Nat}, strstr mark r = some (before, rest) → 0 ∉ before
  | [], _, _, h => by cases h
  | c :: r, before, rest, h => by
    unfold strstr at h
    split at h
    · cases h
      simp
    · split at h
      · cases h
      · rename_i hc
        obtain ⟨⟨b, r'⟩, hr, heq⟩ := Option.map_eq_some_iff.1 h
        cases heq
        have := strstr_clean hr
        simp [this, Ne.symm hc]

theorem commentTurn_grows (text : List Nat) (line p : Nat) : Grows s (s.commentTurn text line p) := by
  unfold commentTurn
  dsimp only
  repeat' split
  all_goals first
    | exact .fail _ _
    | exact .outside
    | exact .next ((Adds.refl s).token (k := ⟨_, .commentMultiLine, _, _⟩) (clean_of_ne (by decide)) rfl)
        (bufferClean_of_ne (by rintro _ ⟨⟩))
    | exact .next (.refl s) (bufferClean_of_ne (by rintro _ ⟨⟩))
    | skip
  all_goals
    cases hnext : s.nextLine with
    | none => exact .outside
    | some t => exact .next (.of_tokens (nextLine_adds hnext).1) (bufferClean_of_ne (by rintro _ ⟨⟩))

theorem advance_grows (str : List Nat) (k : Nat) {f : List Nat → Outcome} (h : ∀ r, Grows s (some (f r))) :
    Grows s ((advance str k).map f) := by
  cases advance str k with
  | none => exact .outside
  | some r => exact h r

theorem operator_grows (hmode : s.mode = .code) (op : List Nat) : Grows s (s.operator op) := by
  unfold operator
  dsimp only
  repeat' split
  all_goals first
    | exact .fail _ _
    | exact .outside
    | exact .next ((Adds.refl s).token (clean_of_ne (by decide)) rfl) (bufferClean_of_code hmode rfl)

theorem plain_grows (hmode : s.mode = .code) : Grows s s.plain := by
  unfold plain
  dsimp only
  repeat' split
  all_goals first
    | exact .fail _ _
    | exact .outside
    | exact operator_grows hmode _
    | exact endLine_grows s
    | exact (endLine_grows _).of_adds ((Adds.refl s).token (clean_of_ne (by decide)) rfl)
    | exact .next ((Adds.refl s).token (clean_of_ne (by decide)) rfl) (bufferClean_of_code hmode rfl)
    | exact advance_grows _ _ fun r => .next (.refl s) (bufferClean_of_ne (by rintro _ ⟨⟩))

theorem enter_grows (hmode : s.mode = .code) : Grows s s.enter := by
  unfold enter
  repeat' split
  all_goals first
    | exact .fail _ _
    | exact plain_grows hmode
    | exact .next (.refl s) (bufferClean_of_ne (by rintro _ ⟨⟩))
    | exact advance_grows _ _ fun r => .next (.refl s) (bufferClean_of_ne (by rintro _ ⟨⟩))

theorem closeInject_grows (hmode : s.mode = .code) : Grows s s.closeInject := by
  have hadds : s.Adds ((({ s with varInString := 0 } : Scanner).addToken [41] .endBracketBlock (s.pos s.str)).addToken [125]
      .afterInjectVar (s.pos s.str)) :=
    ((Adds.refl s).token (u := { s with varInString := 0 }.addToken [41] .endBracketBlock (s.pos s.str))
      (clean_of_ne (by decide)) rfl).token (clean_of_ne (by decide)) rfl
  unfold closeInject
  dsimp only
  repeat' split
  all_goals first
    | exact .outside
    | exact (enter_grows (by exact hmode)).of_adds hadds

theorem rawString_grows (hmode : s.mode = .code) : Grows s s.rawString := by
  unfold rawString
  split
  · exact .fail _ _
  · exact advance_grows _ _ fun r => .next ((Adds.refl s).token (clean_of_ne (by decide)) rfl) (bufferClean_of_code hmode rfl)

theorem beginMulti_grows (hmode : s.mode = .code) : Grows s s.beginMulti := by
  unfold beginMulti
  dsimp only
  repeat' split
  all_goals first
    | exact .fail _ _
    | exact .outside
    | exact (enter_grows (by exact hmode)).of_tokens rfl
    | skip
  rename_i t hnext
  obtain ⟨htokens, hm⟩ := nextLine_adds hnext
  exact (enter_grows (hm.trans hmode)).of_tokens htokens

theorem templateTurn_grows {buf : List Nat} (hbuf : 0 ∉ buf) : Grows s (s.templateTurn buf) := by
  unfold templateTurn
  cases htag : strstr [60, 37] s.str with
  | some r =>
    obtain ⟨before, tag⟩ := r
    have hclean : 0 ∉ buf ++ before := by
      have := strstr_clean htag
      simp [hbuf, this]
    have hadds : s.Adds (if buf ++ before ≠ [] then s.addToken (buf ++ before) .outputString (s.pos s.str) else s) := by
      split
      · exact (Adds.refl s).token (fun _ => hclean) rfl
      · exact .refl s
    dsimp only
    obtain ⟨t, ht⟩ : ∃ t, t = if buf ++ before ≠ [] then s.addToken (buf ++ before) .outputString (s.pos s.str) else s :=
      ⟨_, rfl⟩
    rw [← ht] at hadds ⊢
    split
    · exact .outside
    · split
      · exact .next (hadds.token (k := ⟨[61], .outputNextValue, _, _⟩) (clean_of_ne (by decide)) rfl)
          (bufferClean_of_ne (by rintro _ ⟨⟩))
      · exact .next hadds (bufferClean_of_ne (by rintro _ ⟨⟩))
  | none =>
    have hclean : 0 ∉ buf ++ cstr s.str ++ [10] := by
      simp [hbuf, cstr_clean]
    dsimp only
    split
    · exact .done ((Adds.refl s).token (fun _ => hclean) rfl)
    · rename_i t hnext
      refine .next (.of_tokens (nextLine_adds hnext).1) ?_
      rintro _ ⟨⟩
      exact hclean

theorem tokenTurn_grows (hmode : s.mode = .code) : Grows s s.tokenTurn := by
  unfold tokenTurn
  repeat' split
  all_goals first
    | exact endLine_grows s
    | exact .outside
    | exact closeInject_grows hmode
    | exact rawString_grows hmode
    | exact beginMulti_grows hmode
    | exact (enter_grows (by exact hmode)).of_tokens rfl
    | exact advance_grows _ _ fun r => .next (.refl s) (bufferClean_of_ne (by rw [hmode]; rintro _ ⟨⟩))

/-- **A turn keeps the tokens** that there are, and puts clean ones behind them. -/
theorem turn_grows (hbuf : s.BufferClean) : Grows s s.turn := by
  unfold turn
  split
  · rename_i hmode
    split
    · exact templateTurn_grows List.not_mem_nil
    · exact (tokenTurn_grows (s := { s with str := skipSpaces s.str }) hmode).of_tokens rfl
  · exact multiTurn_grows _ _
  · exact stringTurn_grows _ _
  · exact commentTurn_grows _ _ _
  · rename_i buf hmode
    exact templateTurn_grows (hbuf buf hmode)

/-! ## Runs -/

theorem Reachable.trans {a b c : Scanner} (h : Reachable a b) (h' : Reachable b c) : Reachable a c := by
  induction h' with
  | start => exact h
  | turn _ hturn ih => exact ih.turn hturn

/-- What a run comes to from a state on its way, it comes to. -/
theorem Reachable.run_end {start : Scanner} (h : Reachable start s) {n : Nat} (hn : run n s = o) : ∃ m, run m start = o := by
  induction h generalizing n with
  | start => exact ⟨n, hn⟩
  | turn _ hturn ih => exact ih (n := n + 1) (by rw [run_next n hturn, hn])

theorem run_ended : ∀ {n m : Nat} {s : Scanner}, (∀ t, run n s ≠ some (.next t)) → n ≤ m → run m s = run n s
  | 0, _, s, h, _ => absurd rfl (h s)
  | n + 1, 0, _, _, hle => absurd hle (Nat.not_succ_le_zero n)
  | n + 1, m + 1, s, h, hle => by
    by_cases hnext : ∃ t, s.turn = some (.next t)
    · obtain ⟨t, ht⟩ := hnext
      rw [run_next n ht] at h ⊢
      rw [run_next m ht, run_ended h (Nat.le_of_succ_le_succ hle)]
    · rw [run_stop n (fun t ht => hnext ⟨t, ht⟩), run_stop m (fun t ht => hnext ⟨t, ht⟩)]

theorem run_unique {n m : Nat} (hn : ∀ t, run n s ≠ some (.next t)) (hm : ∀ t, run m s ≠ some (.next t)) :
    run n s = run m s := by
  rcases Nat.le_total n m with hle | hle
  · exact (run_ended hn hle).symm
  · exact run_ended hm hle

/-- **A run keeps the tokens** that there are. -/
theorem run_adds {n : Nat} (hbuf : s.BufferClean) (h : run n s = some (.done t)) : s.Adds t := by
  induction n generalizing s with
  | zero => cases h
  | succ n ih =>
    have hgrows := turn_grows hbuf
    rw [run] at h
    split at h
    · rename_i u hturn
      rw [hturn] at hgrows
      cases hgrows with
      | next hadds hbuf => exact hadds.trans (ih hbuf h)
    · rw [h] at hgrows
      cases hgrows with
      | done hadds => exact hadds

end Scanner
/-! ## Texts -/

/-- `parseLines` gives true and these tokens. -/
def ParseLines (saveComments : Bool) (type : SourceCodeType) (checkUtf8Bom : Bool) (lines : List (List Nat))
    (tokens : List Token) : Prop :=
  begin saveComments type checkUtf8Bom lines = some none ∧ tokens = [] ∨
    ∃ start n t, begin saveComments type checkUtf8Bom lines = some (some start) ∧ Scanner.run n start = some (.done t) ∧
      t.tokens = tokens

/-- `parseText` gives true and these tokens; a text without tokens is read as "return;". -/
def ParseText (saveComments : Bool) (type : SourceCodeType) (checkUtf8Bom : Bool) (text : List Nat) (tokens : List Token) :
    Prop :=
  ∃ ts, ParseLines saveComments type checkUtf8Bom (splitLines text) ts ∧
    if ts = [] then ParseLines saveComments .plain false [[114, 101, 116, 117, 114, 110, 59]] tokens else tokens = ts

theorem splitLines_line : ∀ {l : List Nat}, l ≠ [] → 10 ∉ l → splitLines l = [l]
  | [], h, _ => absurd rfl h
  | c :: l, _, h => by
    have hc : c ≠ 10 := fun h10 => h (by rw [h10]; exact List.mem_cons_self)
    have hl : 10 ∉ l := fun hmem => h (List.mem_cons_of_mem _ hmem)
    unfold splitLines
    split
    · contradiction
    · rename_i heq
      exact absurd (List.cons.inj heq).1 hc
    · rename_i heq
      obtain ⟨rfl, rfl⟩ := List.cons.inj heq
      cases hempty : l with
      | nil => rfl
      | cons d l' =>
        rw [← hempty, splitLines_line (by rw [hempty]; exact List.cons_ne_nil _ _) hl]

end Tokenizer
end Compiler
end ObjectScript
