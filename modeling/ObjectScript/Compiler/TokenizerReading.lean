import ObjectScript.Compiler.Tokenizer
/-!
# Reading of the tokenizer

What the readers of the tokenizer leave of a line, and when they stay inside of it.

A reader is given the rest of the line behind the cursor and returns what is left of it.  Each has one lemma: the rest is
a proper end of what there was, and the reads were at bytes of the line or at the zero byte behind it.
-/
namespace ObjectScript
namespace Compiler
namespace Tokenizer

/-! ## Reading inside of a line -/

theorem head_ne_zero {s : List Nat} (h : head s ≠ 0) : ∃ c r, s = c :: r ∧ c ≠ 0 := by
  cases s with
  | nil => exact absurd rfl h
  | cons c r => exact ⟨c, r, rfl, h⟩

theorem length_pos_of_head {s : List Nat} (h : head s ≠ 0) : 0 < s.length := by
  obtain ⟨c, r, rfl, -⟩ := head_ne_zero h
  exact Nat.succ_pos _

/-- Looking ahead stops at the first character that is another one, at the latest at the zero behind the line. -/
theorem looksLike_eq : ∀ (pat s : List Nat) (k : Nat), 0 ∉ pat → k ≤ s.length →
    looksLike s k pat = some (pat.isPrefixOf (s.drop k))
  | [], s, k, _, _ => by
    unfold looksLike
    rw [List.isPrefixOf_nil_left]
  | c :: pat, s, k, hpat, hk => by
    have hpeek : peek s k = some (s.getD k 0) := if_pos hk
    unfold looksLike
    rw [hpeek]
    dsimp only
    rcases Nat.lt_or_eq_of_le hk with hlt | hend
    · have hget : s.getD k 0 = s[k] := by
        simp [List.getD, List.getElem?_eq_getElem hlt]
      rw [hget, List.drop_eq_getElem_cons hlt, List.isPrefixOf_cons_cons]
      by_cases hc : s[k] = c
      · rw [if_pos hc, looksLike_eq pat s (k + 1) (fun h => hpat (List.mem_cons_of_mem _ h)) hlt, hc]
        simp
      · rw [if_neg hc]
        have hne : (c == s[k]) = false := by
          simp [Ne.symm hc]
        rw [hne, Bool.false_and]
    · have hget : s.getD k 0 = 0 := by
        simp [List.getD, hend]
      rw [hget, if_neg (fun h => hpat (by rw [h]; exact List.mem_cons_self)), hend, List.drop_length]
      rfl

theorem looksLike_start (pat s : List Nat) (hpat : 0 ∉ pat) : looksLike s 0 pat = some (pat.isPrefixOf s) :=
  looksLike_eq pat s 0 hpat (Nat.zero_le _)

theorem looksLike_if (c : Prop) [Decidable c] (pat s : List Nat) (hpat : 0 ∉ pat) :
    (if c then looksLike s 0 pat else some false) = some (decide c && pat.isPrefixOf s) := by
  by_cases hc : c
  · rw [if_pos hc, looksLike_start pat s hpat, decide_eq_true hc, Bool.true_and]
  · rw [if_neg hc, decide_eq_false hc, Bool.false_and]

theorem advance_some {s : List Nat} {k : Nat} (h : k ≤ s.length) : advance s k = some (s.drop k) := if_pos h

theorem strstr_some {mark : List Nat} : ∀ {s before rest : List Nat}, strstr mark s = some (before, rest) →
    s = before ++ rest ∧ mark <+: rest
  | [], _, _, h => by cases h
  | c :: s, before, rest, h => by
    unfold strstr at h
    by_cases hp : mark.isPrefixOf (c :: s) = true
    · rw [if_pos hp] at h
      cases h
      exact ⟨rfl, List.isPrefixOf_iff_prefix.1 hp⟩
    · rw [if_neg hp] at h
      by_cases hc : c = 0
      · rw [if_pos hc] at h
        cases h
      · rw [if_neg hc] at h
        obtain ⟨⟨b, r⟩, hr, heq⟩ := Option.map_eq_some_iff.1 h
        cases heq
        obtain ⟨h1, h2⟩ := strstr_some hr
        exact ⟨by rw [h1]; rfl, h2⟩

theorem dropWhile_length_le (p : Nat → Bool) (s : List Nat) : (s.dropWhile p).length ≤ s.length :=
  (List.dropWhile_sublist p).length_le

theorem skipSpaces_length_le (s : List Nat) : (skipSpaces s).length ≤ s.length := dropWhile_length_le _ s

/-! ## Numbers -/

theorem parseSimple_length {digit : Nat → Option Nat} {base : Int} {wrap : Int → Int} {s : List Nat} {r : Int × List Nat}
    (h : parseSimple digit base wrap s = some r) : r.2.length < s.length := by
  unfold parseSimple at h
  split at h
  · cases h
  · split at h
    · rename_i hlt
      cases h
      exact hlt
    · cases h

theorem tail_length_le (s : List Nat) : s.tail.length ≤ s.length := by simp

theorem memcmp_true {str mark : List Nat} (hmark : 0 ∉ mark) (h : memcmp str mark = some true) : mark <+: str := by
  unfold memcmp at h
  split at h
  · obtain ⟨r, hr⟩ := List.isPrefixOf_iff_prefix.1 (Option.some.inj h)
    have hpre : mark <+: str ++ [0] := ⟨r, hr⟩
    refine List.prefix_of_prefix_length_le hpre (List.prefix_append str [0]) ?_
    refine Nat.le_of_not_lt fun hlt => hmark ?_
    have hlen := congrArg List.length hr
    rw [List.length_append, List.length_append, List.length_singleton] at hlen
    have hnil : r = [] := List.eq_nil_of_length_eq_zero (by omega)
    rw [hnil, List.append_nil] at hr
    rw [hr]
    simp
  · cases h

theorem memcmp_eq_true {str mark : List Nat} (h : mark <+: str) : memcmp str mark = some true := by
  unfold memcmp
  rw [if_pos (Nat.le_succ_of_le h.length_le)]
  exact congrArg some (List.isPrefixOf_iff_prefix.2 (h.trans (List.prefix_append str [0])))

theorem parseSpecial_length : ∀ {specs : List (List Nat)} {s rest : List Nat}, parseSpecial specs s = some (some rest) →
    rest.length ≤ s.length
  | [], _, _, h => by cases h
  | spec :: specs, s, rest, h => by
    unfold parseSpecial at h
    split at h
    · cases h
    · split at h
      · cases h
      · exact parseSpecial_length h
      · split at h
        · cases h
        · rename_i t ht
          have hlen : t.length ≤ s.length := by
            unfold advance at ht
            split at ht
            · cases ht
              simp
            · cases ht
          split at h
          · cases h
            exact hlen
          · exact Nat.le_trans (parseSpecial_length h) hlen

theorem parseExponent_length {s rest : List Nat} (h : parseExponent s = some rest) : rest.length ≤ s.length := by
  unfold parseExponent at h
  split at h
  · dsimp only at h
    obtain ⟨r, hr, rfl⟩ := Option.map_eq_some_iff.1 h
    have hlt := parseSimple_length hr
    have h1 := tail_length_le s
    split at hlt
    · have h2 := tail_length_le s.tail
      omega
    · omega
  · cases h
    exact Nat.le_refl _

theorem parseSuffix_length (s : List Nat) : (parseSuffix s).length ≤ s.length := by
  unfold parseSuffix
  split
  · exact tail_length_le s
  · exact Nat.le_refl _

theorem parseDecimal_length {positive : Bool} {s rest : List Nat} (h : parseDecimal positive s = some (some rest)) :
    rest.length < s.length := by
  have hle := dropWhile_length_le isDigit s
  unfold parseDecimal at h
  dsimp only at h
  split at h
  · cases h
  · rename_i hne
    have hlt : (s.dropWhile isDigit).length < s.length := by omega
    split at h
    · split at h
      · cases h
      · split at h
        · cases h
          exact hlt
        · split at h
          · exact Nat.lt_of_le_of_lt (parseSpecial_length h) hlt
          · split at h
            · cases h
            · rename_i r hr
              cases h
              have h1 := parseSuffix_length r
              have h2 := parseExponent_length hr
              have h3 := dropWhile_length_le isDigit (s.dropWhile isDigit).tail
              have h4 := tail_length_le (s.dropWhile isDigit)
              omega
    · cases h
      exact hlt

theorem exactNumber_some {r : Option (Int × List Nat)} {rest : List Nat} (h : exactNumber r = some rest) :
    ∃ v, r = some (v, rest) := by
  unfold exactNumber at h
  split at h
  · rename_i v t
    split at h <;> cases h
    exact ⟨v, rfl⟩
  · cases h

theorem parseRadix_length {s rest : List Nat} {c : Nat} (h : parseRadix s c = some (some rest)) : rest.length < s.length := by
  have hadvance : ∀ {f : List Nat → Option (Int × List Nat)}, (∀ {t : List Nat} {r : Int × List Nat}, f t = some r → r.2.length < t.length) →
      ((advance s 2).map fun t => exactNumber (f t)) = some (some rest) → rest.length < s.length := fun {f} hf h => by
    obtain ⟨t, ht, h⟩ := Option.map_eq_some_iff.1 h
    obtain ⟨v, hr⟩ := exactNumber_some h
    unfold advance at ht
    split at ht
    · cases ht
      have := hf hr
      simp at this
      omega
    · cases ht
  unfold parseRadix at h
  split at h
  · exact hadvance (fun h => parseSimple_length h) h
  · split at h
    · exact hadvance (fun h => parseSimple_length h) h
    · obtain ⟨v, hr⟩ := exactNumber_some (Option.some.inj h)
      exact parseSimple_length hr

theorem parseFloat_length {s rest : List Nat} (h : parseFloat s = some (some rest)) : rest.length < s.length := by
  have hstart : (if head s = 45 ∨ head s = 43 then s.tail else s).length ≤ s.length := by
    split
    · exact tail_length_le s
    · exact Nat.le_refl _
  unfold parseFloat at h
  dsimp only at h
  generalize (if head s = 45 ∨ head s = 43 then s.tail else s) = start at h hstart
  refine Nat.lt_of_lt_of_le ?_ hstart
  split at h
  · split at h
    · cases h
    · split at h
      · exact parseRadix_length h
      · exact parseDecimal_length h
  · exact parseDecimal_length h

theorem backToPoint_length {s rest : List Nat} : ∀ {i : Nat}, i < s.length → backToPoint s i = some rest → rest.length < s.length
  | 0, _, h => by cases h
  | i + 1, hi, h => by
    unfold backToPoint at h
    split at h
    · cases h
      simp
      omega
    · exact backToPoint_length (Nat.lt_of_succ_lt hi) h

theorem parseNumber_length {s rest : List Nat} (h : parseNumber s = some (some rest)) : rest.length < s.length := by
  unfold parseNumber at h
  split at h
  · cases h
  · cases h
  · rename_i r hr
    have hlt := parseFloat_length hr
    have h1 := skipSpaces_length_le r
    have h2 := skipSpaces_length_le r.tail
    have h3 := tail_length_le r
    split at h
    · cases h
      omega
    · split at h
      · rename_i t ht
        cases h
        exact backToPoint_length (by omega) ht
      · split at h
        · cases h
          omega
        · cases h

/-! ### Names behind `1.#` -/

/-- There is place behind `.#` for the names it is compared with.  A comparison takes as many characters as the name has, the
zero behind the line included, and where a name is not the end of a number, the next names are looked for two characters
further on. -/
def HasPlace : List (List Nat) → List Nat → Prop
  | [], _ => True
  | spec :: specs, s => spec.length + 1 ≤ s.length ∧
    if spec <+: s.drop 2 then isValidCharAfterNumber (s.drop (spec.length + 2)) = true ∨ HasPlace specs (s.drop (spec.length + 2))
    else HasPlace specs s

theorem parseSpecial_some : ∀ {specs : List (List Nat)} {s : List Nat}, (∀ spec ∈ specs, spec ≠ [] ∧ 0 ∉ spec) →
    (parseSpecial specs s ≠ none ↔ HasPlace specs s)
  | [], s, _ => iff_of_true (by rintro ⟨⟩) trivial
  | spec :: specs, s, hspecs => by
    obtain ⟨hne, hzero⟩ := hspecs spec List.mem_cons_self
    have hpos : 0 < spec.length := List.length_pos_iff.2 hne
    have ih : ∀ t, parseSpecial specs t ≠ none ↔ HasPlace specs t := fun t =>
      parseSpecial_some fun spec' h => hspecs spec' (List.mem_cons_of_mem _ h)
    unfold parseSpecial HasPlace
    by_cases hlen : spec.length + 1 ≤ s.length
    · rw [advance_some (by omega)]
      dsimp only
      have hmem : memcmp (s.drop 2) spec = some (decide (spec <+: s.drop 2)) := by
        by_cases hpre : spec <+: s.drop 2
        · rw [memcmp_eq_true hpre, decide_eq_true hpre]
        · rw [decide_eq_false hpre]
          have hsome : memcmp (s.drop 2) spec = some (spec.isPrefixOf (s.drop 2 ++ [0])) :=
            if_pos (by rw [List.length_drop]; omega)
          cases hb : spec.isPrefixOf (s.drop 2 ++ [0]) with
          | false => rw [hsome, hb]
          | true => exact absurd (memcmp_true hzero (hsome.trans (congrArg some hb))) hpre
      rw [hmem]
      by_cases hpre : spec <+: s.drop 2
      · have hplace := hpre.length_le
        rw [List.length_drop] at hplace
        rw [decide_eq_true hpre, if_pos hpre, advance_some (by omega)]
        dsimp only
        split
        · rename_i hvalid
          exact iff_of_true (by rintro ⟨⟩) ⟨hlen, .inl hvalid⟩
        · rename_i hvalid
          rw [ih, or_iff_right hvalid, and_iff_right hlen]
      · rw [decide_eq_false hpre, if_neg hpre, and_iff_right hlen]
        exact ih s
    · refine iff_of_false (fun h => h ?_) fun h => hlen h.1
      by_cases htwo : 2 ≤ s.length
      · have hmem : memcmp (s.drop 2) spec = none := if_neg (by rw [List.length_drop]; omega)
        rw [advance_some htwo]
        dsimp only
        rw [hmem]
      · rw [show advance s 2 = none from if_neg htwo]

theorem peek_one {s : List Nat} (h : head s ≠ 0) : peek s 1 = some (s.getD 1 0) :=
  if_pos (show 1 ≤ s.length from length_pos_of_head h)

/-- What stands in front of the names: nothing but `1.#`. -/
theorem specials_text {s : List Nat} (hpoint : head (s.dropWhile isDigit) = 46)
    (hlen : (s.dropWhile isDigit).length + 1 = s.length) (hone : head s = 49) (hsharp : (s.dropWhile isDigit).getD 1 0 = 35) :
    ∃ r, s = 49 :: 46 :: 35 :: r ∧ s.dropWhile isDigit = 46 :: 35 :: r := by
  obtain ⟨c, t, rfl, -⟩ := head_ne_zero (hone.trans_ne (by decide))
  obtain rfl : c = 49 := hone
  have hdrop : (49 :: t).dropWhile isDigit = t := by
    have hsuffix : t.dropWhile isDigit <:+ t := List.dropWhile_suffix isDigit
    exact hsuffix.eq_of_length (Nat.succ_injective hlen)
  rw [hdrop] at hpoint hsharp
  obtain ⟨c, t, rfl, -⟩ := head_ne_zero (hpoint.trans_ne (by decide))
  obtain rfl : c = 46 := hpoint
  cases t with
  | nil => cases hsharp
  | cons d r =>
    obtain rfl : d = 35 := hsharp
    exact ⟨r, rfl, hdrop⟩

theorem parseDecimal_some {positive : Bool} {s : List Nat} :
    parseDecimal positive s ≠ none ↔ ∀ r, positive = true → s = 49 :: 46 :: 35 :: r → HasPlace specials (46 :: 35 :: r) := by
  have hspecials : ∀ spec ∈ specials, spec ≠ [] ∧ 0 ∉ spec := by decide
  constructor
  · rintro h r rfl rfl
    refine (parseSpecial_some hspecials).1 fun hnone => h ?_
    unfold parseDecimal
    dsimp only
    rw [show (49 :: 46 :: 35 :: r).dropWhile isDigit = 46 :: 35 :: r from rfl, if_neg (by simp),
      if_pos (show head (46 :: 35 :: r) = 46 from rfl), peek_one (show head (46 :: 35 :: r) ≠ 0 from (by decide : 46 ≠ 0))]
    exact (if_neg (show ¬ (46 :: 35 :: r).getD 1 0 = 46 from (by decide : 35 ≠ 46))).trans ((if_pos ⟨rfl, rfl, rfl, rfl⟩).trans hnone)
  · intro h hnone
    unfold parseDecimal at hnone
    dsimp only at hnone
    split at hnone
    · cases hnone
    · split at hnone
      · rename_i hpoint
        rw [peek_one (by rw [hpoint]; decide)] at hnone
        dsimp only at hnone
        split at hnone
        · cases hnone
        · split at hnone
          · rename_i hspecial
            obtain ⟨hpositive, hlen, hone, hsharp⟩ := hspecial
            obtain ⟨r, hs, hrest⟩ := specials_text hpoint hlen hone hsharp
            rw [hrest] at hnone
            exact (parseSpecial_some hspecials).2 (h r hpositive hs) hnone
          · split at hnone <;> cases hnone
      · cases hnone

/-- **Only the names behind `1.#` are compared with what is behind the line.** -/
theorem parseFloat_some {s : List Nat} (h1 : head s ≠ 45) (h2 : head s ≠ 43) :
    parseFloat s ≠ none ↔ ∀ r, s = 49 :: 46 :: 35 :: r → HasPlace specials (46 :: 35 :: r) := by
  have hstart : (if head s = 45 ∨ head s = 43 then s.tail else s) = s := if_neg (by omega)
  have hpositive : (head s != 45) = true := by simpa using h1
  have hdecimal : parseDecimal (head s != 45) s ≠ none ↔ ∀ r, s = 49 :: 46 :: 35 :: r → HasPlace specials (46 :: 35 :: r) := by
    rw [parseDecimal_some]
    exact forall_congr' fun r => by simp [hpositive]
  unfold parseFloat
  dsimp only
  rw [hstart]
  split
  · rename_i hzero
    rw [peek_one (by rw [hzero]; decide)]
    dsimp only
    split
    · refine iff_of_true ?_ fun r hr => absurd hzero (by rw [hr]; exact (show 49 ≠ 48 by decide))
      have hadvance : ∀ {f : List Nat → Option (List Nat)}, s.getD 1 0 ≠ 0 → (advance s 2).map f ≠ none := fun {f} hc0 h => by
        have hlen : 2 ≤ s.length := by
          refine Nat.lt_of_not_le fun hle => hc0 ?_
          simp [List.getD, List.getElem?_eq_none hle]
        rw [advance_some hlen] at h
        cases h
      unfold parseRadix
      split
      · rename_i hx
        exact hadvance (by omega)
      · split
        · rename_i hb
          exact hadvance (by omega)
        · rintro ⟨⟩
    · exact hdecimal
  · exact hdecimal

theorem parseNumber_none {s : List Nat} : parseNumber s = none ↔ parseFloat s = none := by
  unfold parseNumber
  constructor
  · intro h
    split at h
    · assumption
    · cases h
    · split at h
      · cases h
      · split at h
        · cases h
        · split at h <;> cases h
  · intro h
    rw [h]

end Tokenizer
end Compiler
end ObjectScript
