import ObjectScript.Json.Escape
/-!
# A string there and back

The parser reads what `jsonEscapeString` writes for a unit as `utf16_to_utf8` of the unit (`read_unit`).  The second half of
a surrogate pair puts the bytes of the character behind those of the first half, which it means to replace (`foldl_units`).
So a literal is read as the bytes it was written from exactly when all of its characters are in the basic plane
(`string_decodes_iff`).
-/
namespace ObjectScript
namespace Json

open JsonParser Utf8

/-! ## From UTF-16 to UTF-8 -/

theorem utf16ToUtf8_one (buf : Buffer) {c : Nat} (h : c < 0x80) : (utf16ToUtf8 buf c).bytes = buf.bytes ++ [c] := by
  unfold utf16ToUtf8
  rw [if_pos h]
  rfl

theorem utf16ToUtf8_two (buf : Buffer) {c : Nat} (h1 : 0x80 ≤ c) (h2 : c < 0x800) :
    (utf16ToUtf8 buf c).bytes = buf.bytes ++ [0xc0 + c / 0x40, 0x80 + c % 0x40] := by
  unfold utf16ToUtf8
  rw [if_neg (by omega), if_pos h2, Nat.shiftRight_eq_div_pow, and_3f, or_c0 (by omega), or_80 (by omega)]
  simp [Buffer.append]

theorem utf16ToUtf8_three (buf : Buffer) {c : Nat} (h1 : 0x800 ≤ c) (h2 : c < 0x10000) (h3 : c / 0x400 ≠ 55) :
    (utf16ToUtf8 buf c).bytes = buf.bytes ++ [0xe0 + c / 0x1000, 0x80 + c / 0x40 % 0x40, 0x80 + c % 0x40] := by
  have hmask : ¬ c &&& 0xfc00 = 0xdc00 := by
    rw [and_fc00]
    omega
  unfold utf16ToUtf8
  rw [if_neg (by omega), if_neg (by omega), if_neg fun h => hmask h.1, Nat.shiftRight_eq_div_pow, Nat.shiftRight_eq_div_pow,
    and_3f, and_3f, or_e0 (by omega), or_80 (by omega), or_80 (by omega)]
  simp [Buffer.append]

/-- The three bytes stay in front of what is appended, or what new memory holds in their place. -/
theorem lowerCount_bytes {buf : Buffer} {bs last : List Nat} (h : buf.bytes = bs ++ last) (hlast : last.length = 3) :
    ∃ kept, kept.length = 3 ∧ buf.lowerCount.bytes = bs ++ kept := by
  unfold Buffer.lowerCount
  split
  · have htake : buf.bytes.take (buf.bytes.length - 3) = bs := by
      rw [h, List.length_append, hlast, Nat.add_sub_cancel, List.take_left]
    exact ⟨[buf.fresh 0, buf.fresh 1, buf.fresh 2], rfl, by rw [htake]⟩
  · exact ⟨last, hlast, h⟩

/-- The second half of a pair puts the bytes of the character behind three others. -/
theorem utf16ToUtf8_low {buf : Buffer} {bs : List Nat} {h l : Nat} (hh : h < 0x400) (hl : l < 0x400)
    (hbuf : buf.bytes = bs ++ [0xed, 0xa0 + h / 0x40, 0x80 + h % 0x40]) :
    ∃ kept, kept.length = 3 ∧ (utf16ToUtf8 buf (0xdc00 + l)).bytes = bs ++ kept ++ encodeChar (0x10000 + h * 0x400 + l) := by
  have hlen : buf.bytes.length = bs.length + 3 := by simp [hbuf]
  have h3 : buf.bytes.getD (bs.length + 3 - 3) 0 = 0xed := by simp [hbuf]
  have h2 : buf.bytes.getD (bs.length + 3 - 2) 0 = 0xa0 + h / 0x40 := by simp [hbuf]
  have h1 : buf.bytes.getD (bs.length + 3 - 1) 0 = 0x80 + h % 0x40 := by simp [hbuf]
  have hutf32 : ((0xa0 + h / 0x40) &&& 0xf) <<< 16 ||| ((0x80 + h % 0x40) &&& 0x3f) <<< 10 ||| (0xdc00 + l) &&& 0x3ff =
      h * 0x400 + l := by
    rw [and_0f, and_3f, and_3ff, Nat.or_assoc, or_shift_10 (by omega), or_shift_16 (by omega)]
    omega
  have hpair : (0xdc00 + l) &&& 0xfc00 = 0xdc00 ∧ 3 ≤ bs.length + 3 ∧ 0xed = 0xed ∧ (0xa0 + h / 0x40) &&& 0xf0 = 0xa0 ∧
      (0x80 + h % 0x40) &&& 0xc0 = 0x80 := by
    rw [and_fc00, and_f0, and_c0]
    omega
  obtain ⟨kept, hkept, hlower⟩ := lowerCount_bytes hbuf rfl
  refine ⟨kept, hkept, ?_⟩
  unfold utf16ToUtf8
  dsimp only
  rw [if_neg (by omega), if_neg (by omega), hlen, h3, h2, h1, if_pos hpair, hutf32, Nat.shiftRight_eq_div_pow,
    Nat.shiftRight_eq_div_pow, Nat.shiftRight_eq_div_pow, and_3f, and_3f, and_3f, or_f0 (by omega), or_80 (by omega),
    or_80 (by omega), or_80 (by omega)]
  have hsum : 0x10000 + h * 0x400 + l = h * 0x400 + l + 0x10000 := by omega
  unfold encodeChar
  rw [hsum, if_neg (by omega), if_neg (by omega), if_neg (by omega)]
  simp [Buffer.append, hlower]

/-- What characters are read as: their bytes, and three more for each one outside of the basic plane. -/
structure DecodedAs (cs : List Char) (bs : List Nat) : Prop where
  length_eq : bs.length = (encode cs).length + 3 * cs.countP (0x10000 ≤ ·.toNat)
  same : (∀ c ∈ cs, c.toNat < 0x10000) → bs = encode cs

theorem DecodedAs.append {cs ds : List Char} {bs es : List Nat} (hbs : DecodedAs cs bs) (hes : DecodedAs ds es) :
    DecodedAs (cs ++ ds) (bs ++ es) where
  length_eq := by
    have hencode : encode (cs ++ ds) = encode cs ++ encode ds := List.flatMap_append
    rw [hencode, List.length_append, List.length_append, List.countP_append, hbs.length_eq, hes.length_eq]
    omega
  same h := by
    rw [hbs.same fun c hc => h c (List.mem_append_left _ hc), hes.same fun c hc => h c (List.mem_append_right _ hc)]
    exact List.flatMap_append.symm

/-- They are the bytes of the characters exactly when all are in the basic plane. -/
theorem DecodedAs.eq_iff {cs : List Char} {bs : List Nat} (h : DecodedAs cs bs) :
    bs = encode cs ↔ ∀ c ∈ cs, c.toNat < 0x10000 := by
  constructor
  · rintro rfl c hc
    have hcount : cs.countP (0x10000 ≤ ·.toNat) = 0 := by
      have hlen := h.length_eq
      omega
    have hnot := List.countP_eq_zero.1 hcount c hc
    rw [decide_eq_true_iff] at hnot
    omega
  · exact h.same

/-- **The units of a character become its bytes**, behind three others where there are two units. -/
theorem foldl_units (buf : Buffer) (c : Char) :
    ∃ bs, ((units c.toNat).foldl utf16ToUtf8 buf).bytes = buf.bytes ++ bs ∧ DecodedAs [c] bs := by
  have hc := valid c
  have hencode : encode [c] = encodeChar c.toNat := List.append_nil _
  by_cases hbig : c.toNat < 0x10000
  · refine ⟨encodeChar c.toNat, ?_, ⟨?_, fun _ => hencode.symm⟩⟩
    · unfold units
      rw [if_pos hbig, List.foldl_cons, List.foldl_nil]
      unfold encodeChar
      by_cases h1 : c.toNat < 0x80
      · rw [utf16ToUtf8_one buf h1, if_pos h1]
      by_cases h2 : c.toNat < 0x800
      · rw [utf16ToUtf8_two buf (by omega) h2, if_neg h1, if_pos h2]
      · rw [utf16ToUtf8_three buf (by omega) hbig (by omega), if_neg h1, if_neg h2, if_pos hbig]
    · rw [hencode, List.countP_singleton, if_neg (by simpa using hbig)]
      rfl
  · have hhigh : (utf16ToUtf8 buf (0xd800 + (c.toNat - 0x10000) / 0x400)).bytes = buf.bytes ++
        [0xed, 0xa0 + (c.toNat - 0x10000) / 0x400 / 0x40, 0x80 + (c.toNat - 0x10000) / 0x400 % 0x40] := by
      have h1 : 0xe0 + (0xd800 + (c.toNat - 0x10000) / 0x400) / 0x1000 = 0xed := by omega
      have h2 : 0x80 + (0xd800 + (c.toNat - 0x10000) / 0x400) / 0x40 % 0x40 =
          0xa0 + (c.toNat - 0x10000) / 0x400 / 0x40 := by omega
      have h3 : 0x80 + (0xd800 + (c.toNat - 0x10000) / 0x400) % 0x40 = 0x80 + (c.toNat - 0x10000) / 0x400 % 0x40 := by omega
      rw [utf16ToUtf8_three buf (by omega) (by omega) (by omega), h1, h2, h3]
    have hsum : 0x10000 + (c.toNat - 0x10000) / 0x400 * 0x400 + (c.toNat - 0x10000) % 0x400 = c.toNat := by omega
    obtain ⟨kept, hkept, hlow⟩ := utf16ToUtf8_low (l := (c.toNat - 0x10000) % 0x400) (by omega) (Nat.mod_lt _ (by decide)) hhigh
    rw [hsum] at hlow
    refine ⟨kept ++ encodeChar c.toNat, ?_, ⟨?_, fun h => (hbig (h c List.mem_cons_self)).elim⟩⟩
    · unfold units
      rw [if_neg hbig, List.foldl_cons, List.foldl_cons, List.foldl_nil, hlow, List.append_assoc]
    · rw [hencode, List.countP_singleton, if_pos (by simpa using hbig), List.length_append, hkept]
      omega

/-! ## Reading a literal -/

/-- Inside of a string at the bottom, with `buf` read so far. -/
structure Reading (core : Core) (p : JsonParser) (buf : Buffer) : Prop where
  state_eq : p.state = .st
  type_eq : p.type = .string
  buf_eq : p.buf = buf
  stacked : p.Stacks [.done] [.zero]
  core_eq : p.core = core

/-- What `c` leads to in the state `s`. -/
def Leads (s : State) (c : Nat) (s' : State) : Prop := (charClass c).map (nextState s) = some (.state s')

instance (s : State) (c : Nat) (s' : State) : Decidable (Leads s c s') := inferInstanceAs (Decidable (_ = _))

theorem step_leads {p : JsonParser} {c : Nat} {s : State} (h : Leads p.state c s) (assoc : Bool) :
    ∃ cls, p.step assoc c = some (.next { p.collect c cls s with state := s }) := by
  obtain ⟨cls, hcls, hnext⟩ := Option.map_eq_some_iff.1 h
  refine ⟨cls, ?_⟩
  unfold JsonParser.step
  rw [hcls]
  dsimp only
  rw [hnext]

theorem leads_low : ∀ c < 128, 32 ≤ c → c ≠ 34 → c ≠ 92 → Leads .st c .st := by
  decide +kernel

theorem leads_st {c : Nat} (h0 : 32 ≤ c) (h1 : c ≠ 34) (h2 : c ≠ 92) : Leads .st c .st := by
  by_cases hc : c < 128
  · exact leads_low c hc h0 h1 h2
  · have hetc : charClass c = some .etc := if_pos (by omega)
    unfold Leads
    rw [hetc]
    rfl

theorem collect_string {p : JsonParser} (hp : p.type = .string) (c : Nat) (cls : CharClass) (s : State) : p.collect c cls s =
    if s = .st ∧ p.state ≠ .u4 then
      if p.state ≠ .es then { p with buf := utf16ToUtf8 p.buf c } else { p with buf := unescape p.buf c }
    else if s = .u2 then { p with utf16 := dehexChar c <<< 12 }
    else if s = .u3 then { p with utf16 := p.utf16 + (dehexChar c <<< 8) }
    else if s = .u4 then { p with utf16 := p.utf16 + (dehexChar c <<< 4) }
    else if s = .st ∧ p.state = .u4 then
      { p with utf16 := p.utf16 + dehexChar c, buf := utf16ToUtf8 p.buf (p.utf16 + dehexChar c) }
    else p := by
  unfold JsonParser.collect
  rw [if_pos hp]

variable {core : Core} {p : JsonParser} {buf : Buffer}

theorem read_literal (hp : Reading core p buf) (assoc : Bool) {c : Nat} (h0 : 32 ≤ c) (h1 : c ≠ 34) (h2 : c ≠ 92) :
    ∃ q, (∀ rest, p.loop assoc (c :: rest) = q.loop assoc rest) ∧ Reading core q (utf16ToUtf8 buf c) := by
  obtain ⟨cls, hstep⟩ := step_leads (hp.state_eq ▸ leads_st h0 h1 h2) assoc
  refine ⟨_, fun _ => loop_cons hstep, ?_⟩
  rw [collect_string hp.type_eq, hp.state_eq, if_pos ⟨rfl, by decide⟩, if_pos (by decide), hp.buf_eq]
  exact ⟨rfl, hp.type_eq, rfl, hp.stacked, hp.core_eq⟩

theorem read_escape (hp : Reading core p buf) (assoc : Bool) {c : Nat} (hc : Leads .es c .st) :
    ∃ q, (∀ rest, p.loop assoc (92 :: c :: rest) = q.loop assoc rest) ∧ Reading core q (unescape buf c) := by
  obtain ⟨_, h1⟩ := step_leads (show Leads p.state 92 .es from hp.state_eq ▸ by decide) assoc
  rw [collect_string hp.type_eq] at h1
  obtain ⟨_, h2⟩ := step_leads (show Leads ({ p with state := .es } : JsonParser).state c .st from hc) assoc
  rw [collect_string (p := { p with state := .es }) hp.type_eq] at h2
  refine ⟨_, fun rest => (loop_cons h1).trans (loop_cons h2), rfl, hp.type_eq, ?_, hp.stacked, hp.core_eq⟩
  rw [← hp.buf_eq]
  rfl

def IsHex (c : Nat) : Prop := Leads .u1 c .u2 ∧ Leads .u2 c .u3 ∧ Leads .u3 c .u4 ∧ Leads .u4 c .st

instance (c : Nat) : Decidable (IsHex c) := inferInstanceAs (Decidable (_ ∧ _))

/-- A backslash, `u` and four digits. -/
theorem read_hex (hp : Reading core p buf) (assoc : Bool) {a b c d : Nat} (ha : IsHex a) (hb : IsHex b) (hc : IsHex c)
    (hd : IsHex d) : ∃ q, (∀ rest, p.loop assoc (92 :: 117 :: a :: b :: c :: d :: rest) = q.loop assoc rest) ∧
      Reading core q (utf16ToUtf8 buf
        ((dehexChar a <<< 12) + (dehexChar b <<< 8) + (dehexChar c <<< 4) + dehexChar d)) := by
  have htype := hp.type_eq
  obtain ⟨_, h1⟩ := step_leads (show Leads p.state 92 .es from hp.state_eq ▸ by decide) assoc
  obtain ⟨_, h2⟩ := step_leads
    (show Leads ({ p with state := .es } : JsonParser).state 117 .u1 from (by decide : Leads .es 117 .u1)) assoc
  obtain ⟨_, h3⟩ := step_leads (show Leads ({ p with state := .u1 } : JsonParser).state a .u2 from ha.1) assoc
  obtain ⟨_, h4⟩ := step_leads
    (show Leads ({ p with state := .u2, utf16 := dehexChar a <<< 12 } : JsonParser).state b .u3 from hb.2.1) assoc
  obtain ⟨_, h5⟩ := step_leads (show Leads ({ p with
    state := .u3, utf16 := (dehexChar a <<< 12) + (dehexChar b <<< 8) } : JsonParser).state c .u4 from hc.2.2.1) assoc
  obtain ⟨_, h6⟩ := step_leads (show Leads ({ p with
    state := .u4, utf16 := (dehexChar a <<< 12) + (dehexChar b <<< 8) + (dehexChar c <<< 4) } : JsonParser).state d .st
      from hd.2.2.2) assoc
  rw [collect_string htype] at h1
  rw [collect_string (p := { p with state := .es }) htype] at h2
  rw [collect_string (p := { p with state := .u1 }) htype] at h3
  rw [collect_string (p := { p with state := .u2, utf16 := dehexChar a <<< 12 }) htype] at h4
  rw [collect_string (p := { p with state := .u3, utf16 := (dehexChar a <<< 12) + (dehexChar b <<< 8) }) htype] at h5
  rw [collect_string (p := { p with
    state := .u4, utf16 := (dehexChar a <<< 12) + (dehexChar b <<< 8) + (dehexChar c <<< 4) }) htype] at h6
  refine ⟨_, fun rest => (loop_cons h1).trans ((loop_cons h2).trans ((loop_cons h3).trans ((loop_cons h4).trans
    ((loop_cons h5).trans (loop_cons h6))))), rfl, htype, ?_, hp.stacked, hp.core_eq⟩
  rw [← hp.buf_eq]
  rfl

theorem hexDigit_isHex : ∀ n < 16, IsHex (hexDigit n) ∧ dehexChar (hexDigit n) = n := by
  decide +kernel

/-- **What is written for a unit is read as the unit.** -/
theorem read_unit (hp : Reading core p buf) (assoc : Bool) (o : EscapeOptions) {us : Nat} (hus : us < 0x10000)
    (ho : o.unescapedUnicode = true → us < 0x80) :
    ∃ q, (∀ rest, p.loop assoc (escapeUnit o us ++ rest) = q.loop assoc rest) ∧ Reading core q (utf16ToUtf8 buf us) := by
  unfold escapeUnit
  split
  · -- a quote
    split
    · exact read_hex hp assoc (a := 48) (b := 48) (c := 50) (d := 50) (by decide) (by decide) (by decide) (by decide)
    · exact read_escape hp assoc (c := 34) (by decide)
  · exact read_escape hp assoc (c := 92) (by decide)
  · -- a slash
    split
    · exact read_literal hp assoc (by decide) (by decide) (by decide)
    · exact read_escape hp assoc (c := 47) (by decide)
  · exact read_escape hp assoc (c := 98) (by decide)
  · exact read_escape hp assoc (c := 102) (by decide)
  · exact read_escape hp assoc (c := 110) (by decide)
  · exact read_escape hp assoc (c := 114) (by decide)
  · exact read_escape hp assoc (c := 116) (by decide)
  · split
    · exact read_hex hp assoc (a := 48) (b := 48) (c := 51) (d := 67) (by decide) (by decide) (by decide) (by decide)
    · exact read_literal hp assoc (by decide) (by decide) (by decide)
  · split
    · exact read_hex hp assoc (a := 48) (b := 48) (c := 51) (d := 69) (by decide) (by decide) (by decide) (by decide)
    · exact read_literal hp assoc (by decide) (by decide) (by decide)
  · split
    · exact read_hex hp assoc (a := 48) (b := 48) (c := 50) (d := 54) (by decide) (by decide) (by decide) (by decide)
    · exact read_literal hp assoc (by decide) (by decide) (by decide)
  · split
    · exact read_hex hp assoc (a := 48) (b := 48) (c := 50) (d := 55) (by decide) (by decide) (by decide) (by decide)
    · exact read_literal hp assoc (by decide) (by decide) (by decide)
  · rename_i h34 h92 _ _ _ _ _ _ _ _ _ _
    split
    · -- the unit is below 128
      rename_i h
      have hlow : us < 0x80 := by
        rcases h.2 with h | h
        · exact ho h
        · rw [and_7f] at h
          omega
      rw [Nat.mod_eq_of_lt (by omega)]
      exact read_literal hp assoc h.1 h34 h92
    · obtain ⟨h1, h1'⟩ := hexDigit_isHex ((us &&& 0xf000) >>> 12)
        (by rw [and_f000, Nat.shiftRight_eq_div_pow]; omega)
      obtain ⟨h2, h2'⟩ := hexDigit_isHex ((us &&& 0xf00) >>> 8) (by rw [and_f00, Nat.shiftRight_eq_div_pow]; omega)
      obtain ⟨h3, h3'⟩ := hexDigit_isHex ((us &&& 0xf0) >>> 4) (by rw [and_f0, Nat.shiftRight_eq_div_pow]; omega)
      obtain ⟨h4, h4'⟩ := hexDigit_isHex (us &&& 0x0f) (by rw [and_0f]; omega)
      obtain ⟨q, hq, hr⟩ := read_hex hp assoc h1 h2 h3 h4
      have hsum : (((us &&& 0xf000) >>> 12) <<< 12) + (((us &&& 0xf00) >>> 8) <<< 8) + (((us &&& 0xf0) >>> 4) <<< 4) +
          (us &&& 0x0f) = us := by
        rw [and_f000, and_f00, and_f0, and_0f]
        simp only [Nat.shiftRight_eq_div_pow, Nat.shiftLeft_eq]
        omega
      rw [h1', h2', h3', h4', hsum] at hr
      exact ⟨q, hq, hr⟩

theorem read_units (assoc : Bool) (o : EscapeOptions) : ∀ (us : List Nat) {p : JsonParser} {buf : Buffer},
    Reading core p buf → (∀ u ∈ us, u < 0x10000) → (o.unescapedUnicode = true → ∀ u ∈ us, u < 0x80) →
    ∃ q, (∀ rest, p.loop assoc (us.flatMap (escapeUnit o) ++ rest) = q.loop assoc rest) ∧
      Reading core q (us.foldl utf16ToUtf8 buf)
  | [], p, _, hp, _, _ => ⟨p, fun _ => rfl, hp⟩
  | u :: us, _, _, hp, hus, ho => by
    obtain ⟨q, hq, hr⟩ := read_unit hp assoc o (hus u List.mem_cons_self) fun h => ho h u List.mem_cons_self
    obtain ⟨r, hr1, hr2⟩ := read_units assoc o us hr (fun v hv => hus v (List.mem_cons_of_mem _ hv))
      fun h v hv => ho h v (List.mem_cons_of_mem _ hv)
    refine ⟨r, fun rest => ?_, hr2⟩
    rw [List.flatMap_cons, List.append_assoc, hq, hr1]

theorem read_literals (assoc : Bool) : ∀ (us : List Nat) {p : JsonParser} {buf : Buffer}, Reading core p buf →
    (∀ u ∈ us, 0x80 ≤ u) →
    ∃ q, (∀ rest, p.loop assoc (us ++ rest) = q.loop assoc rest) ∧ Reading core q (us.foldl utf16ToUtf8 buf)
  | [], p, _, hp, _ => ⟨p, fun _ => rfl, hp⟩
  | u :: us, _, _, hp, hus => by
    have hu := hus u List.mem_cons_self
    obtain ⟨q, hq, hr⟩ := read_literal hp assoc (c := u) (by omega) (by omega) (by omega)
    obtain ⟨r, hr1, hr2⟩ := read_literals assoc us hr fun v hv => hus v (List.mem_cons_of_mem _ hv)
    refine ⟨r, fun rest => ?_, hr2⟩
    rw [List.cons_append, hq, hr1]

/-! ## What is written for a character -/

/-- Whether the character stands in the text as it is. -/
def EscapeOptions.plain (o : EscapeOptions) (c : Char) : Prop := o.unescapedUnicode = true ∧ 0x80 ≤ c.toNat

instance (o : EscapeOptions) (c : Char) : Decidable (o.plain c) := inferInstanceAs (Decidable (_ ∧ _))

/-- What is written for a character: its bytes, and the units that they are read as. -/
def escapeChar (o : EscapeOptions) (c : Char) : List Nat :=
  if o.plain c then encodeChar c.toNat else (units c.toNat).flatMap (escapeUnit o)

def escapedUnits (o : EscapeOptions) (c : Char) : List Nat :=
  if o.plain c then units c.toNat else (units c.toNat).flatMap (escapeUnit o)

theorem units_ne_nil (c : Nat) : units c ≠ [] := by
  unfold units
  split_ifs <;> exact List.cons_ne_nil _ _

theorem units_lt (c : Char) : ∀ u ∈ units c.toNat, u < 0x10000 := by
  have hc := valid c
  unfold units
  split_ifs <;> simp <;> omega

theorem units_ascii {o : EscapeOptions} {c : Char} (h : ¬ o.plain c) :
    o.unescapedUnicode = true → ∀ u ∈ units c.toNat, u < 0x80 := by
  intro ho
  have hlow : c.toNat < 0x80 := Nat.lt_of_not_le fun hle => h ⟨ho, hle⟩
  unfold units
  rw [if_pos (by omega)]
  simpa using hlow

theorem units_high {c : Char} (h : 0x80 ≤ c.toNat) : ∀ u ∈ units c.toNat, 0x80 ≤ u := by
  unfold units
  split_ifs <;> simp <;> omega

theorem encodeChar_high {c : Char} (h : 0x80 ≤ c.toNat) : ∀ b ∈ encodeChar c.toNat, 0x80 ≤ b ∧ b < 0x100 := by
  have hc := valid c
  unfold encodeChar
  rw [if_neg (by omega)]
  split_ifs <;> simp <;> omega

/-- **What is written for a character is read.** -/
theorem read_char (hp : Reading core p buf) (assoc : Bool) (o : EscapeOptions) (c : Char) :
    ∃ q buf' bs, (∀ rest, p.loop assoc (escapedUnits o c ++ rest) = q.loop assoc rest) ∧ Reading core q buf' ∧
      buf'.bytes = buf.bytes ++ bs ∧ DecodedAs [c] bs := by
  obtain ⟨bs, hbytes, hbs⟩ := foldl_units buf c
  unfold escapedUnits
  by_cases h : o.plain c
  · rw [if_pos h]
    obtain ⟨q, hq, hr⟩ := read_literals assoc _ hp (units_high h.2)
    exact ⟨q, _, bs, hq, hr, hbytes, hbs⟩
  · rw [if_neg h]
    obtain ⟨q, hq, hr⟩ := read_units assoc o _ hp (units_lt c) (units_ascii h)
    exact ⟨q, _, bs, hq, hr, hbytes, hbs⟩

theorem read_chars (assoc : Bool) (o : EscapeOptions) : ∀ (cs : List Char) {p : JsonParser} {buf : Buffer}, Reading core p buf →
    ∃ q buf' bs, (∀ rest, p.loop assoc (cs.flatMap (escapedUnits o) ++ rest) = q.loop assoc rest) ∧ Reading core q buf' ∧
      buf'.bytes = buf.bytes ++ bs ∧ DecodedAs cs bs
  | [], p, buf, hp => ⟨p, buf, [], fun _ => rfl, hp, (List.append_nil _).symm, rfl, fun _ => rfl⟩
  | c :: cs, _, buf, hp => by
    obtain ⟨q, buf₁, bs₁, hq, hr, hbytes₁, hbs₁⟩ := read_char hp assoc o c
    obtain ⟨r, buf₂, bs₂, hr1, hr2, hbytes₂, hbs₂⟩ := read_chars assoc o cs hr
    refine ⟨r, buf₂, bs₁ ++ bs₂, fun rest => ?_, hr2, ?_, hbs₁.append hbs₂⟩
    · rw [List.flatMap_cons, List.append_assoc, hq, hr1]
    · rw [hbytes₂, hbytes₁, List.append_assoc]

theorem hexDigit_lt {n : Nat} (h : n < 16) : hexDigit n < 0x80 := by
  unfold hexDigit
  split <;> omega

theorem escapeUnit_ascii (o : EscapeOptions) {us : Nat} (hus : us < 0x10000) (ho : o.unescapedUnicode = true → us < 0x80) :
    ∀ b ∈ escapeUnit o us, b < 0x80 := by
  unfold escapeUnit
  split
  case h_13 =>
    split
    · rename_i h
      have hlow : us < 0x80 := by
        rcases h.2 with h | h
        · exact ho h
        · rw [and_7f] at h
          omega
      simp
      omega
    · have h1 : (us &&& 0xf000) >>> 12 < 16 := by
        rw [and_f000, Nat.shiftRight_eq_div_pow]
        omega
      have h2 : (us &&& 0xf00) >>> 8 < 16 := by
        rw [and_f00, Nat.shiftRight_eq_div_pow]
        omega
      have h3 : (us &&& 0xf0) >>> 4 < 16 := by
        rw [and_f0, Nat.shiftRight_eq_div_pow]
        omega
      have h4 : us &&& 0x0f < 16 := by
        rw [and_0f]
        omega
      simp [hexDigit_lt h1, hexDigit_lt h2, hexDigit_lt h3, hexDigit_lt h4]
  all_goals first | decide | (split <;> decide)

theorem utf8ToUtf16_escapeChar (o : EscapeOptions) (c : Char) (rest : List Nat) :
    utf8ToUtf16 (escapeChar o c ++ rest) = (utf8ToUtf16 rest).map (escapedUnits o c ++ ·) := by
  unfold escapeChar escapedUnits
  by_cases h : o.plain c
  · rw [if_pos h, if_pos h]
    exact utf8ToUtf16_encodeChar c rest
  · rw [if_neg h, if_neg h]
    refine utf8ToUtf16_append_ascii rest fun b hb => ?_
    obtain ⟨u, hu, hb⟩ := List.mem_flatMap.1 hb
    exact escapeUnit_ascii o (units_lt c u hu) (fun ho => units_ascii h ho u hu) b hb

theorem utf8ToUtf16_chars (o : EscapeOptions) (rest : List Nat) : ∀ cs : List Char,
    utf8ToUtf16 (cs.flatMap (escapeChar o) ++ rest) = (utf8ToUtf16 rest).map (cs.flatMap (escapedUnits o) ++ ·)
  | [] => by simp
  | c :: cs => by
    rw [List.flatMap_cons, List.append_assoc, utf8ToUtf16_escapeChar, utf8ToUtf16_chars o rest cs]
    simp [Function.comp_def]

theorem utf8ToUtf16_nil : utf8ToUtf16 [] = some [] := by
  rw [utf8ToUtf16, if_pos rfl]

theorem utf8ToUtf16_encode : ∀ cs : List Char, utf8ToUtf16 (encode cs) = some (cs.flatMap fun c => units c.toNat)
  | [] => utf8ToUtf16_nil
  | c :: cs => by
    have hsplit : encode (c :: cs) = encodeChar c.toNat ++ encode cs := rfl
    rw [hsplit, utf8ToUtf16_encodeChar, utf8ToUtf16_encode cs]
    rfl

theorem escapeUnit_charUnit {o : EscapeOptions} (ho : o.unescapedUnicode = true) {b : Nat} (hb : 0x80 ≤ b ∧ b < 0x100) :
    escapeUnit o (charUnit b) = [b] := by
  have hunit : charUnit b = 0xff00 + b := if_neg (by omega)
  rw [hunit]
  generalize hus : 0xff00 + b = us
  unfold escapeUnit
  split
  case h_13 =>
    rw [if_pos ⟨by omega, .inl ho⟩]
    simp
    omega
  all_goals omega

theorem flatMap_singleton_of {bs : List Nat} {f : Nat → List Nat} (h : ∀ b ∈ bs, f b = [b]) : bs.flatMap f = bs := by
  induction bs with
  | nil => rfl
  | cons b bs ih =>
    rw [List.flatMap_cons, h b List.mem_cons_self, ih fun d hd => h d (List.mem_cons_of_mem _ hd)]
    rfl

theorem escaped_bytes {o : EscapeOptions} (ho : o.unescapedUnicode = true) (c : Char) :
    (encodeChar c.toNat).flatMap (fun b => escapeUnit o (charUnit b)) = escapeChar o c := by
  unfold escapeChar
  by_cases h : 0x80 ≤ c.toNat
  · rw [if_pos ⟨ho, h⟩]
    exact flatMap_singleton_of fun b hb => escapeUnit_charUnit ho (encodeChar_high h b hb)
  · have hlow : c.toNat < 0x80 := Nat.lt_of_not_le h
    rw [if_neg fun hplain => h hplain.2]
    unfold encodeChar units
    rw [if_pos hlow, if_pos (by omega)]
    have hunit : charUnit c.toNat = c.toNat := if_pos hlow
    simp [hunit]

/-- **A string is written character by character.** -/
theorem jsonEscapeString_encode (numericText : List Nat → Option (List Nat)) {o : EscapeOptions}
    (hcheck : o.numericCheck = false) (cs : List Char) : jsonEscapeString numericText o (encode cs) = 34 :: cs.flatMap (escapeChar o) ++ [34] := by
  cases cs with
  | nil => rfl
  | cons c cs =>
    have hne : encode (c :: cs) ≠ [] := fun h => encodeChar_ne_nil _ (List.append_eq_nil_iff.1 h).1
    unfold jsonEscapeString
    rw [if_neg hne, hcheck, utf8ToUtf16_encode]
    have hunits : ((c :: cs).flatMap fun c => units c.toNat) ≠ [] := fun h => units_ne_nil _ (List.append_eq_nil_iff.1 h).1
    obtain ⟨u, us, hus⟩ := List.exists_cons_of_ne_nil hunits
    have hbody : (if o.unescapedUnicode then (encode (c :: cs)).map charUnit else u :: us).flatMap (escapeUnit o) =
        (c :: cs).flatMap (escapeChar o) := by
      cases ho : o.unescapedUnicode with
      | true =>
        rw [if_pos rfl, List.flatMap_map]
        unfold encode
        rw [List.flatMap_assoc]
        exact congrArg (fun f => List.flatMap f (c :: cs)) (funext fun c => escaped_bytes ho c)
      | false =>
        rw [if_neg (by decide), ← hus, List.flatMap_assoc]
        refine congrArg (fun f => List.flatMap f (c :: cs)) (funext fun c => ?_)
        have hplain : ¬ o.plain c := fun h => by
          have := h.1
          rw [ho] at this
          cases this
        unfold escapeChar
        rw [if_neg hplain]
    rw [hus]
    simp only [Bool.false_eq_true, if_false]
    rw [hbody]

/-! ## The literal -/

theorem read_open {depth : Nat} (hdepth : 0 < depth) (core : Core) (assoc : Bool) :
    ∃ p q, newJSONparser core depth = some p ∧ p.step assoc 34 = some (.next q) ∧ Reading core q p.buf ∧ p.buf.bytes = [] := by
  obtain ⟨p, hp, hs, -, hcore, -, htype, hbuf⟩ := newJSONparser_sim core hdepth
  have hstate : p.state = .go := hs.state
  obtain ⟨cls, hcls, hnext⟩ := Option.map_eq_some_iff.1 (show Leads .go 34 .st by decide)
  have hquote : cls = .quote := by
    cases hcls
    rfl
  subst hquote
  have hcollect : p.collect 34 .quote .st = { p with type := .string } := by
    unfold JsonParser.collect
    rw [htype]
    rfl
  refine ⟨p, { p with type := .string, state := .st }, hp, ?_, ⟨rfl, rfl, rfl, hs.stacked, hcore⟩, hbuf⟩
  unfold JsonParser.step
  rw [hstate, hcls]
  dsimp only
  rw [hnext]
  dsimp only
  rw [hcollect]

theorem read_close (hp : Reading core p buf) (assoc : Bool) :
    p.step assoc 34 = some (.next { p with
      z := .string buf.bytes, core := core.retainValueById (.string buf.bytes), state := .ok }) := by
  have hquote : charClass 34 = some .quote := rfl
  have hnext : nextState .st .quote = .action .quote := rfl
  unfold JsonParser.step
  rw [hquote, hp.state_eq]
  dsimp only
  rw [hnext]
  show p.quote = _
  unfold JsonParser.quote
  rw [hp.stacked.topMode_eq]
  dsimp only
  rw [if_pos hp.type_eq, hp.buf_eq, hp.core_eq]

/-- **What is written for a string is read**, with any options but the check for numbers. -/
theorem string_read (numericText : List Nat → Option (List Nat)) {o : EscapeOptions} (hcheck : o.numericCheck = false)
    (core : Core) {depth : Nat} (hdepth : 0 < depth) (assoc : Bool) (cs : List Char) :
    ∃ bs core', jsonDecodeText core depth assoc (jsonEscapeString numericText o (encode cs)) =
      some (some (.string bs), core') ∧ DecodedAs cs bs := by
  have htext : utf8ToUtf16 (34 :: cs.flatMap (escapeChar o) ++ [34]) = some (34 :: (cs.flatMap (escapedUnits o) ++ [34])) := by
    rw [List.cons_append, utf8ToUtf16_ascii (by decide), utf8ToUtf16_chars, utf8ToUtf16_ascii (by decide), utf8ToUtf16_nil]
    rfl
  obtain ⟨p, q, hp, hopen, hq, hbuf⟩ := read_open hdepth core assoc
  obtain ⟨r, buf, bs, hr, hreading, hbytes, hbs⟩ := read_chars assoc o cs hq
  rw [hbuf, List.nil_append] at hbytes
  have hloop := (loop_cons hopen).trans ((hr [34]).trans (loop_cons (read_close hreading assoc)))
  rw [hbytes] at hloop
  rw [jsonEscapeString_encode numericText hcheck]
  unfold jsonDecodeText
  rw [htext]
  dsimp only
  unfold jsonDecode
  rw [if_neg (Nat.ne_of_gt hdepth), hp]
  dsimp only
  refine ⟨bs, _, decode_ok hloop ?_ rfl, hbs⟩
  exact hreading.stacked

/-- **A string is read back as the bytes it was written from exactly when its characters are in the basic plane.** -/
theorem string_decodes_iff (numericText : List Nat → Option (List Nat)) {o : EscapeOptions} (hcheck : o.numericCheck = false)
    (core : Core) {depth : Nat} (hdepth : 0 < depth) (assoc : Bool) (cs : List Char) :
    (∃ core', jsonDecodeText core depth assoc (jsonEscapeString numericText o (encode cs)) =
      some (some (.string (encode cs)), core')) ↔ ∀ c ∈ cs, c.toNat < 0x10000 := by
  obtain ⟨bs, core', hread, hbs⟩ := string_read numericText hcheck core hdepth assoc cs
  rw [← hbs.eq_iff, hread]
  constructor
  · rintro ⟨_, h⟩
    cases h
    rfl
  · rintro rfl
    exact ⟨core', rfl⟩

/-- The options of `toJson`, on a text with a letter of two bytes and one of three. -/
theorem string_decodes_toJson : ∃ core',
    jsonDecodeText .new 512 false (jsonEscapeString (fun _ => none) .strToJson (encode [Char.ofNat 0xe9, Char.ofNat 0x20ac])) =
      some (some (.string (encode [Char.ofNat 0xe9, Char.ofNat 0x20ac])), core') := by
  refine (string_decodes_iff (fun _ => none) rfl .new (by decide) false [Char.ofNat 0xe9, Char.ofNat 0x20ac]).2 fun c hc => ?_
  rcases List.mem_pair.1 hc with rfl | rfl
  · decide
  · decide

/-- A letter outside of the basic plane has four bytes and is read as seven. -/
theorem clef_grows : ¬ ∃ core',
    jsonDecodeText .new 512 false (jsonEscapeString (fun _ => none) .strToJson (encode [Char.ofNat 0x1d11e])) =
      some (some (.string (encode [Char.ofNat 0x1d11e])), core') := by
  obtain ⟨bs, core', hread, hbs⟩ := string_read (fun _ => none) (o := .strToJson) rfl .new (show 0 < 512 by decide) false
    [Char.ofNat 0x1d11e]
  have hlen : bs.length = 7 := hbs.length_eq
  rintro ⟨core'', h⟩
  rw [hread] at h
  cases h
  exact absurd hlen (by decide)

end Json
end ObjectScript
