import ObjectScript.Strings.IntegerText
import ObjectScript.Strings.Sprintf
/-!
# The float conversions of sprintf

`flt` builds a format for `snprintf` and copies as many characters from a buffer of 128 as `snprintf` says it needed.  What
the C library makes of a format is read off the format again (`cText`): a text that depends on the number, the precision and
three of the flags, padded to the width.  The conversion `n`, which has a format of its own without width and precision, is
left out.
-/
namespace ObjectScript
namespace Strings

open Compiler.Tokenizer (head isDigit decDigit simpleLoop parseSimpleDec wrapInt)

/-- The C library: the text of a number without a width, and how it is padded to one. -/
structure CFormat (F : Type) where
  body : (plus space special : Bool) → (precision : Option Nat) → (conversion : Nat) → F → List Nat
  pad : (left zeropad : Bool) → (width : Nat) → List Nat → List Nat
  length_pad : ∀ left zeropad width text, (pad left zeropad width text).length = max width text.length

variable {F : Type}

/-- What `snprintf` produces for a format of one conversion. -/
def cText (C : CFormat F) (format : List Nat) (num : F) : List Nat :=
  let d := directive format.tail ([] : List (Arg F))
  C.pad d.flags.left d.flags.zeropad d.fieldWidth.toNat
    (C.body d.flags.plus d.flags.space d.flags.special (if d.flags.precision then some d.precision.toNat else none)
      (head d.fmt) num)

/-- What `OS_SNPRINTF` leaves in a buffer of `size` characters, and what it returns. -/
def snprintf (size : Nat) (text : List Nat) : List Nat × Nat := (text.take (size - 1) ++ [0], text.length)

/-- `%d` of what is not negative. -/
def decimal (n : Nat) : List Nat := (digitsOfNat 10 n).map (digitChar false)

def flagChars (flags : Flags) : List Nat :=
  (if flags.left then [45] else []) ++ (if flags.plus then [43] else []) ++ (if flags.space then [32] else []) ++
    (if flags.special then [35] else []) ++ (if flags.zeropad then [48] else [])

def widthChars (size : Int) : List Nat := if 0 ≤ size then decimal size.toNat else []

def precisionChars (precision : Int) (flags : Flags) : List Nat :=
  if precision < 0 then [46, 48] else if flags.precision then 46 :: decimal precision.toNat else []

/-- `d`, `i` and `n` stand for `G`. -/
def floatType (fmt : Nat) : Nat := if fmt = 100 ∨ fmt = 105 ∨ fmt = 110 then 71 else fmt

def formatText (size precision : Int) (fmt : Nat) (flags : Flags) : List Nat :=
  37 :: flagChars flags ++ widthChars size ++ precisionChars precision flags ++ [floatType fmt]

/-- `::floor(num / p + 0.5) * p` -/
def roundDouble (D : DoubleOps F) (num : F) (precision : Int) : F :=
  let p := powerOfTen D precision
  D.mul (D.floor (D.add (D.div num p) D.half)) p

/-- There is no result where `format` or `tmp`, of 128 characters each, is left. -/
def flt (C : CFormat F) (D : DoubleOps F) (num : F) (size precision : Int) (fmt : Nat) (flags : Flags) : Option (List Nat) :=
  let format := formatText size precision fmt flags
  let num := if precision < 0 then roundDouble D num precision else num
  if 128 < format.length + 1 then none
  else
    let (tmp, i) := snprintf 128 (cText C format num)
    if 128 < i then none else some (tmp.take i)

def floatConversions : List Nat := [69, 71, 101, 102, 103]

def nextDouble (zero : F) : List (Arg F) → F
  | [] => zero
  | arg :: _ => arg.toDouble

/-- What a directive of a float appends for its next argument. -/
def floatText (C : CFormat F) (D : DoubleOps F) (d : Directive F) : Option (List Nat) :=
  flt C D (nextDouble (D.ofInt 0) d.args) d.fieldWidth d.precision (head d.fmt) d.flags

/-! ## The format is read as it was meant -/

theorem value_append_le (base : Nat) (hbase : 1 ≤ base) (pre : List Nat) : ∀ ds : List Nat,
    value base pre ≤ value base (pre ++ ds) := by
  intro ds
  induction ds using List.reverseRecOn with
  | nil => rw [List.append_nil]
  | append_singleton ds d ih =>
    rw [← List.append_assoc, value_concat]
    exact Nat.le_trans ih (Nat.le_trans (Nat.le_mul_of_pos_right _ hbase) (Nat.le_add_right _ _))

theorem decDigit_digitChar {d : Nat} (h : d < 10) : decDigit (digitChar false d) = some d := by
  interval_cases d <;> rfl

/-- Digits below the range of an `int` are read as their value. -/
theorem simpleLoop_decimal {rest : List Nat} (hrest : decDigit (head rest) = none) : ∀ ds pre : List Nat, (∀ d ∈ ds, d < 10) →
    value 10 (pre ++ ds) < 2 ^ 31 →
    simpleLoop decDigit 10 wrapInt (value 10 pre : Nat) (ds.map (digitChar false) ++ rest) =
      some (((value 10 (pre ++ ds) : Nat) : Int), rest)
  | [], pre, _, _ => by
    rw [List.map_nil, List.nil_append, List.append_nil]
    cases rest with
    | nil => rfl
    | cons c rest =>
      have hc : decDigit c = none := hrest
      rw [simpleLoop, hc]
  | d :: ds, pre, hds, hlt => by
    have hnext : value 10 (pre ++ [d]) = value 10 pre * 10 + d := value_concat 10 pre d
    have hassoc : pre ++ d :: ds = (pre ++ [d]) ++ ds := by rw [List.append_assoc, List.singleton_append]
    rw [hassoc] at hlt ⊢
    have hle := value_append_le 10 (by decide) (pre ++ [d]) ds
    have hwrap : wrapInt ((value 10 pre : Nat) * 10 + (d : Int)) = ((value 10 (pre ++ [d]) : Nat) : Int) := by
      unfold wrapInt
      omega
    rw [List.map_cons, List.cons_append, simpleLoop, decDigit_digitChar (hds d List.mem_cons_self)]
    dsimp only
    rw [hwrap, if_neg (by omega)]
    exact simpleLoop_decimal hrest ds (pre ++ [d]) (fun e he => hds e (List.mem_cons_of_mem _ he)) hlt

theorem digitsOfNat_ne_nil (base n : Nat) : digitsOfNat base n ≠ [] := by
  unfold digitsOfNat
  split
  · exact List.cons_ne_nil _ _
  · rename_i h
    rw [ne_eq, List.reverse_eq_nil_iff, Nat.digits_eq_nil_iff_eq_zero]
    exact h

theorem parseInt32_decimal {n : Nat} (h : n < 2 ^ 31) {rest : List Nat} (hrest : decDigit (head rest) = none) :
    parseInt32 (decimal n ++ rest) = ((n : Int), rest) := by
  have hvalue : value 10 ([] ++ digitsOfNat 10 n) = n := ofDigits_digitsOfNat 10 n
  have hloop := simpleLoop_decimal hrest (digitsOfNat 10 n) [] (fun d hd => lt_of_mem_digitsOfNat (by decide) hd)
    (by rw [hvalue]; exact h)
  have hzero : ((value 10 [] : Nat) : Int) = 0 := rfl
  rw [hvalue, hzero] at hloop
  have hpos := List.length_pos_iff.2 (digitsOfNat_ne_nil 10 n)
  unfold parseInt32 parseSimpleDec Compiler.Tokenizer.parseSimple decimal
  rw [hloop]
  dsimp only
  rw [if_pos (by rw [List.length_append, List.length_map]; omega), Option.getD_some]

/-- The flags are read one by one, and what is behind them after that. -/
theorem parseFlags_flagChars (flags : Flags) (rest : List Nat) : parseFlags Flags.none (flagChars flags ++ rest) =
    parseFlags { flags with large := false, precision := false } rest := by
  obtain ⟨z, p, s, l, h, _, _⟩ := flags
  cases z <;> cases p <;> cases s <;> cases l <;> cases h <;> rfl

def isFlag (c : Nat) : Bool := [45, 43, 32, 35, 48].contains c

theorem parseFlags_stop (flags : Flags) {c : Nat} (rest : List Nat) (h : isFlag c = false) :
    parseFlags flags (c :: rest) = (flags, c :: rest) := by
  unfold isFlag at h
  simp only [List.contains_cons, List.contains_nil, Bool.or_false, Bool.or_eq_false_iff, beq_eq_false_iff_ne] at h
  rw [parseFlags, if_neg h.1, if_neg h.2.1, if_neg h.2.2.1, if_neg h.2.2.2.1, if_neg h.2.2.2.2]

/-- A positive number begins with a digit that is no flag. -/
theorem decimal_head {n : Nat} (h : n ≠ 0) : ∃ c rest, decimal n = c :: rest ∧ isDigit c = true ∧ isFlag c = false := by
  obtain ⟨d, ds, hds⟩ := List.exists_cons_of_ne_nil (digitsOfNat_ne_nil 10 n)
  have hd : d < 10 := lt_of_mem_digitsOfNat (by decide) (hds ▸ List.mem_cons_self)
  have hne : d ≠ 0 := by
    have hlast := Nat.getLast_digit_ne_zero 10 h
    have hhead : (digitsOfNat 10 n).head (digitsOfNat_ne_nil 10 n) = d := by simp only [hds, List.head_cons]
    have hrev : digitsOfNat 10 n = (Nat.digits 10 n).reverse := if_neg h
    simp only [hrev, List.head_reverse] at hhead
    rw [← hhead]
    exact hlast
  refine ⟨digitChar false d, ds.map (digitChar false), by rw [decimal, hds, List.map_cons], ?_⟩
  interval_cases d
  · exact absurd rfl hne
  all_goals exact ⟨rfl, rfl⟩

/-- What stands behind the width: a point or the conversion, neither a flag, nor a digit, nor a star. -/
structure Stops (rest : List Nat) : Prop where
  flag : ∀ flags, parseFlags flags rest = (flags, rest)
  digit : decDigit (head rest) = none
  isDigit : isDigit (head rest) = false
  star : head rest ≠ 42

theorem stops_cons {c : Nat} (rest : List Nat) (h : c ∈ 46 :: floatConversions) : Stops (c :: rest) := by
  have hc : isFlag c = false ∧ decDigit c = none ∧ Compiler.Tokenizer.isDigit c = false ∧ c ≠ 42 := by
    revert h
    revert c
    decide
  exact ⟨fun flags => parseFlags_stop flags rest hc.1, hc.2.1, hc.2.2.1, hc.2.2.2⟩

theorem stops_precision (precision : Int) (flags : Flags) {c : Nat} (h : c ∈ floatConversions) :
    Stops (precisionChars precision flags ++ [c]) := by
  unfold precisionChars
  split
  · exact stops_cons _ List.mem_cons_self
  · split
    · exact stops_cons _ List.mem_cons_self
    · exact stops_cons _ (List.mem_cons_of_mem _ h)

/-- The width is read, except that a zero is a flag. -/
theorem parseWidth_chars {size : Int} (hsize : size < 2 ^ 31) (flags : Flags) {rest : List Nat} (h : Stops rest) :
    ∃ zeropad fieldWidth, fieldWidth.toNat = size.toNat ∧
      parseWidth (parseFlags flags (widthChars size ++ rest)).1 (parseFlags flags (widthChars size ++ rest)).2 [] =
        (⟨{ flags with zeropad := zeropad }, fieldWidth, 0, rest, []⟩ : Directive F) := by
  have hnone : ∀ fl : Flags, parseWidth fl rest [] = (⟨fl, -1, 0, rest, []⟩ : Directive F) := by
    intro fl
    unfold parseWidth
    rw [if_neg (by rw [h.isDigit]; exact Bool.false_ne_true), if_neg h.star]
  unfold widthChars
  split
  · rename_i hpos
    by_cases hzero : size = 0
    · refine ⟨true, -1, by rw [hzero]; rfl, ?_⟩
      have hchars : decimal size.toNat ++ rest = 48 :: rest := by rw [hzero]; rfl
      have hflag : parseFlags flags (48 :: rest) = ({ flags with zeropad := true }, rest) := h.flag _
      rw [hchars, hflag]
      exact hnone _
    · obtain ⟨c, chars, hchars, hdigit, hflag⟩ := decimal_head (show size.toNat ≠ 0 by omega)
      refine ⟨flags.zeropad, size, rfl, ?_⟩
      have hread := parseInt32_decimal (show size.toNat < 2 ^ 31 by omega) h.digit
      rw [hchars, List.cons_append] at hread ⊢
      rw [parseFlags_stop _ _ hflag]
      unfold parseWidth
      dsimp only
      rw [if_pos (show isDigit (head (c :: (chars ++ rest))) = true from hdigit), hread, Int.toNat_of_nonneg hpos]
  · rename_i hneg
    refine ⟨flags.zeropad, -1, by omega, ?_⟩
    rw [List.nil_append, h.flag]
    exact hnone _

/-- The precision is read: none, or zero in the place of a negative one. -/
theorem parsePrecision_chars {precision : Int} (hprecision : precision < 2 ^ 31) (flags fl : Flags) (hfl : fl.precision = false)
    (fieldWidth : Int) {c : Nat} (h : c ∈ floatConversions) :
    parsePrecision (⟨fl, fieldWidth, 0, precisionChars precision flags ++ [c], []⟩ : Directive F) =
      ⟨{ fl with precision := decide (precision < 0) || flags.precision }, fieldWidth,
        if precision < 0 then 0 else if flags.precision then precision else 0, [c], []⟩ := by
  have hstop := stops_cons [] (List.mem_cons_of_mem 46 h)
  have hpoint : c ≠ 46 := fun heq => absurd (heq ▸ h) (by decide)
  have hread : ∀ n : Nat, n < 2 ^ 31 → isDigit (head (decimal n ++ [c])) = true ∧
      parseInt32 (decimal n ++ [c]) = ((n : Int), [c]) := by
    intro n hn
    refine ⟨?_, parseInt32_decimal hn hstop.digit⟩
    by_cases hzero : n = 0
    · rw [hzero]
      rfl
    · obtain ⟨d, rest, hd, hdigit, -⟩ := decimal_head hzero
      rw [hd]
      exact hdigit
  unfold precisionChars parsePrecision
  split
  · rename_i hneg
    obtain ⟨hdigit, hzero⟩ := hread 0 (by decide)
    have hchars : [46, 48] ++ [c] = 46 :: (decimal 0 ++ [c]) := rfl
    rw [hchars]
    dsimp only [List.tail_cons]
    rw [if_pos (show head (46 :: (decimal 0 ++ [c])) = 46 from rfl), if_pos hdigit, hzero]
    simp [hneg]
  · rename_i hpos
    split
    · rename_i hflag
      obtain ⟨hdigit, hval⟩ := hread precision.toNat (by omega)
      rw [List.cons_append]
      dsimp only [List.tail_cons]
      rw [if_pos (show head (46 :: (decimal precision.toNat ++ [c])) = 46 from rfl), if_pos hdigit, hval,
        Int.toNat_of_nonneg (by omega)]
      simp [hflag]
    · rename_i hflag
      rw [List.nil_append, if_neg (show head [c] ≠ 46 from hpoint)]
      obtain ⟨_, _, _, _, _, _, _⟩ := fl
      simp_all

/-- **The format means what it was made of.** -/
theorem cText_format (C : CFormat F) (num : F) {size precision : Int} {fmt : Nat} (flags : Flags) (hsize : size < 2 ^ 31)
    (hprecision : precision < 2 ^ 31) (hfmt : floatType fmt ∈ floatConversions) :
    ∃ left zeropad, cText C (formatText size precision fmt flags) num =
      C.pad left zeropad size.toNat (C.body flags.plus flags.space flags.special
        (if precision < 0 then some 0 else if flags.precision then some precision.toNat else none) (floatType fmt) num) := by
  have hstops := stops_precision precision flags hfmt
  obtain ⟨zeropad, fieldWidth, hwidth, hread⟩ := parseWidth_chars (F := F) hsize
    { flags with large := false, precision := false } hstops
  have hprec := parsePrecision_chars (F := F) hprecision flags
    { { flags with large := false, precision := false } with zeropad := zeropad } rfl fieldWidth hfmt
  have htail : (formatText size precision fmt flags).tail =
      flagChars flags ++ (widthChars size ++ (precisionChars precision flags ++ [floatType fmt])) := by
    unfold formatText
    simp only [List.cons_append, List.tail_cons, List.append_assoc]
  refine ⟨flags.left, zeropad, ?_⟩
  unfold cText directive
  rw [htail, parseFlags_flagChars]
  dsimp only
  rw [hread, hprec]
  dsimp only
  rw [hwidth]
  congr 2
  by_cases hneg : precision < 0
  · simp [hneg]
  · cases flags.precision <;> simp [hneg]

/-! ## The two buffers -/

theorem length_decimal {n : Nat} (h : n < 2 ^ 31) : (decimal n).length ≤ 10 := by
  unfold decimal digitsOfNat
  rw [List.length_map]
  split
  · decide
  · rw [List.length_reverse, Nat.digits_length_le_iff (by decide)]
    omega

/-- `format` is long enough. -/
theorem length_formatText {size precision : Int} (fmt : Nat) (flags : Flags) (hsize : size < 2 ^ 31)
    (hprecision : precision < 2 ^ 31) : (formatText size precision fmt flags).length ≤ 28 := by
  have hflags : (flagChars flags).length ≤ 5 := by
    have hone : ∀ (b : Bool) (c : Nat), (if b then [c] else []).length ≤ 1 := fun b c => by cases b <;> simp
    have h1 := hone flags.left 45
    have h2 := hone flags.plus 43
    have h3 := hone flags.space 32
    have h4 := hone flags.special 35
    have h5 := hone flags.zeropad 48
    unfold flagChars
    simp only [List.length_append]
    omega
  have hwidth : (widthChars size).length ≤ 10 := by
    unfold widthChars
    split
    · exact length_decimal (by omega)
    · exact Nat.zero_le _
  have hprec : (precisionChars precision flags).length ≤ 11 := by
    unfold precisionChars
    split
    · decide
    · split
      · exact Nat.succ_le_succ (length_decimal (by omega))
      · exact Nat.zero_le _
  unfold formatText
  simp only [List.cons_append, List.length_cons, List.length_append, List.length_nil]
  omega

/-- **`flt` copies what `tmp` holds exactly when `snprintf` needs no more than 128 characters, and the whole text when it
needs fewer.** -/
theorem flt_eq (C : CFormat F) (D : DoubleOps F) (num : F) {size precision : Int} (fmt : Nat) (flags : Flags)
    (hsize : size < 2 ^ 31) (hprecision : precision < 2 ^ 31) :
    let text := cText C (formatText size precision fmt flags) (if precision < 0 then roundDouble D num precision else num)
    ((flt C D num size precision fmt flags).isSome ↔ text.length ≤ 128) ∧
      (text.length < 128 → flt C D num size precision fmt flags = some text) := by
  have hformat := length_formatText fmt flags hsize hprecision
  intro text
  have hflt : flt C D num size precision fmt flags =
      if 128 < text.length then none else some ((text.take 127 ++ [0]).take text.length) := by
    unfold flt
    rw [if_neg (by omega)]
    rfl
  rw [hflt]
  constructor
  · split
    · exact iff_of_false Bool.false_ne_true (by omega)
    · exact iff_of_true rfl (by omega)
  · intro hlt
    rw [if_neg (by omega), List.take_of_length_le (show text.length ≤ 127 by omega), List.take_left]

theorem directive_precision (fmt : List Nat) {args : List (Arg F)} (hargs : ∀ a ∈ args, a.InRange) :
    (directive fmt args).precision < 2 ^ 31 := by
  have hwidth : ∀ flags fmt, (parseWidth flags fmt args).precision = 0 := by
    intro flags fmt
    unfold parseWidth
    split
    · rfl
    · split
      · split <;> rfl
      · rfl
  have hprecision : ∀ d : Directive F, d.precision = 0 → (∀ a ∈ d.args, a.InRange) → (parsePrecision d).precision < 2 ^ 31 := by
    intro d hzero hd
    unfold parsePrecision
    dsimp only
    split
    · split
      · exact (parseInt32_range _).2
      · split
        · have h := parseInt32_range d.fmt.tail.tail
          dsimp only
          omega
        · split
          · cases hargs' : d.args with
            | nil => exact (by decide : (0 : Int) < 2 ^ 31)
            | cons a args => exact (hd a (hargs' ▸ List.mem_cons_self)).toInt.2
          · dsimp only
            omega
    · omega
  unfold directive
  dsimp only
  refine hprecision _ (hwidth _ _) fun a ha => hargs a ?_
  exact (parseWidth_spec _ _ hargs).2.2.subset ha

/-- What the number of a directive is written as before it is padded. -/
def floatBody (C : CFormat F) (D : DoubleOps F) (d : Directive F) : List Nat :=
  let num := nextDouble (D.ofInt 0) d.args
  C.body d.flags.plus d.flags.space d.flags.special
    (if d.precision < 0 then some 0 else if d.flags.precision then some d.precision.toNat else none) (head d.fmt)
    (if d.precision < 0 then roundDouble D num d.precision else num)

/-- **A float conversion copies what is in its buffer exactly when neither the width nor the text of the number is above 128,
and appends just what was formatted when both are below.** -/
theorem floatText_iff (C : CFormat F) (D : DoubleOps F) (fmt : List Nat) (args : List (Arg F)) (hargs : ∀ a ∈ args, a.InRange)
    (hfmt : head (directive fmt args).fmt ∈ floatConversions) :
    ((floatText C D (directive fmt args)).isSome ↔
      (directive fmt args).fieldWidth ≤ 128 ∧ (floatBody C D (directive fmt args)).length ≤ 128) ∧
    ((directive fmt args).fieldWidth < 128 ∧ (floatBody C D (directive fmt args)).length < 128 →
      ∃ left zeropad, floatText C D (directive fmt args) =
        some (C.pad left zeropad (directive fmt args).fieldWidth.toNat (floatBody C D (directive fmt args)))) := by
  have hwidth := (directive_spec fmt hargs).2.1
  have hprecision := directive_precision fmt hargs
  generalize directive fmt args = d at hwidth hprecision hfmt
  have htype : floatType (head d.fmt) = head d.fmt := by
    refine if_neg ?_
    revert hfmt
    generalize head d.fmt = c
    rintro hfmt (rfl | rfl | rfl) <;> exact absurd hfmt (by decide)
  have hflt := flt_eq C D (nextDouble (D.ofInt 0) d.args) (head d.fmt) d.flags hwidth hprecision
  obtain ⟨left, zeropad, htext⟩ := cText_format C
    (if d.precision < 0 then roundDouble D (nextDouble (D.ofInt 0) d.args) d.precision else nextDouble (D.ofInt 0) d.args)
    d.flags hwidth hprecision (htype.symm ▸ hfmt)
  rw [htype] at htext
  have hbody : cText C (formatText d.fieldWidth d.precision (head d.fmt) d.flags)
      (if d.precision < 0 then roundDouble D (nextDouble (D.ofInt 0) d.args) d.precision else nextDouble (D.ofInt 0) d.args) =
        C.pad left zeropad d.fieldWidth.toNat (floatBody C D d) := htext
  dsimp only at hflt
  rw [hbody, C.length_pad] at hflt
  constructor
  · rw [floatText, hflt.1, Nat.max_le]
    omega
  · intro hlt
    exact ⟨left, zeropad, hflt.2 (Nat.max_lt.2 ⟨by omega, hlt.2⟩)⟩

/-- `1.0` as `%f` writes it. -/
def oneFormat : CFormat Rat where
  body _ _ _ _ _ _ := [49, 46, 48, 48, 48, 48, 48, 48]
  pad left zeropad width text :=
    let fill := List.replicate (width - text.length) (if zeropad && !left then 48 else 32)
    if left then text ++ fill else fill ++ text
  length_pad left zeropad width text := by
    dsimp only
    split
    · rw [List.length_append, List.length_replicate]
      omega
    · rw [List.length_append, List.length_replicate]
      omega

/-- `%10f` of one. -/
theorem floatText_one : (floatText oneFormat exactOps (directive [49, 48, 102] [⟨1, 1, 1⟩])).isSome :=
  (floatText_iff oneFormat exactOps [49, 48, 102] [⟨1, 1, 1⟩]
    (fun a ha => List.mem_singleton.1 ha ▸ ⟨by decide, by decide⟩) (by decide)).1.2 ⟨by decide, by decide⟩

/-- `%200f` of one is copied from behind the buffer. -/
theorem floatText_overrun : floatText oneFormat exactOps (directive [50, 48, 48, 102] [⟨1, 1, 1⟩]) = none := by
  decide +kernel

end Strings
end ObjectScript
