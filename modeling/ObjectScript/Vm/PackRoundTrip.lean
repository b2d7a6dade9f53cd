import ObjectScript.Vm.PackStrings
/-!
# The round trip of pack and unpack

A format over the letters for integers, strings and hex digits is read together with its arguments as a list of fields
(`Matches`).  `pack` writes the bytes of the fields one behind the other (`packItems_fields`), and `unpack`, with a format that
spells the same letters and counts, returns their values reduced to what the letters keep (`unpackFormat_fields`).

Both go wrong only where an `int` does not hold a size: `pack` for an output of one byte less than 2 GiB, `unpack` for hex
digits a GiB before the end (`pack_unpack_iff`).
-/
namespace ObjectScript
namespace Vm

/-- A letter with its count and the arguments it takes. -/
structure PackField where
  code : PackCode
  count : Nat
  args : List PackArg

def PackCode.isText : PackCode → Bool
  | a | A => true
  | _ => false

def PackCode.isHex : PackCode → Bool
  | h | H => true
  | _ => false

def PackCode.pad (code : PackCode) : UInt8 := if code = .a then 0 else 32

def PackCode.shift (code : PackCode) : UInt8 := if code = .h then 0 else 4

namespace PackField

/-- The arguments are as many as the letter takes, and hex digits where it wants such. -/
inductive Fits : PackField → Prop where
  | text {code : PackCode} (hcode : code.isText = true) (count : Nat) (val : PackArg) : Fits ⟨code, count, [val]⟩
  | hex {code : PackCode} (hcode : code.isHex = true) {count : Nat} {val : PackArg} (hlen : count ≤ val.string.bytes.length)
      (hdigits : ∀ n ∈ val.string.bytes.take count, (hexDigit n).isSome) : Fits ⟨code, count, [val]⟩
  | integers {code : PackCode} (hcode : code.isInteger = true) (args : List PackArg) : Fits ⟨code, args.length, args⟩

/-- What a star stands for: the whole string, or all arguments. -/
def starCount (f : PackField) (rest : List PackArg) : Nat :=
  if f.code.isInteger then f.args.length + rest.length else (f.args.map fun val => val.string.bytes.length).sum

def size (f : PackField) : Nat :=
  if f.code.isHex then (f.count + 1) / 2 else if f.code.isText then f.count else f.count * (f.code.width.getD 0).toNat

def bytes (m : ByteMaps) (f : PackField) : List UInt8 :=
  if f.code.isHex then f.args.flatMap fun val => hexBytes f.code.shift ((val.string.bytes.take f.count).map digitOf)
  else if f.code.isText then f.args.flatMap fun val =>
    val.string.bytes.take f.count ++ List.replicate (f.count - val.string.bytes.length) f.code.pad
  else f.args.flatMap (m.packNumber f.code)

/-- The values of the arguments, reduced to what the letter keeps. -/
def unpacked (f : PackField) : List Unpacked :=
  if f.code.isHex then f.args.map fun val => .string ((val.string.bytes.take f.count).map lowerHex)
  else if f.code.isText then f.args.map fun val => .string ((val.string.bytes.take f.count).rdropWhile (· == f.code.pad))
  else f.args.map fun val => .number (f.code.reduce val.long)

end PackField

/-- The format and the arguments match: they are those of these fields. -/
inductive Matches : List Char → List PackArg → List PackField → Prop where
  | nil : Matches [] [] []
  | cons {type : Char} {format rest : List Char} {arg : Int} {args : List PackArg} {f : PackField} {fields : List PackField}
      (hcode : PackCode.ofChar type = some f.code) (harg : readArg format = some (arg, rest))
      (hcount : (f.count : Int) = if arg < 0 then (f.starCount args : Int) else arg) (hfits : f.Fits)
      (h : Matches rest args fields) : Matches (type :: format) (f.args ++ args) (f :: fields)

/-- The format spells the letters and the counts of these fields. -/
inductive Spells : List Char → List PackField → Prop where
  | nil : Spells [] []
  | cons {type : Char} {format rest : List Char} {f : PackField} {fields : List PackField}
      (hcode : PackCode.ofChar type = some f.code) (harg : readArg format = some ((f.count : Int), rest))
      (h : Spells rest fields) : Spells (type :: format) (f :: fields)

def packedSize (fields : List PackField) : Nat := (fields.map PackField.size).sum

def packedBytes (m : ByteMaps) (fields : List PackField) : List UInt8 := fields.flatMap (PackField.bytes m)

/-- Less than a GiB is left from any hex digits on. -/
def HexNear : List PackField → Prop
  | [] => True
  | f :: fields => (f.code.isHex = true → packedSize (f :: fields) < 2 ^ 30) ∧ HexNear fields

/-- `pack` writes as many bytes as it has computed, and `unpack` returns the reduced arguments; or there are too many bytes. -/
def PacksBack (m : ByteMaps) (fresh : Nat → UInt8) (format : List Char) (args : PackArgs) (fields : List PackField) : Prop :=
  (2 ^ 31 ≤ packedSize fields ∧ ∃ code, pack m fresh format args = some (.error (.integerOverflow code))) ∨
  ∃ bytes, pack m fresh format args = some (.ok bytes) ∧
    computeSize (fields.map fun f => (f.code, (f.count : Int))) 0 0 = some (.ok bytes.length) ∧
    ∀ input : StringBytes, input.bytes = bytes → ∀ format', Spells format' fields →
      ∃ fuel, unpack m fuel format' input = some (.ok (fields.flatMap PackField.unpacked))

/-! ## Letters -/

theorem isText_iff {code : PackCode} : code.isText = true ↔ code = .a ∨ code = .A := by
  cases code <;> decide

theorem isHex_iff {code : PackCode} : code.isHex = true ↔ code = .h ∨ code = .H := by
  cases code <;> decide

theorem shift_cases (code : PackCode) : code.shift = 0 ∨ code.shift = 4 := by
  rw [PackCode.shift]
  split
  · exact .inl rfl
  · exact .inr rfl

theorem isInteger_spec {code : PackCode} (h : code.isInteger = true) : code.isHex = false ∧ code.isText = false ∧
    ∃ w, code.width = some w ∧ 0 < w ∧ w ≤ 4 ∧ (∀ argb, code.sizeArg argb = some (w, argb)) := by
  cases code <;> cases h <;> exact ⟨rfl, rfl, _, rfl, by decide, by decide, fun _ => rfl⟩

theorem isHex_spec {code : PackCode} (h : code.isHex = true) : code.isInteger = false ∧ code.isText = false := by
  rcases isHex_iff.1 h with rfl | rfl <;> exact ⟨rfl, rfl⟩

theorem isText_spec {code : PackCode} (h : code.isText = true) : code.isInteger = false ∧ code.isHex = false := by
  rcases isText_iff.1 h with rfl | rfl <;> exact ⟨rfl, rfl⟩

namespace PackField

variable {code : PackCode}

theorem size_text (hcode : code.isText = true) (count : Nat) (val : PackArg) : (⟨code, count, [val]⟩ : PackField).size = count := by
  rw [size, if_neg (by rw [(isText_spec hcode).2]; exact Bool.false_ne_true), if_pos hcode]

theorem size_hex (hcode : code.isHex = true) (count : Nat) (val : PackArg) :
    (⟨code, count, [val]⟩ : PackField).size = (count + 1) / 2 := by
  rw [size, if_pos hcode]

theorem size_integers (hcode : code.isInteger = true) (args : List PackArg) :
    (⟨code, args.length, args⟩ : PackField).size = args.length * (code.width.getD 0).toNat := by
  obtain ⟨hhex, htext, -⟩ := isInteger_spec hcode
  simp only [size, hhex, htext, Bool.false_eq_true, if_false]

theorem bytes_text (m : ByteMaps) (hcode : code.isText = true) (count : Nat) (val : PackArg) :
    (⟨code, count, [val]⟩ : PackField).bytes m =
      val.string.bytes.take count ++ List.replicate (count - val.string.bytes.length) code.pad := by
  rw [bytes, if_neg (by rw [(isText_spec hcode).2]; exact Bool.false_ne_true), if_pos hcode, List.flatMap_singleton]

theorem bytes_hex (m : ByteMaps) (hcode : code.isHex = true) (count : Nat) (val : PackArg) :
    (⟨code, count, [val]⟩ : PackField).bytes m = hexBytes code.shift ((val.string.bytes.take count).map digitOf) := by
  rw [bytes, if_pos hcode, List.flatMap_singleton]

theorem bytes_integers (m : ByteMaps) (hcode : code.isInteger = true) (args : List PackArg) :
    (⟨code, args.length, args⟩ : PackField).bytes m = args.flatMap (m.packNumber code) := by
  obtain ⟨hhex, htext, -⟩ := isInteger_spec hcode
  simp only [bytes, hhex, htext, Bool.false_eq_true, if_false]

theorem unpacked_text (hcode : code.isText = true) (count : Nat) (val : PackArg) :
    (⟨code, count, [val]⟩ : PackField).unpacked =
      [.string ((val.string.bytes.take count).rdropWhile (· == code.pad))] := by
  rw [unpacked, if_neg (by rw [(isText_spec hcode).2]; exact Bool.false_ne_true), if_pos hcode, List.map_singleton]

theorem unpacked_hex (hcode : code.isHex = true) (count : Nat) (val : PackArg) :
    (⟨code, count, [val]⟩ : PackField).unpacked = [.string ((val.string.bytes.take count).map lowerHex)] := by
  rw [unpacked, if_pos hcode, List.map_singleton]

theorem unpacked_integers (hcode : code.isInteger = true) (args : List PackArg) :
    (⟨code, args.length, args⟩ : PackField).unpacked = args.map fun val => .number (code.reduce val.long) := by
  obtain ⟨hhex, htext, -⟩ := isInteger_spec hcode
  simp only [unpacked, hhex, htext, Bool.false_eq_true, if_false]

end PackField

theorem length_numbers (m : ByteMaps) {code : PackCode} (hcode : code.isInteger = true) (args : List PackArg) :
    (args.flatMap (m.packNumber code)).length = args.length * (code.width.getD 0).toNat := by
  induction args with
  | nil => rw [List.flatMap_nil, List.length_nil, List.length_nil, Nat.zero_mul]
  | cons val args ih =>
    have hval := length_packNumber m hcode val
    rw [List.flatMap_cons, List.length_append, ih, List.length_cons, Nat.succ_mul, Nat.add_comm]
    omega

theorem PackField.length_bytes (m : ByteMaps) {f : PackField} (h : f.Fits) : (f.bytes m).length = f.size := by
  cases h with
  | text hcode count val =>
    rw [bytes_text m hcode, size_text hcode, List.length_append, List.length_take, List.length_replicate]
    omega
  | hex hcode hlen hdigits =>
    rw [bytes_hex m hcode, size_hex hcode, length_hexBytes, List.length_map, List.length_take_of_le hlen]
  | integers hcode args =>
    rw [bytes_integers m hcode, size_integers hcode, length_numbers m hcode]

theorem packedSize_cons (f : PackField) (fields : List PackField) : packedSize (f :: fields) = f.size + packedSize fields := by
  rw [packedSize, List.map_cons, List.sum_cons, packedSize]

theorem size_le_packedSize {f : PackField} : ∀ {fields : List PackField}, f ∈ fields → f.size ≤ packedSize fields
  | [], hf => absurd hf List.not_mem_nil
  | g :: fields, hf => by
    rw [packedSize_cons]
    rcases List.mem_cons.1 hf with rfl | hf
    · exact Nat.le_add_right _ _
    · exact Nat.le_trans (size_le_packedSize hf) (Nat.le_add_left _ _)

theorem length_packedBytes (m : ByteMaps) {fields : List PackField} (h : ∀ f ∈ fields, f.Fits) :
    (packedBytes m fields).length = packedSize fields := by
  induction fields with
  | nil => rfl
  | cons f fields ih =>
    rw [packedBytes, packedSize, List.flatMap_cons, List.length_append, List.map_cons, List.sum_cons,
      PackField.length_bytes m (h f List.mem_cons_self)]
    exact congrArg _ (ih fun g hg => h g (List.mem_cons_of_mem f hg))

/-! ## What pack writes -/

theorem packNumbers_at (m : ByteMaps) (code : PackCode) : ∀ (args more : List PackArg) (done old rest : List UInt8),
    old.length = (args.flatMap (m.packNumber code)).length →
    packNumbers m code args.length ⟨done ++ old ++ rest, done.length, args ++ more⟩ =
      some ⟨done ++ args.flatMap (m.packNumber code) ++ rest, (done ++ args.flatMap (m.packNumber code)).length, more⟩
  | [], more, done, old, rest, h => by
    obtain rfl := List.length_eq_zero_iff.1 h
    rw [List.flatMap_nil, List.append_nil]
    rfl
  | val :: args, more, done, old, rest, h => by
    rw [List.flatMap_cons, List.length_append] at h
    obtain ⟨first, last, rfl, hfirst⟩ : ∃ first last, old = first ++ last ∧ first.length = (m.packNumber code val).length :=
      ⟨old.take _, old.drop _, (List.take_append_drop _ old).symm, List.length_take_of_le (by omega)⟩
    rw [List.length_append] at h
    have hwrite := writeBytes_at (m.packNumber code val) done first (last ++ rest) hfirst
    have hrest := packNumbers_at m code args more (done ++ m.packNumber code val) last rest (by omega)
    rw [List.length_append, Int.natCast_add] at hrest
    simp only [List.append_assoc] at hwrite hrest
    simp only [List.length_cons, List.cons_append, packNumbers, List.append_assoc, hwrite, Option.bind_eq_bind, Option.bind_some,
      hrest, List.flatMap_cons]

theorem packItem_text (m : ByteMaps) {code : PackCode} (hcode : code.isText = true) (count : Nat) (val : PackArg)
    (more : List PackArg) (done old rest : List UInt8) (hold : old.length = count) :
    packItem m code count ⟨done ++ old ++ rest, done.length, val :: more⟩ =
      some (.ok ⟨done ++ (val.string.bytes.take count ++ List.replicate (count - val.string.bytes.length) code.pad) ++ rest,
        done.length + count, more⟩) := by
  have hitem : packItem m code count ⟨done ++ old ++ rest, done.length, val :: more⟩ = (do
      let output ← writeBytes (done ++ old ++ rest) done.length (List.replicate (count : Int).toNat code.pad)
      let output ← writeBytes output done.length
        (val.string.bytes.take (if inputlen val.string < count then inputlen val.string else (count : Int)).toNat)
      some (.ok ⟨output, done.length + count, more⟩)) := by
    rcases isText_iff.1 hcode with rfl | rfl <;> rfl
  have htake : val.string.bytes.take (if inputlen val.string < count then inputlen val.string else (count : Int)).toNat =
      val.string.bytes.take count := by
    rw [inputlen]
    split
    · rw [Int.toNat_natCast, List.take_length, List.take_of_length_le (by omega)]
    · rw [Int.toNat_natCast]
  have hsplit : List.replicate count code.pad = List.replicate (val.string.bytes.take count).length code.pad ++
      List.replicate (count - val.string.bytes.length) code.pad := by
    rw [List.replicate_append_replicate, List.length_take]
    congr 1
    omega
  have hpad := writeBytes_at (List.replicate count code.pad) done old rest (by rw [hold, List.length_replicate])
  rw [hsplit] at hpad
  have hstring := writeBytes_at (val.string.bytes.take count) done (List.replicate (val.string.bytes.take count).length code.pad)
    (List.replicate (count - val.string.bytes.length) code.pad ++ rest) List.length_replicate
  rw [hitem, Int.toNat_natCast, htake, hsplit]
  simp only [List.append_assoc] at hpad hstring ⊢
  simp only [hpad, hstring, Option.bind_eq_bind, Option.bind_some]

theorem packItem_hex (m : ByteMaps) {code : PackCode} (hcode : code.isHex = true) {count : Nat} {val : PackArg}
    (hlen : count ≤ val.string.bytes.length) (hdigits : ∀ n ∈ val.string.bytes.take count, (hexDigit n).isSome)
    (more : List PackArg) (done old rest : List UInt8) (hold : old.length = (count + 1) / 2) :
    packItem m code count ⟨done ++ old ++ rest, done.length, val :: more⟩ =
      some (.ok ⟨done ++ hexBytes code.shift ((val.string.bytes.take count).map digitOf) ++ rest,
        (done ++ hexBytes code.shift ((val.string.bytes.take count).map digitOf)).length, more⟩) := by
  have hitem : ∀ output outputpos, packHex code (count : Int).toNat val.string.bytes (done ++ old ++ rest) (done.length - 1)
      code.shift 1 = some (.ok (output, outputpos)) →
      packItem m code count ⟨done ++ old ++ rest, done.length, val :: more⟩ = some (.ok ⟨output, outputpos + 1, more⟩) := by
    intro output outputpos hpacked
    have hfits : ¬ (count : Int) > inputlen val.string := by
      rw [inputlen]
      omega
    rcases isHex_iff.1 hcode with rfl | rfl
    · unfold packItem
      dsimp only
      rw [if_neg hfits, show (if PackCode.h = PackCode.h then 0 else 4) = PackCode.h.shift from rfl, hpacked]
    · unfold packItem
      dsimp only
      rw [if_neg hfits, show (if PackCode.H = PackCode.h then 0 else 4) = PackCode.H.shift from rfl, hpacked]
  have htaken : (val.string.bytes.take count).length = count := List.length_take_of_le hlen
  have hhex := packHex_at code (shift_cases code) (val.string.bytes.take count) done old rest (val.string.bytes.drop count) hdigits
    (by rw [htaken, hold])
  rw [htaken, List.take_append_drop] at hhex
  rw [hitem _ _ hhex, Int.sub_add_cancel]

/-- **A letter writes its bytes**, and moves behind them. -/
theorem packItem_field (m : ByteMaps) {f : PackField} (h : f.Fits) (more : List PackArg) (done old rest : List UInt8)
    (hold : old.length = f.size) : packItem m f.code f.count ⟨done ++ old ++ rest, done.length, f.args ++ more⟩ =
      some (.ok ⟨done ++ f.bytes m ++ rest, (done ++ f.bytes m).length, more⟩) := by
  have hlength := f.length_bytes m h
  cases h with
  | @text code hcode count val =>
    have hsize := PackField.size_text hcode count val
    have hitem := packItem_text m hcode count val more done old rest (hold.trans hsize)
    rw [List.length_append, hlength, hsize, Int.natCast_add, PackField.bytes_text m hcode]
    exact hitem
  | @hex code hcode count val hlen hdigits =>
    rw [PackField.size_hex hcode] at hold
    rw [PackField.bytes_hex m hcode]
    exact packItem_hex m hcode hlen hdigits more done old rest hold
  | @integers code hcode args =>
    rw [← hlength] at hold
    rw [PackField.bytes_integers m hcode] at hold ⊢
    have hnumbers := packNumbers_at m code args more done old rest hold
    have hitem : ∀ o, packItem m code args.length o = (packNumbers m code (args.length : Int).toNat o).map .ok := by
      intro o
      cases code with
      | c | C | s | S | n | v | i | I | l | L | N | V => rfl
      | X | position | a | A | h | H | x | f | d => cases hcode
    rw [hitem, Int.toNat_natCast, hnumbers, Option.map_some]

theorem packItems_fields (m : ByteMaps) : ∀ {fields : List PackField}, (∀ f ∈ fields, f.Fits) → ∀ done old rest : List UInt8,
    old.length = packedSize fields →
    packItems m (fields.map fun f => (f.code, (f.count : Int))) ⟨done ++ old ++ rest, done.length, fields.flatMap PackField.args⟩ =
      some (.ok ⟨done ++ packedBytes m fields ++ rest, (done ++ packedBytes m fields).length, []⟩)
  | [], _, done, old, rest, hold => by
    obtain rfl := List.length_eq_zero_iff.1 hold
    simp only [packedBytes, List.flatMap_nil, List.append_nil, List.map_nil, packItems]
  | f :: fields, hfits, done, old, rest, hold => by
    rw [packedSize, List.map_cons, List.sum_cons] at hold
    obtain ⟨first, last, rfl, hfirst⟩ : ∃ first last, old = first ++ last ∧ first.length = f.size :=
      ⟨old.take _, old.drop _, (List.take_append_drop _ old).symm, List.length_take_of_le (by omega)⟩
    rw [List.length_append] at hold
    have hitem := packItem_field m (hfits f List.mem_cons_self) (fields.flatMap PackField.args) done first (last ++ rest) hfirst
    have hrest := packItems_fields m (fun g hg => hfits g (List.mem_cons_of_mem f hg)) (done ++ f.bytes m) last rest
      (by rw [packedSize]; omega)
    rw [packedBytes] at hrest ⊢
    rw [List.map_cons, List.flatMap_cons, List.flatMap_cons, packItems, ← List.append_assoc done, List.append_assoc _ last, hitem,
      ← List.append_assoc done (f.bytes m)]
    dsimp only
    rw [← List.append_assoc _ last]
    exact hrest

/-! ## The result of pack -/

theorem Matches.fits {format : List Char} {args : List PackArg} {fields : List PackField} (h : Matches format args fields) :
    ∀ f ∈ fields, f.Fits := by
  induction h with
  | nil => exact fun f hf => absurd hf List.not_mem_nil
  | cons hcode harg hcount hfits h ih => exact List.forall_mem_cons.2 ⟨hfits, ih⟩

theorem Matches.args {format : List Char} {args : List PackArg} {fields : List PackField} (h : Matches format args fields) :
    args = fields.flatMap PackField.args := by
  induction h with
  | nil => rfl
  | cons hcode harg hcount hfits h ih => rw [List.flatMap_cons, ← ih]

/-- A count is less than the size, or that of a string. -/
theorem Matches.count_lt {format : List Char} {args : List PackArg} {fields : List PackField} (h : Matches format args fields)
    (f : PackField) (hf : f ∈ fields) (hsize : packedSize fields < 2 ^ 31) : f.count < 2 ^ 31 := by
  have hle : f.size ≤ packedSize fields := size_le_packedSize hf
  have hfits := h.fits f hf
  cases hfits with
  | @text code hcode count val =>
    rw [PackField.size_text hcode] at hle
    exact Nat.lt_of_le_of_lt hle hsize
  | @hex code hcode count val hlen hdigits =>
    have hlt := val.string.length_lt
    dsimp only
    omega
  | @integers code hcode args =>
    obtain ⟨-, -, w, hw, hw0, -, -⟩ := isInteger_spec hcode
    rw [PackField.size_integers hcode, hw, Option.getD_some] at hle
    have hmul : args.length ≤ args.length * w.toNat := Nat.le_mul_of_pos_right _ (by omega)
    exact Nat.lt_of_le_of_lt (Nat.le_trans hmul hle) hsize

theorem preprocess_cons {params : Int} {type : Char} {format rest : List Char} {arg : Int} {args : List PackArg}
    {code : PackCode} (hcode : PackCode.ofChar type = some code) (harg : readArg format = some (arg, rest)) :
    preprocess params (type :: format) args =
      match preprocessCode params code arg args with
      | none => none
      | some (.error e) => some (.error e)
      | some (.ok (arg, args)) =>
        match preprocess params rest args with
        | none => none
        | some (.error e) => some (.error e)
        | some (.ok items) => some (.ok ((code, arg) :: items)) := by
  rw [preprocess]
  split
  · rename_i h
    rw [harg] at h
    cases h
  · rename_i h
    rw [harg] at h
    cases h
    generalize PackCode.ofChar type = o at hcode
    subst hcode
    rfl

theorem preprocessCode_field {params : Int} (hparams : params < 2 ^ 31) {f : PackField} (hfits : f.Fits) {arg : Int}
    {args : List PackArg} (hcount : (f.count : Int) = if arg < 0 then (f.starCount args : Int) else arg)
    (hargs : (f.args ++ args).length < params) :
    preprocessCode params f.code arg (f.args ++ args) = some (.ok (f.count, args)) := by
  rw [PackField.starCount] at hcount
  cases hfits with
  | @text code hcode count val =>
    have hitem : preprocessCode params code arg ([val] ++ args) =
        some (.ok (if arg < 0 then inputlen val.string else arg, args)) := by
      rcases isText_iff.1 hcode with rfl | rfl <;> rfl
    rw [(isText_spec hcode).1, if_neg Bool.false_ne_true, List.map_singleton, List.sum_singleton] at hcount
    rw [hitem, hcount, inputlen]
  | @hex code hcode count val hlen hdigits =>
    have hitem : preprocessCode params code arg ([val] ++ args) =
        some (.ok (if arg < 0 then inputlen val.string else arg, args)) := by
      rcases isHex_iff.1 hcode with rfl | rfl <;> rfl
    rw [(isHex_spec hcode).1, if_neg Bool.false_ne_true, List.map_singleton, List.sum_singleton] at hcount
    rw [hitem, hcount, inputlen]
  | @integers code hcode front =>
    have hitem : preprocessCode params code arg (front ++ args) = (do
        let currentarg : Int := params - (front ++ args).length
        let arg := if arg < 0 then params - currentarg else arg
        let currentarg ← int32 (currentarg + arg)
        if currentarg > params then some (.error (.tooFewArguments code))
        else some (.ok (arg, (front ++ args).drop arg.toNat))) := by
      cases code with
      | c | C | s | S | n | v | i | I | l | L | N | V => rfl
      | X | position | a | A | h | H | x | f | d => cases hcode
    rw [hcode, if_pos rfl] at hcount
    rw [List.length_append] at hargs
    have hresolved : (if arg < 0 then params - (params - ((front ++ args).length : Int)) else arg) = front.length := by
      dsimp only at hcount
      rw [List.length_append]
      by_cases hstar : arg < 0
      · rw [if_pos hstar]
        omega
      · rw [if_neg hstar] at hcount ⊢
        exact hcount.symm
    rw [hitem]
    dsimp only
    rw [hresolved, List.length_append, int32_some (by omega) (by omega), Option.bind_eq_bind, Option.bind_some,
      if_neg (by omega), Int.toNat_natCast, List.drop_left]

theorem preprocess_fields {params : Int} (hparams : params < 2 ^ 31) {format : List Char} {args : List PackArg}
    {fields : List PackField} (h : Matches format args fields) (hargs : args.length < params) :
    preprocess params format args = some (.ok (fields.map fun f => (f.code, (f.count : Int)))) := by
  induction h with
  | nil => rw [preprocess, if_pos rfl, List.map_nil]
  | cons hcode harg hcount hfits h ih =>
    have hrest := ih (by rw [List.length_append] at hargs; omega)
    rw [preprocess_cons hcode harg, preprocessCode_field hparams hfits hcount hargs]
    simp only [hrest, List.map_cons]

theorem incOutputpos_eq (code : PackCode) {p a b : Int} (ha : 0 ≤ a) (hb : 0 < b) :
    incOutputpos code p a b = if p + a * b < 2 ^ 31 then .ok (p + a * b) else .error (.integerOverflow code) := by
  have hcheck : (a < 0 ∨ (INT_MAX - p) / b < a) ↔ ¬ p + a * b < 2 ^ 31 := by
    rw [Int.ediv_lt_iff_lt_mul hb, INT_MAX]
    omega
  rw [incOutputpos]
  by_cases hin : p + a * b < 2 ^ 31
  · rw [if_neg (fun h => hcheck.1 h hin), if_pos hin]
  · rw [if_pos (hcheck.2 hin), if_neg hin]

theorem advance_field {f : PackField} (h : f.Fits) (p : Int) : advance f.code f.count p =
    some (if p + f.size < 2 ^ 31 then .ok (p + f.size) else .error (.integerOverflow f.code)) := by
  cases h with
  | @text code hcode count val =>
    have hitem : advance code count p = some (incOutputpos code p count 1) := by
      rcases isText_iff.1 hcode with rfl | rfl <;> rfl
    rw [PackField.size_text hcode, hitem, incOutputpos_eq code (Int.natCast_nonneg _) Int.one_pos, Int.mul_one]
  | @hex code hcode count val hlen hdigits =>
    have hitem : advance code count p =
        (int32 ((count : Int) + count % 2)).map fun nibbles => incOutputpos code p (nibbles / 2) 1 := by
      rcases isHex_iff.1 hcode with rfl | rfl <;> rfl
    have hlt := val.string.length_lt
    have hhalf : ((count : Int) + count % 2) / 2 = ((count + 1) / 2 : Nat) := by omega
    rw [PackField.size_hex hcode, hitem, int32_some (by omega) (by omega), Option.map_some, hhalf,
      incOutputpos_eq code (Int.natCast_nonneg _) Int.one_pos, Int.mul_one]
  | @integers code hcode args =>
    obtain ⟨-, -, w, hw, hw0, -, -⟩ := isInteger_spec hcode
    have hitem : advance code args.length p = some (incOutputpos code p args.length (code.width.getD 0)) := by
      cases code with
      | c | C | s | S | n | v | i | I | l | L | N | V => rfl
      | X | position | a | A | h | H | x | f | d => cases hcode
    have hcast : ((args.length * w.toNat : Nat) : Int) = args.length * w := by
      rw [Int.natCast_mul, Int.toNat_of_nonneg (Int.le_of_lt hw0)]
    rw [PackField.size_integers hcode, hitem, hw, Option.getD_some, incOutputpos_eq code (Int.natCast_nonneg _) hw0, hcast]

theorem computeSize_fields : ∀ {fields : List PackField}, (∀ f ∈ fields, f.Fits) → ∀ p : Int,
    (p + packedSize fields < 2 ^ 31 →
      computeSize (fields.map fun f => (f.code, (f.count : Int))) p p = some (.ok (p + packedSize fields))) ∧
    (p < 2 ^ 31 → 2 ^ 31 ≤ p + packedSize fields →
      ∃ code, computeSize (fields.map fun f => (f.code, (f.count : Int))) p p = some (.error (.integerOverflow code)))
  | [], _, p => by
    rw [List.map_nil, computeSize, packedSize, List.map_nil, List.sum_nil]
    exact ⟨fun _ => by rw [Int.natCast_zero, Int.add_zero], fun hp hp' => by omega⟩
  | f :: fields, hfits, p => by
    have hadvance := advance_field (hfits f List.mem_cons_self) p
    obtain ⟨hrest, hover⟩ := computeSize_fields (fun g hg => hfits g (List.mem_cons_of_mem f hg)) (p + f.size)
    have hsize := packedSize_cons f fields
    have hmax : (if p < p + f.size then p + f.size else p) = p + (f.size : Int) := by
      split <;> omega
    rw [List.map_cons, computeSize, hadvance, hsize, Int.natCast_add]
    by_cases hin : p + f.size < 2 ^ 31
    · simp only [hin, if_true, hmax]
      refine ⟨fun h => ?_, fun _ h => hover hin (by omega)⟩
      rw [hrest (by omega), Int.add_assoc]
    · simp only [hin, if_false]
      exact ⟨fun h => by omega, fun _ _ => ⟨f.code, rfl⟩⟩

/-- **What `pack` returns**: the bytes of the fields, but for an output whose size or capacity is no `int`. -/
theorem pack_fields (m : ByteMaps) (fresh : Nat → UInt8) {format : List Char} {args : PackArgs} {fields : List PackField}
    (h : Matches format args.args fields) :
    (packedSize fields < 2 ^ 31 - 1 → pack m fresh format args = some (.ok (packedBytes m fields))) ∧
    (packedSize fields = 2 ^ 31 - 1 → pack m fresh format args = none) ∧
    (2 ^ 31 ≤ packedSize fields → ∃ code, pack m fresh format args = some (.error (.integerOverflow code))) := by
  have hparams := args.length_lt
  have hpre := preprocess_fields (show (args.args.length : Int) + 1 < 2 ^ 31 by omega) h (by omega)
  obtain ⟨hsize, hover⟩ := computeSize_fields h.fits 0
  rw [Int.zero_add] at hsize hover
  refine ⟨fun hlt => ?_, fun heq => ?_, fun hge => ?_⟩
  · have hmemory : (List.range (packedSize fields + 1)).map fresh =
        (List.range (packedSize fields)).map fresh ++ [fresh (packedSize fields)] := by
      rw [List.range_succ, List.map_append, List.map_singleton]
    have hlength := length_packedBytes m h.fits
    have hitems : packItems m (fields.map fun f => (f.code, (f.count : Int)))
        ⟨(List.range (packedSize fields)).map fresh ++ [fresh (packedSize fields)], 0, args.args⟩ =
          some (.ok ⟨packedBytes m fields ++ [fresh (packedSize fields)], packedSize fields, []⟩) := by
      rw [h.args, ← hlength]
      exact packItems_fields m h.fits [] _ _ (by rw [List.length_map, List.length_range, hlength])
    have hlast : writeByte (packedBytes m fields ++ [fresh (packedSize fields)]) (packedSize fields) 0 =
        some (packedBytes m fields ++ [0]) := by
      rw [← hlength]
      exact writeByte_at (packedBytes m fields) _ [] 0
    rw [pack, hpre]
    simp only [hsize (by omega)]
    rw [int32_some (by omega) (by omega), Option.bind_eq_bind, Option.bind_some,
      show ((packedSize fields : Int) + 1).toNat = packedSize fields + 1 by omega, hmemory, hitems]
    simp only [Option.bind_eq_bind, Option.bind_some, hlast, Int.toNat_natCast]
    rw [← hlength, List.take_left]
  · rw [pack, hpre]
    simp only [hsize (by omega)]
    rw [int32_none (by omega)]
    rfl
  · obtain ⟨code, hcode⟩ := hover (by omega) (by omega)
    exact ⟨code, by rw [pack, hpre]; simp only [hcode]⟩

/-! ## What unpack reads -/

section

variable {m : ByteMaps} {input : StringBytes}

theorem length_le_inputlen {done bs rest : List UInt8} (h : input.bytes = done ++ bs ++ rest) :
    (done.length : Int) + bs.length ≤ inputlen input := by
  rw [inputlen, h, List.length_append, List.length_append]
  omega

theorem unpackLoop_numbers {code : PackCode} (hcode : code.isInteger = true) {w : Int} (hw : code.width = some w) {arg : Int}
    (argb : Int) (harg : arg < 2 ^ 31) : ∀ (args : List PackArg) (fuel : Nat) (i : Int) (done rest : List UInt8)
      (values : List Unpacked), input.bytes = done ++ args.flatMap (m.packNumber code) ++ rest → i + args.length = arg → 0 ≤ i →
      args.length < fuel → unpackLoop m input code arg argb fuel ⟨i, w, done.length, values⟩ =
        some (.ok ⟨arg, w, (done ++ args.flatMap (m.packNumber code)).length,
          values ++ args.map fun val => .number (code.reduce val.long)⟩)
  | [], fuel + 1, i, done, rest, values, _, hi, _, _ => by
    obtain rfl : i = arg := by rw [← hi, List.length_nil, Int.natCast_zero, Int.add_zero]
    rw [unpackLoop_done, List.flatMap_nil, List.append_nil, List.map_nil, List.append_nil]
  | val :: args, fuel + 1, i, done, rest, values, h, hi, hi0, hfuel => by
    rw [List.length_cons] at hi hfuel
    have hlen := inputlen_range input
    have hval : ((m.packNumber code val).length : Int) = w := by rw [length_packNumber m hcode val, hw, Option.getD_some]
    have hsplit : input.bytes = done ++ m.packNumber code val ++ (args.flatMap (m.packNumber code) ++ rest) := by
      rw [h, List.flatMap_cons, List.append_assoc, List.append_assoc, List.append_assoc]
    have hin := length_le_inputlen hsplit
    rw [hval] at hin
    have hw0 : 0 ≤ w := by omega
    have hpos : ((done ++ m.packNumber code val).length : Int) = done.length + w := by
      rw [List.length_append, Int.natCast_add, hval]
    have hrest := unpackLoop_numbers hcode hw argb harg args fuel (i + 1) (done ++ m.packNumber code val) rest
      (values ++ [.number (code.reduce val.long)]) (by rw [hsplit, ← List.append_assoc]) (by omega) (by omega) (by omega)
    rw [hpos] at hrest
    rw [unpackLoop_forward fuel (by omega) (.inr (.inr (by omega))) (by omega) (by omega) hin
      (unpackTurn_packed hcode hsplit arg argb i w values) (by omega) (by omega) (by omega) (by omega), hrest, List.flatMap_cons,
      List.map_cons, List.append_assoc, List.append_assoc, List.singleton_append]

theorem unpackItem_loop {code : PackCode} {argb size arg : Int} (hsize : code.sizeArg argb = some (size, arg)) (fuel : Nat)
    (p : Int) (values : List Unpacked) :
    unpackItem m input fuel code argb p values = unpackLoop m input code arg argb fuel ⟨0, size, p, values⟩ := by
  rw [unpackItem, hsize]
  rfl

/-- A result of an item that returns these values and moves behind these bytes. -/
def Returns (done : List UInt8) (values : List Unpacked) (r : Option (Except UnpackError Turn)) : Prop :=
  ∃ t, r = some (.ok t) ∧ t.inputpos = done.length ∧ t.values = values

theorem unpackTurn_text_at {code : PackCode} (hcode : code.isText = true) {done bs rest : List UInt8}
    (h : input.bytes = done ++ bs ++ rest) (arg argb i : Int) (values : List Unpacked) :
    unpackTurn m input code arg argb ⟨i, bs.length, done.length, values⟩ =
      some (.ok ⟨i, bs.length, done.length, values ++ [.string (bs.rdropWhile (· == code.pad))]⟩) := by
  have hin := length_le_inputlen h
  have hturn : unpackTurn m input code arg argb ⟨i, bs.length, done.length, values⟩ = (do
      let len := inputlen input - done.length
      let len := if (bs.length : Int) ≥ 0 ∧ len > bs.length then (bs.length : Int) else len
      let last ← removePadding input done.length code.pad len.toNat
      let str ← readBytes input done.length (last + 1).toNat
      some (.ok ⟨i, len, done.length, values ++ [.string str]⟩)) := by
    rcases isText_iff.1 hcode with rfl | rfl <;> rfl
  have hlen : (if (bs.length : Int) ≥ 0 ∧ inputlen input - done.length > bs.length then (bs.length : Int)
      else inputlen input - done.length) = bs.length := by
    split <;> omega
  rw [hturn]
  dsimp only
  rw [hlen, Int.toNat_natCast, removePadding_at code.pad bs rest h, Option.bind_eq_bind, Option.bind_some, Int.sub_add_cancel,
    Int.toNat_natCast, readBytes_unpadded code.pad h, Option.bind_eq_bind, Option.bind_some]

theorem unpackItem_text_at {code : PackCode} (hcode : code.isText = true) {done bs rest : List UInt8}
    (h : input.bytes = done ++ bs ++ rest) (fuel : Nat) (values : List Unpacked) :
    Returns (done ++ bs) (values ++ [.string (bs.rdropWhile (· == code.pad))])
      (unpackItem m input (fuel + 2) code bs.length done.length values) := by
  have hlen := inputlen_range input
  have hin := length_le_inputlen h
  have hsize : code.sizeArg bs.length = some ((bs.length : Int), 1) := by rcases isText_iff.1 hcode with rfl | rfl <;> rfl
  refine ⟨⟨1, bs.length, done.length + bs.length, _⟩, ?_, ?_, rfl⟩
  · rw [unpackItem_loop hsize,
      unpackLoop_forward (fuel + 1) (by decide) (.inr (.inr (by omega))) (by omega) (by omega) hin
        (unpackTurn_text_at hcode h 1 bs.length 0 values) (by omega) (by omega) (by decide) (by decide)]
    exact unpackLoop_done fuel
  · rw [List.length_append, Int.natCast_add]

theorem unpackTurn_hex_at {code : PackCode} (hcode : code.isHex = true) {ds done rest : List UInt8} (hds : ∀ d ∈ ds, d < 16)
    (h : input.bytes = done ++ hexBytes code.shift ds ++ rest) (hnear : inputlen input - done.length < 2 ^ 30) (arg i : Int)
    (values : List Unpacked) :
    unpackTurn m input code arg ds.length ⟨i, (hexBytes code.shift ds).length, done.length, values⟩ =
      some (.ok ⟨i, (hexBytes code.shift ds).length, done.length, values ++ [.string (ds.map hexChar)]⟩) := by
  have hin := length_le_inputlen h
  have hhalf := length_hexBytes code.shift ds
  obtain ⟨size, hsize⟩ : ∃ size, size = (hexBytes code.shift ds).length := ⟨_, rfl⟩
  rw [← hsize] at hin hhalf ⊢
  have hturn : unpackTurn m input code arg ds.length ⟨i, size, done.length, values⟩ = (do
      let len ← int32 ((inputlen input - done.length) * 2)
      let doubled ← int32 ((size : Int) * 2)
      let len := if (size : Int) ≥ 0 ∧ len > doubled then doubled else len
      let len := if (ds.length : Int) > 0 then len - (ds.length : Int) % 2 else len
      let buf ← readHex input done.length len.toNat 0 code.shift 1
      some (.ok ⟨i, size, done.length, values ++ [.string buf]⟩)) := by
    rcases isHex_iff.1 hcode with rfl | rfl <;> rfl
  have hcut : (if (ds.length : Int) > 0 then
      (if (size : Int) ≥ 0 ∧ (inputlen input - done.length) * 2 > (size : Int) * 2 then (size : Int) * 2
        else (inputlen input - done.length) * 2) - (ds.length : Int) % 2
      else (if (size : Int) ≥ 0 ∧ (inputlen input - done.length) * 2 > (size : Int) * 2 then (size : Int) * 2
        else (inputlen input - done.length) * 2)) = ds.length := by
    split <;> split <;> omega
  have hread := readHex_at (shift_cases code) ds done [] rest hds h
  rw [List.length_nil, Int.natCast_zero] at hread
  rw [hturn, int32_some (by omega) (by omega), Option.bind_eq_bind, Option.bind_some, int32_some (by omega) (by omega),
    Option.bind_eq_bind, Option.bind_some]
  dsimp only
  rw [hcut, Int.toNat_natCast, hread, Option.bind_some]

theorem unpackItem_hex_at {code : PackCode} (hcode : code.isHex = true) {ds done rest : List UInt8} (hds : ∀ d ∈ ds, d < 16)
    (h : input.bytes = done ++ hexBytes code.shift ds ++ rest) (hnear : inputlen input - done.length < 2 ^ 30) (fuel : Nat)
    (values : List Unpacked) : Returns (done ++ hexBytes code.shift ds) (values ++ [.string (ds.map hexChar)])
      (unpackItem m input (fuel + 2) code ds.length done.length values) := by
  have hlen := inputlen_range input
  have hin := length_le_inputlen h
  have hhalf := length_hexBytes code.shift ds
  have hsize : code.sizeArg ds.length = some (((hexBytes code.shift ds).length : Int), 1) := by
    rw [sizeArg_hex (isHex_iff.1 hcode) (by omega) (by omega), hhalf, hexSize]
    split <;> congr 2 <;> omega
  refine ⟨⟨1, (hexBytes code.shift ds).length, done.length + (hexBytes code.shift ds).length, _⟩, ?_, ?_, rfl⟩
  · rw [unpackItem_loop hsize,
      unpackLoop_forward (fuel + 1) (by decide) (.inr (.inr (by omega))) (by omega) (by omega) hin
        (unpackTurn_hex_at hcode hds h hnear 1 0 values) (by omega) (by omega) (by decide) (by decide)]
    exact unpackLoop_done fuel
  · rw [List.length_append, Int.natCast_add]

/-- **A field is read back**, where hex digits are not too far from the end. -/
theorem unpackItem_field {f : PackField} (hfits : f.Fits) (hlt : (f.count : Int) < 2 ^ 31) {done rest : List UInt8}
    (h : input.bytes = done ++ f.bytes m ++ rest) (hnear : f.code.isHex = true → inputlen input - done.length < 2 ^ 30) :
    ∃ n, ∀ fuel, n ≤ fuel → ∀ values, Returns (done ++ f.bytes m) (values ++ f.unpacked)
      (unpackItem m input fuel f.code f.count done.length values) := by
  have hlength := f.length_bytes m hfits
  cases hfits with
  | @text code hcode count val =>
    rw [PackField.bytes_text m hcode] at h hlength
    rw [PackField.size_text hcode] at hlength
    refine ⟨2, fun fuel hfuel values => ?_⟩
    obtain ⟨fuel, rfl⟩ : ∃ k, fuel = k + 2 := ⟨fuel - 2, by omega⟩
    have hitem := unpackItem_text_at (m := m) hcode h fuel values
    rw [hlength, rdropWhile_padded] at hitem
    rw [PackField.bytes_text m hcode, PackField.unpacked_text hcode]
    exact hitem
  | @hex code hcode count val hlen hdigits =>
    rw [PackField.bytes_hex m hcode] at h
    have hds : ∀ d ∈ (val.string.bytes.take count).map digitOf, d < 16 := by
      intro d hd
      obtain ⟨n, hn, rfl⟩ := List.mem_map.1 hd
      exact (hexDigit_spec (hdigits n hn)).2.1
    have hchars : ((val.string.bytes.take count).map digitOf).map hexChar = (val.string.bytes.take count).map lowerHex := by
      rw [List.map_map]
      exact List.map_congr_left fun n hn => (hexDigit_spec (hdigits n hn)).2.2
    have htaken : ((val.string.bytes.take count).map digitOf).length = count := by
      rw [List.length_map, List.length_take_of_le hlen]
    refine ⟨2, fun fuel hfuel values => ?_⟩
    obtain ⟨fuel, rfl⟩ : ∃ k, fuel = k + 2 := ⟨fuel - 2, by omega⟩
    have hitem := unpackItem_hex_at (m := m) hcode hds h (hnear hcode) fuel values
    rw [htaken, hchars] at hitem
    rw [PackField.bytes_hex m hcode, PackField.unpacked_hex hcode]
    exact hitem
  | @integers code hcode args =>
    obtain ⟨-, -, w, hw, -, -, hsize⟩ := isInteger_spec hcode
    rw [PackField.bytes_integers m hcode] at h ⊢
    rw [PackField.unpacked_integers hcode]
    refine ⟨args.length + 1, fun fuel hfuel values => ?_⟩
    rw [unpackItem_loop (hsize args.length)]
    exact ⟨_, unpackLoop_numbers hcode hw args.length hlt args fuel 0 done rest values h (Int.zero_add _) (Int.le_refl 0) hfuel,
      rfl, rfl⟩

theorem left_of_bytes {fields : List PackField} (hfits : ∀ f ∈ fields, f.Fits) {done : List UInt8}
    (h : input.bytes = done ++ packedBytes m fields) : inputlen input - done.length = packedSize fields := by
  rw [inputlen, h, List.length_append, length_packedBytes m hfits]
  omega

theorem unpackFormat_fields {format : List Char} {fields : List PackField} (hspells : Spells format fields)
    (hfits : ∀ f ∈ fields, f.Fits) (hnear : HexNear fields) {done : List UInt8}
    (h : input.bytes = done ++ packedBytes m fields) : ∃ n, ∀ fuel, n ≤ fuel → ∀ values,
      unpackFormat m input fuel format done.length values = some (.ok (values ++ fields.flatMap PackField.unpacked)) := by
  induction hspells generalizing done with
  | nil => exact ⟨0, fun fuel _ values => by rw [unpackFormat, List.flatMap_nil, List.append_nil]⟩
  | @cons type format rest f fields hcode harg hspells ih =>
    have hleft := left_of_bytes hfits h
    have hsplit : input.bytes = done ++ f.bytes m ++ packedBytes m fields := by
      rw [h, packedBytes, List.flatMap_cons, ← List.append_assoc, packedBytes]
    obtain ⟨n, hn⟩ := unpackItem_field (hfits f List.mem_cons_self) (readArg_range harg).2 hsplit
      fun hhex => by rw [hleft]; exact_mod_cast hnear.1 hhex
    obtain ⟨k, hk⟩ := ih (fun g hg => hfits g (List.mem_cons_of_mem f hg)) hnear.2 hsplit
    refine ⟨max n k, fun fuel hfuel values => ?_⟩
    obtain ⟨t, ht, hpos, hvalues⟩ := hn fuel (Nat.le_trans (Nat.le_max_left n k) hfuel) values
    rw [unpackFormat_cons harg, hcode]
    simp only [ht, hpos, hvalues]
    rw [hk fuel (Nat.le_trans (Nat.le_max_right n k) hfuel), List.flatMap_cons, List.append_assoc]

theorem nextPos_field {f : PackField} (hfits : f.Fits) {len p : Int} (hin : p + f.size ≤ len) :
    nextPos len f.code f.count p = some (p + f.size) := by
  cases hfits with
  | @text code hcode count val =>
    have hnext : nextPos len code count p =
        if (count : Int) < 0 then some len else if p + count ≤ len then some (p + count) else none := by
      rcases isText_iff.1 hcode with rfl | rfl <;> rfl
    rw [PackField.size_text hcode] at hin ⊢
    rw [hnext, if_neg (by omega), if_pos hin]
  | @hex code hcode count val hlen hdigits =>
    have hnext : nextPos len code count p = if (count : Int) < 0 then some (max (p - 1) 0)
        else if p + hexSize count ≤ len then some (p + hexSize count) else none := by
      rcases isHex_iff.1 hcode with rfl | rfl <;> rfl
    have hsize : hexSize count = ((count + 1) / 2 : Nat) := by
      rw [hexSize]
      split <;> omega
    rw [PackField.size_hex hcode] at hin ⊢
    rw [hnext, hsize, if_neg (by omega), if_pos hin]
  | @integers code hcode args =>
    obtain ⟨-, -, w, hw, hw0, -, -⟩ := isInteger_spec hcode
    have hnext : nextPos len code args.length p = if (args.length : Int) < 0 then some (p + (len - p) / w * w)
        else if p + args.length * w ≤ len then some (p + args.length * w) else none := (width_spec hw).2.2.2.2 _ _ _
    have hcast : ((args.length * w.toNat : Nat) : Int) = args.length * w := by
      rw [Int.natCast_mul, Int.toNat_of_nonneg (Int.le_of_lt hw0)]
    rw [PackField.size_integers hcode, hw, Option.getD_some, hcast] at hin ⊢
    rw [hnext, if_neg (by omega), if_pos hin]

theorem unpackFormat_far {format : List Char} {fields : List PackField} (hspells : Spells format fields)
    (hfits : ∀ f ∈ fields, f.Fits) (hfar : ¬ HexNear fields) {done : List UInt8}
    (h : input.bytes = done ++ packedBytes m fields) : ¬ FormatSafe (inputlen input) format done.length := by
  induction hspells generalizing done with
  | nil => exact absurd trivial hfar
  | @cons type format rest f fields hcode harg hspells ih =>
    have hleft := left_of_bytes hfits h
    have hsplit : input.bytes = done ++ f.bytes m ++ packedBytes m fields := by
      rw [h, packedBytes, List.flatMap_cons, ← List.append_assoc, packedBytes]
    have hsize := packedSize_cons f fields
    have hin : (done.length : Int) + f.size ≤ inputlen input := by omega
    have hpos : ((done ++ f.bytes m).length : Int) = done.length + f.size := by
      rw [List.length_append, Int.natCast_add, f.length_bytes m (hfits f List.mem_cons_self)]
    rw [FormatSafe_cons harg, hcode]
    simp only [nextPos_field (hfits f List.mem_cons_self) hin]
    rw [← hpos]
    rintro ⟨hitem, hrest⟩
    by_cases hhex : f.code.isHex = true → packedSize (f :: fields) < 2 ^ 30
    · exact ih (fun g hg => hfits g (List.mem_cons_of_mem f hg)) (fun hnear => hfar ⟨hhex, hnear⟩) hsplit hrest
    · obtain ⟨hcode, hmany⟩ := Classical.not_imp.1 hhex
      have hhalf : hexSize f.count = f.size := by
        rw [PackField.size, if_pos hcode, hexSize]
        split <;> omega
      have hfew : inputlen input - done.length < 2 ^ 30 := by
        rcases isHex_iff.1 hcode with hcode | hcode
        all_goals
          rw [hcode] at hitem
          exact hitem.2.2 (by rw [hhalf]; exact hin)
      omega

end

/-! ## Formats with their counts -/

theorem digitChar_spec : ∀ d : Fin 10, isDigit (Nat.digitChar d) = true ∧ digit (Nat.digitChar d) = d := by
  decide

theorem readDigits_digitChar {d : Nat} (hd : d < 10) (rest : List Char) {n : Nat} (hn : 10 * n + d < 2 ^ 31) :
    readDigits (Nat.digitChar d :: rest) n = readDigits rest (10 * n + d : Nat) := by
  obtain ⟨hdigit, hvalue⟩ := digitChar_spec ⟨d, hd⟩
  rw [readDigits, if_pos hdigit, hvalue, int32_some (by omega) (by omega), Option.bind_eq_bind, Option.bind_some,
    int32_some (by dsimp only; omega) (by dsimp only; omega), Option.bind_some]
  congr 1
  dsimp only
  omega

/-- The decimal digits of a number are read as the number. -/
theorem readDigits_toDigits (n : Nat) : ∀ rest : List Char, n < 2 ^ 31 →
    readDigits (Nat.toDigits 10 n ++ rest) 0 = readDigits rest n := by
  induction n using Nat.strong_induction_on with
  | _ n ih =>
    intro rest hn
    by_cases hone : n < 10
    · rw [Nat.toDigits_of_lt_base hone, List.singleton_append, ← Int.natCast_zero, readDigits_digitChar hone rest (by omega),
        Nat.mul_zero, Nat.zero_add]
    · rw [Nat.toDigits_of_base_le (by decide) (by omega), List.append_assoc, ih (n / 10) (by omega) _ (by omega),
        List.singleton_append, readDigits_digitChar (by omega) rest (by omega), Nat.div_add_mod]

theorem isDigit_toDigits (n : Nat) : ∀ c ∈ Nat.toDigits 10 n, isDigit c = true := by
  induction n using Nat.strong_induction_on with
  | _ n ih =>
    intro c hc
    by_cases hone : n < 10
    · rw [Nat.toDigits_of_lt_base hone, List.mem_singleton] at hc
      exact hc ▸ (digitChar_spec ⟨n, hone⟩).1
    · rw [Nat.toDigits_of_base_le (by decide) (by omega), List.mem_append, List.mem_singleton] at hc
      rcases hc with hc | rfl
      · exact ih (n / 10) (by omega) c hc
      · exact (digitChar_spec ⟨n % 10, by omega⟩).1

theorem exists_spelling {fields : List PackField} (h : ∀ f ∈ fields, f.count < 2 ^ 31) :
    ∃ format, Spells format fields ∧ ∀ arg, readDigits format arg = some (arg, format) := by
  induction fields with
  | nil => exact ⟨[], .nil, fun arg => rfl⟩
  | cons f fields ih =>
    obtain ⟨rest, hspells, hrest⟩ := ih fun g hg => h g (List.mem_cons_of_mem f hg)
    refine ⟨f.code.toChar :: (Nat.toDigits 10 f.count ++ rest), .cons (PackCode.ofChar_toChar f.code) ?_ hspells, fun arg => ?_⟩
    · obtain ⟨c, cs, hcs⟩ := List.exists_cons_of_ne_nil (Nat.toDigits_ne_nil (n := f.count) (b := 10))
      have hread := readDigits_toDigits f.count rest (h f List.mem_cons_self)
      have hdigit : isDigit c = true := isDigit_toDigits f.count c (by rw [hcs]; exact List.mem_cons_self)
      rw [hcs, List.cons_append] at hread ⊢
      rw [readArg, if_pos hdigit, hread, hrest]
    · rw [readDigits, if_neg]
      cases f.code <;> decide

/-- **Where `pack` and `unpack` are inverse**: where the size of the output and its terminator is an `int`, and no hex digits
are a GiB or more before the end. -/
theorem pack_unpack_iff (m : ByteMaps) (fresh : Nat → UInt8) {format : List Char} {args : PackArgs} {fields : List PackField}
    (h : Matches format args.args fields) : PacksBack m fresh format args fields ↔
      packedSize fields ≠ 2 ^ 31 - 1 ∧ (packedSize fields + 8 < 2 ^ 31 → HexNear fields) := by
  obtain ⟨hbytes, hnone, herror⟩ := pack_fields m fresh h
  have hlength := length_packedBytes m h.fits
  refine ⟨fun hpacks => ?_, fun ⟨hne, hnear⟩ => ?_⟩
  · rcases hpacks with ⟨hge, -⟩ | ⟨bytes, hpack, hsize, hback⟩
    · exact ⟨by omega, fun hlt => by omega⟩
    · have hne : packedSize fields ≠ 2 ^ 31 - 1 := fun heq => by rw [hnone heq] at hpack; cases hpack
      refine ⟨hne, fun hlt => ?_⟩
      rw [hbytes (by omega)] at hpack
      obtain rfl := Except.ok.inj (Option.some.inj hpack)
      by_contra hfar
      have hcount : ∀ f ∈ fields, f.count < 2 ^ 31 := fun f hf => h.count_lt f hf (by omega)
      obtain ⟨format', hspells, -⟩ := exists_spelling hcount
      have hlt' : (packedBytes m fields).length + 8 < 2 ^ 31 := by rw [hlength]; exact hlt
      obtain ⟨fuel, hfuel⟩ := hback ⟨packedBytes m fields, hlt'⟩ rfl format' hspells
      have hunsafe := unpackFormat_far hspells h.fits hfar
        (show (⟨packedBytes m fields, hlt'⟩ : StringBytes).bytes = [] ++ packedBytes m fields from rfl)
      rw [unpack, unpackFormat_noResult format' 0 [] fuel (Int.le_refl 0) (inputlen_range _).1 hunsafe] at hfuel
      cases hfuel
  · by_cases hge : 2 ^ 31 ≤ packedSize fields
    · exact .inl ⟨hge, herror hge⟩
    · refine .inr ⟨packedBytes m fields, hbytes (by omega), ?_, fun input hinput format' hspells => ?_⟩
      · rw [hlength, (computeSize_fields h.fits 0).1 (by omega), Int.zero_add]
      · have hlt := input.length_lt
        rw [hinput, hlength] at hlt
        obtain ⟨n, hn⟩ := unpackFormat_fields hspells h.fits (hnear hlt)
          (show input.bytes = [] ++ packedBytes m fields from hinput)
        exact ⟨n, hn n (Nat.le_refl n) []⟩

def packArg (bytes : List UInt8) (h : bytes.length + 8 < 2 ^ 31) (long : Int) : PackArg :=
  ⟨⟨bytes, h⟩, long, [0, 0, 0, 0], [0, 0, 0, 0, 0, 0, 0, 0], rfl, rfl⟩

theorem pack_unpack_mixed : PacksBack ⟨false⟩ (fun _ => 7) ['a', '*', 'H', '3', 's']
    ⟨[packArg [97, 98, 0] (by decide) 0, packArg [48, 65, 102, 49] (by decide) 0, packArg [] (by decide) 65534], by decide⟩
    [⟨.a, 3, [packArg [97, 98, 0] (by decide) 0]⟩, ⟨.H, 3, [packArg [48, 65, 102, 49] (by decide) 0]⟩,
      ⟨.s, 1, [packArg [] (by decide) 65534]⟩] := by
  have hsize : packedSize [⟨.a, 3, [packArg [97, 98, 0] (by decide) 0]⟩, ⟨.H, 3, [packArg [48, 65, 102, 49] (by decide) 0]⟩,
      ⟨.s, 1, [packArg [] (by decide) 65534]⟩] = 7 := rfl
  have hrest : packedSize [⟨.H, 3, [packArg [48, 65, 102, 49] (by decide) 0]⟩, ⟨.s, 1, [packArg [] (by decide) 65534]⟩] = 4 :=
    rfl
  have hdigits : ∀ n ∈ (packArg [48, 65, 102, 49] (by decide) 0).string.bytes.take 3, (hexDigit n).isSome :=
    show ∀ n ∈ [(48 : UInt8), 65, 102], (hexDigit n).isSome from List.forall_mem_cons.2
      ⟨rfl, List.forall_mem_cons.2 ⟨rfl, List.forall_mem_cons.2 ⟨rfl, fun _ h => nomatch h⟩⟩⟩
  refine (pack_unpack_iff ⟨false⟩ (fun _ => 7)
    (.cons rfl rfl rfl (.text rfl 3 _) (.cons rfl rfl rfl (.hex rfl (by decide) hdigits)
      (.cons rfl rfl rfl (.integers rfl [_]) .nil)))).2 ⟨by omega, fun _ => ⟨?_, ?_, ?_, trivial⟩⟩
  · exact fun h => nomatch h
  · exact fun _ => by omega
  · exact fun h => nomatch h

/-- There is no room for the terminator of the greatest size that the first pass computes. -/
theorem pack_terminator_lost : ∃ (m : ByteMaps) (fresh : Nat → UInt8) (format : List Char) (args : PackArgs)
    (fields : List PackField), Matches format args.args fields ∧ ¬ PacksBack m fresh format args fields := by
  have hmatches : Matches ['a', '2', '1', '4', '7', '4', '8', '3', '6', '4', '7'] [packArg [120] (by decide) 0]
      [⟨.a, 2147483647, [packArg [120] (by decide) 0]⟩] := .cons rfl rfl rfl (.text rfl 2147483647 _) .nil
  have hsize : packedSize [⟨.a, 2147483647, [packArg [120] (by decide) 0]⟩] = 2 ^ 31 - 1 := rfl
  refine ⟨⟨true⟩, fun _ => 0, _, ⟨_, by decide⟩, _, hmatches, ?_⟩
  rintro (⟨hge, -⟩ | ⟨bytes, hpack, -⟩)
  · omega
  · rw [(pack_fields ⟨true⟩ (fun _ => 0) hmatches).2.1 hsize] at hpack
    cases hpack

end Vm
end ObjectScript
