import Mathlib.Data.Nat.Bitwise
import ObjectScript.Vm.Pack
import ObjectScript.Vm.UnpackSafety
/-!
# The numbers of pack and unpack

The bytes that `pack` takes out of a `long` are those of the least weight, whichever order the machine has; `unpack` puts them
back to where they were and fills the others up with the sign.  So a number comes back reduced to the width and the sign
of its letter (`PackCode.reduce`).

`packNumber` and `unpackTurn` are compared by words: which bytes of the `long` a letter takes, in which order, and where
`unpack` puts them (`maps_byte` and its like).
-/
namespace ObjectScript
namespace Vm

/-- A number reduced to the width and the sign of its letter. -/
def PackCode.reduce (code : PackCode) (long : Int) : Int :=
  match code with
  | c => (BitVec.ofInt 8 long).toInt
  | C => (BitVec.ofInt 8 long).toNat
  | s => (BitVec.ofInt 16 long).toInt
  | S | n | v => (BitVec.ofInt 16 long).toNat
  | i | l => toSignedInt long
  | I | L | N | V => toUnsignedInt long
  | _ => long

def PackCode.isInteger : PackCode → Bool
  | c | C | s | S | n | v | i | I | l | L | N | V => true
  | _ => false

/-! ## Weights -/

/-- A map that takes the bytes of the least weight out of a `long`, and back; `sign` is where the greatest of them is. -/
structure Maps (m : ByteMaps) (map : List Nat) (w sign : Nat) : Prop where
  back : ∀ (v : Int) (fill : UInt8),
    m.byWeight ((map.zip (m.packLong v w map)).foldl (fun cresult p => cresult.set p.1 p.2) (List.replicate longSize fill)) =
      LittleEndian.bytes w (v % 2 ^ 64).toNat ++ List.replicate (longSize - w) fill
  length : ∀ v : Int, (m.packLong v w map).length = w
  top : ∀ v : Int, (m.packLong v w map)[sign]? = (LittleEndian.bytes w (v % 2 ^ 64).toNat)[w - 1]?

theorem maps_byte (m : ByteMaps) : Maps m m.byte_map 1 0 := by
  obtain ⟨_ | _⟩ := m <;> exact ⟨fun _ _ => rfl, fun _ => rfl, fun _ => rfl⟩

theorem maps_machine_short (m : ByteMaps) : Maps m m.machine_endian_short_map 2 (if m.machine_little_endian then 1 else 0) := by
  obtain ⟨_ | _⟩ := m <;> exact ⟨fun _ _ => rfl, fun _ => rfl, fun _ => rfl⟩

theorem maps_big_short (m : ByteMaps) : Maps m m.big_endian_short_map 2 0 := by
  obtain ⟨_ | _⟩ := m <;> exact ⟨fun _ _ => rfl, fun _ => rfl, fun _ => rfl⟩

theorem maps_little_short (m : ByteMaps) : Maps m m.little_endian_short_map 2 1 := by
  obtain ⟨_ | _⟩ := m <;> exact ⟨fun _ _ => rfl, fun _ => rfl, fun _ => rfl⟩

theorem maps_int (m : ByteMaps) : Maps m m.int_map 4 (if m.machine_little_endian then 3 else 0) := by
  obtain ⟨_ | _⟩ := m <;> exact ⟨fun _ _ => rfl, fun _ => rfl, fun _ => rfl⟩

theorem maps_machine_long (m : ByteMaps) : Maps m m.machine_endian_long_map 4 (if m.machine_little_endian then 3 else 0) := by
  obtain ⟨_ | _⟩ := m <;> exact ⟨fun _ _ => rfl, fun _ => rfl, fun _ => rfl⟩

theorem maps_big_long (m : ByteMaps) : Maps m m.big_endian_long_map 4 0 := by
  obtain ⟨_ | _⟩ := m <;> exact ⟨fun _ _ => rfl, fun _ => rfl, fun _ => rfl⟩

theorem maps_little_long (m : ByteMaps) : Maps m m.little_endian_long_map 4 3 := by
  obtain ⟨_ | _⟩ := m <;> exact ⟨fun _ _ => rfl, fun _ => rfl, fun _ => rfl⟩

def OfWidth (w : Nat) : Prop := w = 1 ∨ w = 2 ∨ w = 4

theorem long_filled (m : ByteMaps) {memory : List UInt8} {w n : Nat} (hw : OfWidth w) (issigned : Bool)
    (h : m.byWeight memory = LittleEndian.bytes w n ++ List.replicate (longSize - w) (if issigned then 0xff else 0)) :
    m.long memory = if issigned then (n : Int) % 256 ^ w - 256 ^ w else n % 256 ^ w := by
  have hfill : LittleEndian.value (List.replicate (longSize - w) (if issigned then 0xff else 0)) =
      if issigned then 256 ^ (8 - w) - 1 else 0 := by
    rcases hw with rfl | rfl | rfl <;> cases issigned <;> rfl
  have hvalue : LittleEndian.value (m.byWeight memory) =
      n % 256 ^ w + 256 ^ w * (if issigned then 256 ^ (8 - w) - 1 else 0) := by
    rw [h, LittleEndian.value_append, LittleEndian.length_bytes, LittleEndian.value_bytes_mod w, hfill]
  unfold ByteMaps.long
  dsimp only
  rw [hvalue]
  rcases hw with rfl | rfl | rfl
  all_goals
    cases issigned
    · rw [if_neg Bool.false_ne_true, if_neg Bool.false_ne_true]
      omega
    · rw [if_pos rfl, if_pos rfl]
      omega

/-- The number of which a `long` keeps the lowest bytes. -/
theorem mod_word {w : Nat} (hw : OfWidth w) (v : Int) : ((v % 2 ^ 64).toNat : Int) % 256 ^ w = v % 256 ^ w := by
  rcases hw with rfl | rfl | rfl <;> omega

theorem unpackLong_packLong {m : ByteMaps} {map : List Nat} {w sign : Nat} (hmap : Maps m map w sign) (hw : OfWidth w)
    (v : Int) (issigned : Bool) :
    m.unpackLong (m.packLong v w map) issigned map = if issigned then v % 256 ^ w - 256 ^ w else v % 256 ^ w := by
  rw [ByteMaps.unpackLong, long_filled m hw issigned (hmap.back v _), mod_word hw]

theorem sign_bit (b : UInt8) : (b &&& 0x80 != 0) = decide (128 ≤ b.toNat) := by
  have hlt := b.toNat_lt
  have hand : (b &&& 0x80).toNat = (b.toNat.testBit 7).toNat * 2 ^ 7 := by
    rw [UInt8.toNat_and]
    exact Nat.and_two_pow b.toNat 7
  have hbit : b.toNat.testBit 7 = decide (128 ≤ b.toNat) := by
    rw [Nat.testBit_eq_decide_div_mod_eq]
    exact decide_eq_decide.2 (by omega)
  rw [hbit] at hand
  by_cases h : 128 ≤ b.toNat
  · rw [decide_eq_true h] at hand ⊢
    rw [bne_iff_ne]
    exact fun hzero => by rw [hzero] at hand; cases hand
  · rw [decide_eq_false h] at hand ⊢
    rw [bne_eq_false_iff_eq]
    exact UInt8.toNat_inj.1 hand

theorem top_byte {w : Nat} (hw : OfWidth w) (n : Nat) : ∃ b, (LittleEndian.bytes w n)[w - 1]? = some b ∧
    (128 ≤ b.toNat ↔ 256 ^ w ≤ 2 * ((n : Int) % 256 ^ w)) := by
  rcases hw with rfl | rfl | rfl
  · refine ⟨UInt8.ofNat n, rfl, ?_⟩
    rw [UInt8.toNat_ofNat']
    omega
  · refine ⟨UInt8.ofNat (n / 256), rfl, ?_⟩
    rw [UInt8.toNat_ofNat']
    omega
  · refine ⟨UInt8.ofNat (n / 256 / 256 / 256), rfl, ?_⟩
    rw [UInt8.toNat_ofNat']
    omega

theorem signed_byte (v : Int) :
    (if 256 ^ 1 ≤ 2 * (v % 256 ^ 1) then v % 256 ^ 1 - 256 ^ 1 else v % 256 ^ 1) = (BitVec.ofInt 8 v).toInt := by
  rw [BitVec.toInt_ofInt, Int.bmod_def]
  split <;> split <;> omega

theorem unsigned_byte (v : Int) : v % 256 ^ 1 = ((BitVec.ofInt 8 v).toNat : Int) := by
  rw [BitVec.toNat_ofInt]
  omega

theorem signed_short (v : Int) :
    (if 256 ^ 2 ≤ 2 * (v % 256 ^ 2) then v % 256 ^ 2 - 256 ^ 2 else v % 256 ^ 2) = (BitVec.ofInt 16 v).toInt := by
  rw [BitVec.toInt_ofInt, Int.bmod_def]
  split <;> split <;> omega

theorem unsigned_short (v : Int) : v % 256 ^ 2 = ((BitVec.ofInt 16 v).toNat : Int) := by
  rw [BitVec.toNat_ofInt]
  omega

theorem signed_int (v : Int) :
    (if 256 ^ 4 ≤ 2 * (v % 256 ^ 4) then v % 256 ^ 4 - 256 ^ 4 else v % 256 ^ 4) = toSignedInt v := by
  rw [toSignedInt, BitVec.toInt_ofInt, Int.bmod_def]
  split <;> split <;> omega

theorem unsigned_int (v : Int) : v % 256 ^ 4 = toUnsignedInt v := by
  rw [toUnsignedInt, BitVec.toNat_ofInt]
  omega

theorem orLong_zero {w : Int} (hge : -2 ^ 63 ≤ w) (hlt : w < 2 ^ 63) : orLong 0 w = w := by
  rw [orLong, show BitVec.ofInt 64 0 = 0#64 from rfl, BitVec.zero_or, BitVec.toInt_ofInt, Int.bmod_def]
  split <;> omega

/-- The or that sets the bits above an `int` changes no negative `int`. -/
theorem orLong_sign {w : Int} (hge : -2 ^ 31 ≤ w) (hneg : w < 0) : orLong (-2 ^ 31) w = w := by
  have hor : BitVec.ofInt 64 (-2 ^ 31) ||| BitVec.ofInt 64 w = BitVec.ofInt 64 w := by
    obtain ⟨k, hk⟩ : ∃ k : Nat, w = -2 ^ 31 + k := ⟨(w + 2 ^ 31).toNat, by omega⟩
    have hlt : k < 2 ^ 31 := by omega
    have hword : (BitVec.ofInt 64 w).toNat = 2 ^ 31 * (2 ^ 33 - 1) ||| k := by
      rw [BitVec.toNat_ofInt, ← Nat.two_pow_add_eq_or_of_lt hlt]
      omega
    apply BitVec.eq_of_toNat_eq
    rw [BitVec.toNat_or, hword, show (BitVec.ofInt 64 (-2 ^ 31)).toNat = 2 ^ 31 * (2 ^ 33 - 1) from rfl, ← Nat.or_assoc,
      Nat.or_self]
  rw [orLong, hor, BitVec.toInt_ofInt, Int.bmod_def]
  split <;> omega

/-! ## Reading what was packed -/

section

variable {m : ByteMaps} {input : StringBytes} {done bs rest : List UInt8}

theorem readByte_at (h : input.bytes = done ++ bs ++ rest) {k : Nat} {b : UInt8} (hb : bs[k]? = some b) :
    readByte input (done.length + k) = some b := by
  have hk : k < bs.length := (List.getElem?_eq_some_iff.1 hb).1
  rw [readByte, if_pos (by omega), h, show ((done.length : Int) + k).toNat = done.length + k by omega,
    List.append_assoc, List.getElem?_append_right (Nat.le_add_right _ _), Nat.add_sub_cancel_left,
    List.getElem?_append_left hk, hb]

theorem readBytes_at : ∀ {bs done : List UInt8}, input.bytes = done ++ bs ++ rest →
    readBytes input done.length bs.length = some bs
  | [], _, _ => rfl
  | b :: bs, done, h => by
    have hb : readByte input (done.length + (0 : Nat)) = some b := readByte_at h rfl
    have hrest : readBytes input (done ++ [b]).length bs.length = some bs :=
      readBytes_at (by rw [h, List.append_assoc, List.append_assoc, List.append_assoc]; rfl)
    rw [List.length_append, List.length_singleton, Int.natCast_add, Int.natCast_one] at hrest
    rw [Int.natCast_zero, Int.add_zero] at hb
    rw [List.length_cons, readBytes, hb, Option.bind_eq_bind, Option.bind_some, hrest]
    rfl

variable {map : List Nat} {w sign : Nat} {v : Int}

theorem readLong_packed (hmap : Maps m map w sign) (hw : OfWidth w) (h : input.bytes = done ++ m.packLong v w map ++ rest)
    (issigned : Bool) : readLong m input done.length w issigned map =
      some (if issigned then v % 256 ^ w - 256 ^ w else v % 256 ^ w) := by
  have hread := readBytes_at h
  rw [hmap.length] at hread
  rw [readLong, hread, Option.map_some, unpackLong_packLong hmap hw]

theorem readSign_packed (hmap : Maps m map w sign) (hw : OfWidth w) (h : input.bytes = done ++ m.packLong v w map ++ rest) :
    readSign input (done.length + sign) = some (decide (256 ^ w ≤ 2 * (v % 256 ^ w))) := by
  obtain ⟨b, hb, htop⟩ := top_byte hw (v % 2 ^ 64).toNat
  rw [mod_word hw] at htop
  rw [← hmap.top v] at hb
  rw [readSign, readByte_at h hb, Option.map_some, sign_bit, decide_eq_decide.2 htop]

theorem natCast_sign (m : ByteMaps) {k : Nat} {i : Int} (h : (k : Int) = i) :
    ((if m.machine_little_endian then k else 0 : Nat) : Int) = if m.machine_little_endian then i else 0 := by
  split
  · exact h
  · rfl

theorem readChar_packed (h : input.bytes = done ++ m.packLong v 1 m.byte_map ++ rest) (signed : Bool) :
    readChar m input signed done.length = some (if signed then (BitVec.ofInt 8 v).toInt else (BitVec.ofInt 8 v).toNat) := by
  have hread := readLong_packed (maps_byte m) (.inl rfl) h
  have hsign := readSign_packed (maps_byte m) (.inl rfl) h
  rw [Int.natCast_zero, Int.add_zero] at hsign
  cases signed with
  | true =>
    simp only [readChar, if_true, hsign, Option.bind_eq_bind, Option.bind_some, hread, decide_eq_true_eq]
    rw [signed_byte]
  | false =>
    simp only [readChar, Bool.false_eq_true, if_false, Option.bind_eq_bind, Option.bind_some, hread]
    rw [unsigned_byte]

theorem readShort_signed (h : input.bytes = done ++ m.packLong v 2 m.machine_endian_short_map ++ rest) :
    readShort m input true m.machine_endian_short_map done.length = some (BitVec.ofInt 16 v).toInt := by
  have hread := readLong_packed (maps_machine_short m) (.inr (.inl rfl)) h
  have hsign := readSign_packed (maps_machine_short m) (.inr (.inl rfl)) h
  rw [natCast_sign m Int.natCast_one] at hsign
  simp only [readShort, if_true, hsign, Option.bind_eq_bind, Option.bind_some, hread, decide_eq_true_eq]
  rw [signed_short]

theorem readShort_unsigned (hmap : Maps m map 2 sign) (h : input.bytes = done ++ m.packLong v 2 map ++ rest) :
    readShort m input false map done.length = some ((BitVec.ofInt 16 v).toNat : Int) := by
  have hread := readLong_packed hmap (.inr (.inl rfl)) h
  simp only [readShort, Bool.false_eq_true, if_false, Option.bind_eq_bind, Option.bind_some, hread]
  rw [unsigned_short]

theorem readInt_packed (h : input.bytes = done ++ m.packLong v 4 m.int_map ++ rest) (signed : Bool) :
    readInt m input signed done.length = some (if signed then toSignedInt v else toUnsignedInt v) := by
  have hread := readLong_packed (maps_int m) (.inr (.inr rfl)) h
  have hsign := readSign_packed (maps_int m) (.inr (.inr rfl)) h
  rw [natCast_sign m (show ((3 : Nat) : Int) = 3 from rfl)] at hsign
  cases signed with
  | true =>
    simp only [readInt, if_true, hsign, Option.bind_eq_bind, Option.bind_some, hread, decide_eq_true_eq]
    rw [signed_int]
  | false =>
    simp only [readInt, Bool.false_eq_true, if_false, Option.bind_eq_bind, Option.bind_some, hread]
    rw [unsigned_int]

/-- The value that is or-ed has the bits above an `int` set already, or not. -/
theorem readLong32_packed (hmap : Maps m map 4 sign) (h : input.bytes = done ++ m.packLong v 4 map ++ rest) (signed : Bool) :
    readLong32 m input signed sign map done.length = some (if signed then toSignedInt v else toUnsignedInt v) := by
  have hread := readLong_packed hmap (.inr (.inr rfl)) h
  have hsign := readSign_packed hmap (.inr (.inr rfl)) h
  have hor : orLong (if 256 ^ 4 ≤ 2 * (v % 256 ^ 4) then -2 ^ 31 else 0)
      (if 256 ^ 4 ≤ 2 * (v % 256 ^ 4) then v % 256 ^ 4 - 256 ^ 4 else v % 256 ^ 4) = toSignedInt v := by
    rw [← signed_int]
    by_cases hneg : 256 ^ 4 ≤ 2 * (v % 256 ^ 4)
    · rw [if_pos hneg, if_pos hneg, orLong_sign (by omega) (by omega)]
    · rw [if_neg hneg, if_neg hneg, orLong_zero (by omega) (by omega)]
  have hsame : BitVec.ofInt 32 (toSignedInt v) = BitVec.ofInt 32 v := BitVec.ofInt_toInt
  simp only [readLong32, hsign, Option.bind_eq_bind, Option.bind_some, hread, decide_eq_true_eq]
  rw [hor, toSignedInt, toUnsignedInt, hsame, toSignedInt, toUnsignedInt]

variable {val : PackArg}

theorem length_packNumber (m : ByteMaps) {code : PackCode} (hcode : code.isInteger = true) (val : PackArg) :
    ((m.packNumber code val).length : Int) = code.width.getD 0 := by
  cases code with
  | c | C => exact congrArg Nat.cast ((maps_byte m).length val.long)
  | s | S => exact congrArg Nat.cast ((maps_machine_short m).length val.long)
  | n => exact congrArg Nat.cast ((maps_big_short m).length val.long)
  | v => exact congrArg Nat.cast ((maps_little_short m).length val.long)
  | i | I => exact congrArg Nat.cast ((maps_int m).length val.long)
  | l | L => exact congrArg Nat.cast ((maps_machine_long m).length val.long)
  | N => exact congrArg Nat.cast ((maps_big_long m).length val.long)
  | V => exact congrArg Nat.cast ((maps_little_long m).length val.long)
  | X | position | a | A | h | H | x | f | d => cases hcode

/-- **A turn of `unpack` returns the number that `pack` wrote**, reduced. -/
theorem unpackTurn_packed {code : PackCode} (hcode : code.isInteger = true)
    (h : input.bytes = done ++ m.packNumber code val ++ rest) (arg argb i size : Int) (values : List Unpacked) :
    unpackTurn m input code arg argb ⟨i, size, done.length, values⟩ =
      some (.ok ⟨i, size, done.length, values ++ [.number (code.reduce val.long)]⟩) := by
  cases code with
  | c => simp only [unpackTurn, decide_true, readChar_packed h]; rfl
  | C => simp only [unpackTurn, reduceCtorEq, decide_false, readChar_packed h]; rfl
  | s => simp only [unpackTurn, readShort_signed h]; rfl
  | S => simp only [unpackTurn, readShort_unsigned (maps_machine_short m) h]; rfl
  | n => simp only [unpackTurn, readShort_unsigned (maps_big_short m) h]; rfl
  | v => simp only [unpackTurn, readShort_unsigned (maps_little_short m) h]; rfl
  | i => simp only [unpackTurn, decide_true, readInt_packed h]; rfl
  | I => simp only [unpackTurn, reduceCtorEq, decide_false, readInt_packed h]; rfl
  | l =>
    have hread := readLong32_packed (maps_machine_long m) h true
    rw [natCast_sign m (show ((3 : Nat) : Int) = 3 from rfl)] at hread
    simp only [unpackTurn, hread]
    rfl
  | L =>
    have hread := readLong32_packed (maps_machine_long m) h false
    rw [natCast_sign m (show ((3 : Nat) : Int) = 3 from rfl)] at hread
    simp only [unpackTurn, hread]
    rfl
  | N =>
    have hread := readLong32_packed (maps_big_long m) h false
    rw [Int.natCast_zero] at hread
    simp only [unpackTurn, hread]
    rfl
  | V =>
    have hread : readLong32 m input false 3 m.little_endian_long_map done.length = some (toUnsignedInt val.long) :=
      readLong32_packed (maps_little_long m) h false
    simp only [unpackTurn, hread]
    rfl
  | X | position | a | A | h | H | x | f | d => cases hcode

end

end Vm
end ObjectScript
