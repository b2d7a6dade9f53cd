import Mathlib.Data.List.DropRight
import ObjectScript.Vm.PackNumbers
/-!
# The strings of pack and unpack

What `pack` writes at a position stands between what was written before and what is still to be written.  A string is cut or
padded to its count, and `unpack` takes the padding away again; two hex digits go into a byte, and come back in lower case.

The lemmas speak of a position in an output of which a part is already written, so that the items of a format can be put
one behind the other.
-/
namespace ObjectScript
namespace Vm

/-! ## Writing -/

theorem writeByte_at (done : List UInt8) (old : UInt8) (rest : List UInt8) (b : UInt8) :
    writeByte (done ++ old :: rest) done.length b = some (done ++ b :: rest) := by
  have hlt : ((done.length : Nat) : Int) < ((done ++ old :: rest).length : Nat) := by
    rw [List.length_append, List.length_cons]
    omega
  rw [writeByte, if_pos ⟨Int.natCast_nonneg _, hlt⟩, Int.toNat_natCast, List.set_append_right _ _ (Nat.le_refl _), Nat.sub_self,
    List.set_cons_zero]

theorem orByte_at (done : List UInt8) (old : UInt8) (rest : List UInt8) (b : UInt8) :
    orByte (done ++ old :: rest) done.length b = some (done ++ (old ||| b) :: rest) := by
  have hold : (done ++ old :: rest)[done.length]? = some old := by
    rw [List.getElem?_append_right (Nat.le_refl _), Nat.sub_self, List.getElem?_cons_zero]
  simp only [orByte, Int.natCast_nonneg, if_true, Int.toNat_natCast, hold, Option.bind_eq_bind, Option.bind_some]
  exact writeByte_at done old rest (old ||| b)

theorem length_snoc (done : List UInt8) (b : UInt8) : ((done ++ [b]).length : Int) = done.length + 1 := by
  rw [List.length_append, List.length_singleton, Int.natCast_add, Int.natCast_one]

theorem writeBytes_at : ∀ (bs done old rest : List UInt8), old.length = bs.length →
    writeBytes (done ++ old ++ rest) done.length bs = some (done ++ bs ++ rest)
  | [], done, old, rest, h => by rw [List.length_eq_zero_iff.1 h, writeBytes]
  | b :: bs, done, [], rest, h => by cases h
  | b :: bs, done, o :: old, rest, h => by
    have hfirst := writeByte_at done o (old ++ rest) b
    have hrest := writeBytes_at bs (done ++ [b]) old rest (Nat.succ.inj h)
    rw [length_snoc] at hrest
    simp only [List.append_assoc, List.cons_append, List.nil_append] at hfirst hrest ⊢
    simp only [writeBytes, hfirst, Option.bind_eq_bind, Option.bind_some]
    exact hrest

/-! ## Padding -/

theorem removePadding_at {input : StringBytes} {done : List UInt8} (pad : UInt8) (bs : List UInt8) :
    ∀ rest, input.bytes = done ++ bs ++ rest →
      removePadding input done.length pad bs.length = some (((bs.rdropWhile (· == pad)).length : Int) - 1) := by
  induction bs using List.reverseRecOn with
  | nil => exact fun _ _ => rfl
  | append_singleton bs b ih =>
    intro rest h
    have hread : readByte input (done.length + bs.length) = some b :=
      readByte_at h (by rw [List.getElem?_append_right (Nat.le_refl _), Nat.sub_self, List.getElem?_cons_zero])
    rw [List.length_append, List.length_singleton]
    simp only [removePadding, hread, Option.bind_eq_bind, Option.bind_some]
    by_cases hb : b = pad
    · rw [if_neg (not_not.2 hb), List.rdropWhile_concat_pos (· == pad) _ _ (beq_iff_eq.2 hb)]
      exact ih ([b] ++ rest) (by rw [h, List.append_assoc, List.append_assoc, List.append_assoc])
    · rw [if_pos hb, List.rdropWhile_concat_neg (· == pad) _ _ (fun h => hb (beq_iff_eq.1 h)), length_snoc, Int.add_sub_cancel]

theorem rdropWhile_padded (pad : UInt8) (bs : List UInt8) : ∀ n : Nat,
    (bs ++ List.replicate n pad).rdropWhile (· == pad) = bs.rdropWhile (· == pad)
  | 0 => by rw [List.replicate_zero, List.append_nil]
  | n + 1 => by
    rw [List.replicate_succ', ← List.append_assoc, List.rdropWhile_concat_pos (· == pad) _ _ (beq_iff_eq.2 rfl)]
    exact rdropWhile_padded pad bs n

theorem readBytes_unpadded {input : StringBytes} {done bs rest : List UInt8} (pad : UInt8)
    (h : input.bytes = done ++ bs ++ rest) :
    readBytes input done.length (bs.rdropWhile (· == pad)).length = some (bs.rdropWhile (· == pad)) := by
  obtain ⟨tail, htail⟩ := List.rdropWhile_prefix (· == pad) (l := bs)
  have hsplit : input.bytes = done ++ bs.rdropWhile (· == pad) ++ (tail ++ rest) := by
    rw [h, List.append_assoc done, List.append_assoc done, ← List.append_assoc _ tail, htail]
  exact readBytes_at hsplit

/-! ## Hex digits -/

def digitOf (n : UInt8) : UInt8 := (hexDigit n).getD 0

/-- The digit that `unpack` writes. -/
def hexChar (cc : UInt8) : UInt8 := if cc < 10 then cc + 48 else cc + (97 - 10)

def lowerHex (n : UInt8) : UInt8 := if 65 ≤ n ∧ n ≤ 70 then n + 32 else n

/-- The bytes of hex digits: of two of them the first is at `shift`, the second in the other half. -/
def hexBytes (shift : UInt8) : List UInt8 → List UInt8
  | [] => []
  | [d] => [0 ||| d <<< shift]
  | d :: e :: ds => (0 ||| d <<< shift ||| e <<< ((shift + 4) &&& 7)) :: hexBytes shift ds

theorem length_hexBytes (shift : UInt8) : ∀ ds : List UInt8, (hexBytes shift ds).length = (ds.length + 1) / 2
  | [] => rfl
  | [_] => by rw [hexBytes, List.length_singleton, List.length_singleton]
  | d :: e :: ds => by
    rw [hexBytes, List.length_cons, length_hexBytes shift ds, List.length_cons, List.length_cons]
    omega

theorem hexDigit_cases : ∀ n : Fin 256, (hexDigit (UInt8.ofNat n)).isSome →
    digitOf (UInt8.ofNat n) < 16 ∧ hexChar (digitOf (UInt8.ofNat n)) = lowerHex (UInt8.ofNat n) := by
  decide +kernel

theorem hexDigit_spec {n : UInt8} (h : (hexDigit n).isSome) :
    hexDigit n = some (digitOf n) ∧ digitOf n < 16 ∧ hexChar (digitOf n) = lowerHex n := by
  have hn : UInt8.ofNat n.toNat = n := UInt8.ofNat_toNat
  have hcases := hexDigit_cases ⟨n.toNat, n.toNat_lt⟩
  rw [hn] at hcases
  obtain ⟨d, hd⟩ := Option.isSome_iff_exists.1 h
  exact ⟨by rw [digitOf, hd, Option.getD_some], hcases h⟩

theorem nibbles : ∀ d e : Fin 16, ∀ high : Bool, let shift : UInt8 := if high then 4 else 0
    let byte := 0 ||| UInt8.ofNat d <<< shift ||| UInt8.ofNat e <<< ((shift + 4) &&& 7)
    (byte >>> shift) &&& 0xf = UInt8.ofNat d ∧ (byte >>> ((shift + 4) &&& 7)) &&& 0xf = UInt8.ofNat e := by
  decide +kernel

theorem nibbles_at {d e shift : UInt8} (hd : d < 16) (he : e < 16) (hshift : shift = 0 ∨ shift = 4) :
    ((0 ||| d <<< shift ||| e <<< ((shift + 4) &&& 7)) >>> shift) &&& 0xf = d ∧
    ((0 ||| d <<< shift ||| e <<< ((shift + 4) &&& 7)) >>> ((shift + 4) &&& 7)) &&& 0xf = e := by
  have h := fun high => nibbles ⟨d.toNat, hd⟩ ⟨e.toNat, he⟩ high
  simp only [UInt8.ofNat_toNat] at h
  rcases hshift with rfl | rfl
  · exact h false
  · exact h true

theorem nibble_at {d shift : UInt8} (hd : d < 16) (hshift : shift = 0 ∨ shift = 4) :
    ((0 ||| d <<< shift) >>> shift) &&& 0xf = d := by
  have hboth := (nibbles_at hd (show (0 : UInt8) < 16 by decide) hshift).1
  rwa [UInt8.zero_shiftLeft, UInt8.or_zero] at hboth

theorem shift_twice {shift : UInt8} (hshift : shift = 0 ∨ shift = 4) : (((shift + 4) &&& 7) + 4) &&& 7 = shift := by
  rcases hshift with rfl | rfl <;> rfl

theorem packHex_first (code : PackCode) {n : UInt8} (hn : (hexDigit n).isSome) (k : Nat) (v done : List UInt8) (old : UInt8)
    (rest : List UInt8) (shift : UInt8) :
    packHex code (k + 1) (n :: v) (done ++ old :: rest) (done.length - 1) shift 1 =
      packHex code k v (done ++ (0 ||| digitOf n <<< shift) :: rest) done.length ((shift + 4) &&& 7) 0 := by
  rw [packHex, (hexDigit_spec hn).1]
  have hpos : (done.length : Int) - 1 + 1 = done.length := by omega
  simp only [ne_eq, one_ne_zero, not_false_eq_true, if_true, hpos, writeByte_at, orByte_at, Option.bind_eq_bind, Option.bind_some]
  rfl

theorem packHex_second (code : PackCode) {n : UInt8} (hn : (hexDigit n).isSome) (k : Nat) (v done : List UInt8) (old : UInt8)
    (rest : List UInt8) (shift : UInt8) :
    packHex code (k + 1) (n :: v) (done ++ old :: rest) done.length shift 0 =
      packHex code k v (done ++ (old ||| digitOf n <<< shift) :: rest) done.length ((shift + 4) &&& 7) 1 := by
  rw [packHex, (hexDigit_spec hn).1]
  simp only [ne_eq, not_true_eq_false, if_false, orByte_at, Option.bind_eq_bind, Option.bind_some]

/-- **The digits become the bytes.** -/
theorem packHex_at (code : PackCode) {shift : UInt8} (hshift : shift = 0 ∨ shift = 4) :
    ∀ (ns done old rest v : List UInt8), (∀ n ∈ ns, (hexDigit n).isSome) → old.length = (ns.length + 1) / 2 →
      packHex code ns.length (ns ++ v) (done ++ old ++ rest) (done.length - 1) shift 1 =
        some (.ok (done ++ hexBytes shift (ns.map digitOf) ++ rest,
          (done ++ hexBytes shift (ns.map digitOf)).length - 1))
  | [], done, [], rest, v, _, _ => by
    rw [List.map_nil, hexBytes, List.append_nil]
    rfl
  | [n], done, [o], rest, v, hns, _ => by
    have hfirst := packHex_first code (hns n (List.mem_singleton_self n)) 0 v done o rest shift
    rw [List.length_singleton, List.singleton_append, List.append_assoc, List.singleton_append]
    rw [hfirst, packHex, List.map_singleton, hexBytes, length_snoc, Int.add_sub_cancel, List.append_assoc, List.singleton_append]
  | n :: n' :: ns, done, o :: old, rest, v, hns, h => by
    have hfirst := packHex_first code (hns n List.mem_cons_self) (ns.length + 1) (n' :: (ns ++ v)) done o (old ++ rest) shift
    have hsecond := packHex_second code (hns n' (List.mem_cons_of_mem n List.mem_cons_self)) ns.length (ns ++ v) done
      (0 ||| digitOf n <<< shift) (old ++ rest) ((shift + 4) &&& 7)
    have hrest := packHex_at code hshift ns
      (done ++ [0 ||| digitOf n <<< shift ||| digitOf n' <<< ((shift + 4) &&& 7)]) old rest v
      (fun x hx => hns x (List.mem_cons_of_mem n (List.mem_cons_of_mem n' hx)))
      (by rw [List.length_cons, List.length_cons, List.length_cons] at h; omega)
    rw [length_snoc, Int.add_sub_cancel] at hrest
    rw [shift_twice hshift] at hsecond
    simp only [List.length_cons, List.append_assoc, List.cons_append, List.nil_append, List.map_cons, hexBytes] at *
    rw [hfirst, hsecond, hrest]
  | [], _, _ :: _, _, _, _, h => by cases h
  | [_], _, [], _, _, _, h => by
    rw [List.length_nil, List.length_singleton] at h
    omega
  | [_], _, _ :: _ :: _, _, _, _, h => by
    rw [List.length_singleton, List.length_cons, List.length_cons] at h
    omega
  | _ :: _ :: ns, _, [], _, _, _, h => by
    rw [List.length_nil, List.length_cons, List.length_cons] at h
    omega

/-- **The bytes become the digits.** -/
theorem readHex_at {input : StringBytes} {shift : UInt8} (hshift : shift = 0 ∨ shift = 4) :
    ∀ (ds done before rest : List UInt8), (∀ d ∈ ds, d < 16) →
      input.bytes = done ++ (before ++ hexBytes shift ds) ++ rest →
      readHex input done.length ds.length before.length shift 1 = some (ds.map hexChar)
  | [], _, _, _, _, _ => rfl
  | [d], done, before, rest, hds, h => by
    have hread := readByte_at h (k := before.length) (b := 0 ||| d <<< shift)
      (by rw [hexBytes, List.getElem?_append_right (Nat.le_refl _), Nat.sub_self, List.getElem?_cons_zero])
    simp only [List.length_singleton, readHex, hread, Option.bind_eq_bind, Option.bind_some, one_ne_zero, if_false,
      nibble_at (hds d (List.mem_singleton_self d)) hshift, List.map_singleton, hexChar]
  | d :: e :: ds, done, before, rest, hds, h => by
    have hread := readByte_at h (k := before.length) (b := 0 ||| d <<< shift ||| e <<< ((shift + 4) &&& 7))
      (by rw [hexBytes, List.getElem?_append_right (Nat.le_refl _), Nat.sub_self, List.getElem?_cons_zero])
    obtain ⟨hfirst, hsecond⟩ := nibbles_at (hds d List.mem_cons_self) (hds e (List.mem_cons_of_mem d List.mem_cons_self)) hshift
    have hrest := readHex_at hshift ds done (before ++ [0 ||| d <<< shift ||| e <<< ((shift + 4) &&& 7)]) rest
      (fun x hx => hds x (List.mem_cons_of_mem d (List.mem_cons_of_mem e hx)))
      (by rw [h, hexBytes, List.append_assoc before, List.singleton_append])
    rw [length_snoc] at hrest
    simp only [List.length_cons, readHex, hread, Option.bind_eq_bind, Option.bind_some, one_ne_zero, if_false, Int.sub_self,
      if_true, hfirst, hsecond, shift_twice hshift, hrest, List.map_cons, hexChar]

end Vm
end ObjectScript
