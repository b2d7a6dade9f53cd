import Mathlib.Tactic.Ring
import ObjectScript.Lib.ByteReader
import ObjectScript.Core.Double
/-!
# Stream writers and readers

What a `StreamWriter` appends for a value and what a `MemStreamReader` takes off for it.  A `UVariable` is a number seven
bits a byte, the lowest first, the high bit set in every byte but the last; all else has a fixed size, lowest byte first.
The build is one where `OS_ASSERT` is `assert`: an assertion that fails is a `Fault`.  So is a shift by more bits than an
`int` has, and a block of memory that `malloc` does not have.
-/
namespace ObjectScript
namespace Compiler
namespace ByteStream

open ByteReader (Reader Reads fail check many)
open ObjectScript.Core (Double Single)

inductive Fault where
  /-- The position passed the end of the buffer. -/
  | overread
  | assertion
  /-- A shift of an `int` by 32 bits or more. -/
  | shift
  /-- `malloc` returned NULL, or a block that is too short. -/
  | memory
deriving DecidableEq, Repr

abbrev StreamReader := Reader UInt8 Fault

/-- What the build decides: its version with the final zero, the sizes of what a program is made of, and how a `long double`
lies in memory.  A quiet NaN survives the conversion to a `long double` and back. -/
structure Platform where
  version : List UInt8
  sizeofValue : Nat
  sizeofFunctionDecl : Nat
  sizeofLocalVar : Nat
  sizeofTryBlock : Nat
  /-- `sizeof(GCStringValue) + sizeof(wchar_t) + sizeof(wchar_t)/2` -/
  stringOverhead : Nat
  longDoubleSize : Nat
  longDoubleBytes : Double → List UInt8
  ofLongDoubleBytes : List UInt8 → Double
  version_length : version.length < 256
  longDoubleBytes_length : ∀ d, (longDoubleBytes d).length = longDoubleSize
  ofLongDoubleBytes_longDoubleBytes : ∀ d : Double, d.isQuietNaN = true → ofLongDoubleBytes (longDoubleBytes d) = d

--

def writeByte (value : Nat) : List UInt8 := [UInt8.ofNat value]

def writeUVariable (value : Nat) : List UInt8 :=
  if 0x7f ≤ value then UInt8.ofNat (value &&& 0x7f ||| 0x80) :: writeUVariable (value >>> 7)
  else [UInt8.ofNat value]
termination_by value
decreasing_by
  rw [Nat.shiftRight_eq_div_pow]
  omega

def writeInt32 (value : Nat) : List UInt8 := LittleEndian.bytes 4 value

def writeFloat (value : Single) : List UInt8 := LittleEndian.bytes 4 value.toBits

def writeDouble (value : Double) : List UInt8 := LittleEndian.bytes 8 value.toBits

def writeLongDouble (P : Platform) (value : Double) : List UInt8 := P.longDoubleBytes value

--

/-- The sizes in bytes that `malloc` has a block for. -/
abbrev Memory := Nat → Bool

def Memory.unlimited : Memory := fun _ => true

/-- The size is passed as an `int`: from 2^31 bytes on it is not positive or lacks its upper bits. -/
def Memory.int : Memory := fun size => decide (size < 2 ^ 31)

def malloc (memory : Memory) (size : Nat) : StreamReader Unit := check (memory size = true) .memory

/-- The capacity that `vectorReserveCapacity` makes. -/
def grownCapacity (capacity newCapacity : Nat) : Nat :=
  if capacity < newCapacity then max (if 0 < capacity then capacity * 2 else 4) newCapacity else capacity

/-- `vectorReserveCapacity` of a vector whose items take `size` bytes; the capacity afterwards. -/
def reserveCapacity (memory : Memory) (size capacity newCapacity : Nat) : StreamReader Nat :=
  if capacity < newCapacity then do
    malloc memory (size * grownCapacity capacity newCapacity)
    return grownCapacity capacity newCapacity
  else return capacity

def readBytes (len : Nat) : StreamReader (List UInt8) := fun input =>
  if len ≤ input.length then .ok (input.take len, input.drop len) else .error .overread

def movePos (len : Nat) : StreamReader Unit := do
  let _ ← readBytes len

def checkBytes (src : List UInt8) : StreamReader Bool := do
  let cur ← readBytes src.length
  return cur == src

def readByte : StreamReader UInt8
  | [] => .error .overread
  | b :: input => .ok (b, input)

/-- The bytes after the first, `i` bits up. -/
def readUVariableLoop (value i : Nat) : List UInt8 → Except Fault (Nat × List UInt8)
  | [] => .error .overread
  | b :: input =>
    if 32 ≤ i then .error .shift
    else if 0x80 ≤ b.toNat then readUVariableLoop (value ||| ((b.toNat &&& 0x7f) <<< i) % 2 ^ 32) (i + 7) input
    else
      let result := value ||| (b.toNat <<< i) % 2 ^ 32
      if result < 2 ^ 31 then .ok (result, input) else .error .assertion

def readUVariable : StreamReader Nat := do
  let value ← readByte
  if value.toNat < 0x80 then return value.toNat else readUVariableLoop (value.toNat &&& 0x7f) 7

def readInt32 : StreamReader Nat := do
  return LittleEndian.value (← readBytes 4)

def readFloat : StreamReader Single := do
  return Single.ofBits (LittleEndian.value (← readBytes 4))

def readDouble : StreamReader Double := do
  return Double.ofBits (LittleEndian.value (← readBytes 8))

def readLongDouble (P : Platform) : StreamReader Double := do
  return P.ofLongDoubleBytes (← readBytes P.longDoubleSize)

--

theorem malloc_step {γ : Type} {memory : Memory} {size : Nat} {f : Unit → StreamReader γ} {input rest : List UInt8} {c : γ}
    (h : (malloc memory size >>= f).run input = .ok (c, rest)) : memory size = true ∧ (f ()).run input = .ok (c, rest) :=
  ByteReader.check_step h

theorem reads_malloc {memory : Memory} {size : Nat} (h : memory size = true) : Reads (malloc memory size) () [] :=
  Reads.check _ h

/-- What is asked of `malloc` so that a vector has room. -/
def Reserves (memory : Memory) (size capacity newCapacity : Nat) : Prop :=
  capacity < newCapacity → memory (size * grownCapacity capacity newCapacity) = true

theorem reserveCapacity_step {γ : Type} {memory : Memory} {size capacity newCapacity : Nat} {f : Nat → StreamReader γ}
    {input rest : List UInt8} {c : γ} (h : (reserveCapacity memory size capacity newCapacity >>= f).run input = .ok (c, rest)) :
    Reserves memory size capacity newCapacity ∧ (f (grownCapacity capacity newCapacity)).run input = .ok (c, rest) := by
  unfold reserveCapacity at h
  by_cases hroom : capacity < newCapacity
  · rw [if_pos hroom, bind_assoc] at h
    obtain ⟨hmemory, h⟩ := malloc_step h
    rw [pure_bind] at h
    exact ⟨fun _ => hmemory, h⟩
  · rw [if_neg hroom, pure_bind] at h
    rw [grownCapacity, if_neg hroom]
    exact ⟨fun hlt => absurd hlt hroom, h⟩

theorem reads_reserveCapacity {memory : Memory} {size capacity newCapacity : Nat}
    (h : Reserves memory size capacity newCapacity) :
    Reads (reserveCapacity memory size capacity newCapacity) (grownCapacity capacity newCapacity) [] := by
  unfold reserveCapacity
  by_cases hroom : capacity < newCapacity
  · rw [if_pos hroom]
    exact (reads_malloc (h hroom)).bind_pure _
  · rw [if_neg hroom, grownCapacity, if_neg hroom]
    exact Reads.pure _

theorem run_readBytes_ok {len : Nat} {input w rest : List UInt8} :
    (readBytes len).run input = .ok (w, rest) ↔ w.length = len ∧ input = w ++ rest := by
  show readBytes len input = .ok (w, rest) ↔ _
  unfold readBytes
  constructor
  · intro h
    split at h
    · rename_i hlen
      cases h
      exact ⟨List.length_take_of_le hlen, (List.take_append_drop len input).symm⟩
    · cases h
  · rintro ⟨rfl, rfl⟩
    rw [if_pos (by rw [List.length_append]; exact Nat.le_add_right _ _), List.take_left, List.drop_left]

theorem reads_readBytes (w : List UInt8) : Reads (readBytes w.length) w w := fun _ => run_readBytes_ok.2 ⟨rfl, rfl⟩

theorem reads_readByte (b : UInt8) : Reads readByte b [b] := fun _ => rfl

theorem reads_checkBytes (w : List UInt8) : Reads (checkBytes w) true w := by
  have h := (reads_readBytes w).bind_pure (· == w)
  rw [beq_self_eq_true] at h
  exact h

theorem reads_movePos (w : List UInt8) : Reads (movePos w.length) () w := (reads_readBytes w).bind_pure fun _ => ()

theorem reads_readInt32 {n : Nat} (h : n < 2 ^ 32) : Reads readInt32 n (writeInt32 n) := by
  have hread := reads_readBytes (writeInt32 n)
  rw [writeInt32, LittleEndian.length_bytes] at hread
  have hval := hread.bind_pure LittleEndian.value
  rw [LittleEndian.value_bytes h] at hval
  exact hval

theorem reads_readFloat (x : Single) : Reads readFloat x (writeFloat x) := by
  have hread := reads_readBytes (writeFloat x)
  rw [writeFloat, LittleEndian.length_bytes] at hread
  have hval := hread.bind_pure fun w => Single.ofBits (LittleEndian.value w)
  rw [LittleEndian.value_bytes x.toBits_lt, Single.ofBits_toBits] at hval
  exact hval

theorem reads_readDouble (x : Double) : Reads readDouble x (writeDouble x) := by
  have hread := reads_readBytes (writeDouble x)
  rw [writeDouble, LittleEndian.length_bytes] at hread
  have hval := hread.bind_pure fun w => Double.ofBits (LittleEndian.value w)
  rw [LittleEndian.value_bytes x.toBits_lt, Double.ofBits_toBits] at hval
  exact hval

theorem reads_readLongDouble (P : Platform) {x : Double} (h : x.isQuietNaN = true) :
    Reads (readLongDouble P) x (writeLongDouble P x) := by
  have hread := reads_readBytes (writeLongDouble P x)
  rw [writeLongDouble, P.longDoubleBytes_length] at hread
  have hval := hread.bind_pure P.ofLongDoubleBytes
  rw [P.ofLongDoubleBytes_longDoubleBytes x h] at hval
  exact hval

--

/-- A byte of a `UVariable` that is not the last. -/
theorem toNat_continued (n : Nat) : (UInt8.ofNat (n &&& 0x7f ||| 0x80)).toNat = n % 128 + 128 := by
  have hmod : n &&& 0x7f = n % 128 := Nat.and_two_pow_sub_one_eq_mod n 7
  have hor : n % 128 ||| 0x80 = n % 128 + 128 := by
    rw [Nat.or_comm, ← Nat.two_pow_add_eq_or_of_lt (i := 7) (Nat.mod_lt n (by decide)) 1, Nat.add_comm]
  rw [hmod, hor, UInt8.toNat_ofNat', Nat.mod_eq_of_lt]
  omega

theorem or_shiftLeft {value i n : Nat} (hv : value < 2 ^ i) (hn : n * 2 ^ i < 2 ^ 32) :
    value ||| (n <<< i) % 2 ^ 32 = value + n * 2 ^ i := by
  have hlt : n <<< i < 2 ^ 32 := by
    rw [Nat.shiftLeft_eq]
    exact hn
  rw [Nat.mod_eq_of_lt hlt, Nat.or_comm, ← Nat.shiftLeft_add_eq_or_of_lt hv, Nat.shiftLeft_eq, Nat.add_comm]

/-- The bytes of `n` are read above the `i` bits that are there. -/
theorem readUVariableLoop_write (n : Nat) : ∀ (value i : Nat) (rest : List UInt8), value < 2 ^ i → i < 32 →
    value + n * 2 ^ i < 2 ^ 31 →
      readUVariableLoop value i (writeUVariable n ++ rest) = .ok (value + n * 2 ^ i, rest) := by
  induction n using Nat.strongRecOn with
  | ind n ih =>
    intro value i rest hv hi hlt
    rw [writeUVariable]
    by_cases hn : 0x7f ≤ n
    · have hi' : i ≤ 24 := by
        by_contra hge
        have hpow : 2 ^ 25 ≤ 2 ^ i := Nat.pow_le_pow_right (by decide) (by omega)
        have hmul := Nat.mul_le_mul hn hpow
        omega
      have hparts : n % 128 * 2 ^ i + n / 128 * 2 ^ (i + 7) = n * 2 ^ i := by
        calc n % 128 * 2 ^ i + n / 128 * 2 ^ (i + 7) = (n % 128 + 128 * (n / 128)) * 2 ^ i := by ring
          _ = n * 2 ^ i := by rw [Nat.mod_add_div]
      have hlow : n % 128 * 2 ^ i < 2 ^ 32 := by omega
      have hmask : (n % 128 + 128) &&& 0x7f = n % 128 := by
        rw [Nat.and_two_pow_sub_one_eq_mod _ 7, Nat.add_mod_right, Nat.mod_mod]
      have hnext : value + n % 128 * 2 ^ i < 2 ^ (i + 7) := by
        have hmod : n % 128 + 1 ≤ 128 := Nat.mod_lt n (by decide)
        calc value + n % 128 * 2 ^ i < (n % 128 + 1) * 2 ^ i := by rw [Nat.add_mul]; omega
          _ ≤ 128 * 2 ^ i := Nat.mul_le_mul_right _ hmod
          _ = 2 ^ (i + 7) := by ring
      rw [if_pos hn, List.cons_append, readUVariableLoop, if_neg (by omega), toNat_continued, if_pos (by omega), hmask,
        or_shiftLeft hv hlow]
      have hshift : n >>> 7 = n / 128 := Nat.shiftRight_eq_div_pow n 7
      rw [hshift, ih (n / 128) (by omega) _ _ rest hnext (by omega) (by omega), Nat.add_assoc, hparts]
    · have hlow : n * 2 ^ i < 2 ^ 32 := by omega
      have hbyte : (UInt8.ofNat n).toNat = n := by
        rw [UInt8.toNat_ofNat', Nat.mod_eq_of_lt]
        omega
      rw [if_neg hn, List.cons_append, List.nil_append, readUVariableLoop, if_neg (by omega), hbyte, if_neg (by omega),
        or_shiftLeft hv hlow]
      exact if_pos hlt

theorem reads_readUVariable {n : Nat} (h : n < 2 ^ 31) : Reads readUVariable n (writeUVariable n) := by
  intro rest
  rw [writeUVariable]
  by_cases hn : 0x7f ≤ n
  · have hmask : (n % 128 + 128) &&& 0x7f = n % 128 := by
      rw [Nat.and_two_pow_sub_one_eq_mod _ 7, Nat.add_mod_right, Nat.mod_mod]
    have hshift : n >>> 7 = n / 128 := Nat.shiftRight_eq_div_pow n 7
    rw [if_pos hn, List.cons_append, hshift]
    refine ByteReader.run_bind_ok.2 ⟨_, _, reads_readByte _ _, ?_⟩
    rw [toNat_continued, if_neg (by omega), hmask]
    have hloop := readUVariableLoop_write (n / 128) (n % 128) 7 rest (Nat.mod_lt n (by decide)) (by decide) (by omega)
    rw [hshift] at *
    have hsum : n % 128 + n / 128 * 2 ^ 7 = n := Nat.mod_add_div' n 128
    rw [hsum] at hloop
    exact hloop
  · have hbyte : (UInt8.ofNat n).toNat = n := by
      rw [UInt8.toNat_ofNat', Nat.mod_eq_of_lt]
      omega
    rw [if_neg hn]
    refine ByteReader.run_bind_ok.2 ⟨_, _, reads_readByte _ _, ?_⟩
    rw [hbyte, if_pos (by omega)]
    rfl

end ByteStream
end Compiler
end ObjectScript
