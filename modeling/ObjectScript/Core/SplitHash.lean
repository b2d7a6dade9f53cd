import ObjectScript.Core.StringRefs
/-!
# The hash of a buffer in `int`s

`keyToHash` reads every `step`-th byte, with the step taken from the size, and over two buffers it goes on in the second where the
step left the first.  Sizes, steps and the distances of `buf` are `int`s here and each read is checked; over buffers with
an `int` size both functions are those of the string table.
-/
namespace ObjectScript
namespace Utils

open ObjectScript.Core (Bytes strHashStart addStrHash hashLoop hashStep)

/-- A sum of two `int`s, as it wraps. -/
def addInt (a b : Int) : Int := (a + b).bmod (2 ^ 32)

/-- `if(size < 0) size = 0` -/
def clampSize (size : Int) : Int := if size < 0 then 0 else size

/-- `(size >> OS_STR_HASH_LIMIT_SHIFT) + 1` -/
def limitStep (size : Int) : Int := (size >>> (5 : Nat)) + 1

/-- `*buf` at `pos` from the start of the buffer, `none` for a read outside of it. -/
def readAt (bytes : Bytes) (pos : Int) : Option UInt8 := if 0 ≤ pos then bytes[pos.toNat]? else none

/-- `for(; buf < end; buf += step)` over `size` bytes, with `buf` at `pos` from their start: where the loop leaves `buf`, and
the hash.  A read outside of the buffer has no result, nor has a loop that is not over after its turns. -/
def stepLoop (step : Int) (bytes : Bytes) (size : Int) : Nat → Int → Nat → Option (Int × Nat)
  | 0, pos, hash => if pos < size then none else some (pos, hash)
  | turns + 1, pos, hash =>
    if pos < size then
      (readAt bytes pos).bind fun b => stepLoop step bytes size turns (pos + step) (addStrHash hash b)
    else some (pos, hash)

def keyToHash (buf : Bytes) (size : Int) : Option Nat :=
  let size := clampSize size
  (stepLoop (limitStep size) buf size size.toNat 0 strHashStart).map Prod.snd

/-- `keyToHash(buf1, size1, buf2, size2)` -/
def keyToHash2 (buf1 : Bytes) (size1 : Int) (buf2 : Bytes) (size2 : Int) : Option Nat :=
  let size1 := clampSize size1
  let size2 := clampSize size2
  if 0 < size2 then
    let step := limitStep (addInt size1 size2)
    (stepLoop step buf1 size1 size1.toNat 0 strHashStart).bind fun (buf, hash) =>
      (stepLoop step buf2 size2 size2.toNat (buf - size1) hash).map Prod.snd
  else keyToHash buf1 size1

/-- A buffer whose size is an `int`. -/
structure SizedBuffer where
  bytes : Bytes
  length_lt : bytes.length < 2 ^ 31

namespace SizedBuffer

def size (b : SizedBuffer) : Int := b.bytes.length

end SizedBuffer

/-! ## Over `int` sizes -/

theorem clampSize_natCast (n : Nat) : clampSize n = n := if_neg (by omega)

theorem limitStep_natCast (n : Nat) : limitStep n = (hashStep n : Nat) := by
  unfold limitStep hashStep
  rw [Int.shiftRight_eq_div_pow, Nat.shiftRight_eq_div_pow]
  omega

theorem addInt_natCast {m n : Nat} (h : m + n < 2 ^ 31) : addInt m n = (m + n : Nat) := by
  unfold addInt
  rw [Int.bmod_def]
  omega

theorem readAt_natCast (bytes : Bytes) (pos : Nat) : readAt bytes pos = bytes[pos]? := if_pos (Int.natCast_nonneg pos)

/-- A loop that moves on ends, and does not read outside of the bytes. -/
theorem stepLoop_eq {step : Nat} (hstep : 0 < step) (bytes : Bytes) {turns pos : Nat} (h : bytes.length ≤ pos + turns)
    (hash : Nat) : stepLoop step bytes bytes.length turns pos hash =
      some (((hashLoop step bytes turns pos hash).1 : Int), (hashLoop step bytes turns pos hash).2) := by
  induction turns generalizing pos hash with
  | zero => exact if_neg (by omega)
  | succ turns ih =>
    unfold stepLoop
    rcases Nat.lt_or_ge pos bytes.length with hlt | hge
    · have hget : bytes[pos]? = some bytes[pos] := List.getElem?_eq_getElem hlt
      have hnext : (pos : Int) + (step : Int) = ((pos + step : Nat) : Int) := rfl
      rw [if_pos (Int.ofNat_lt.2 hlt), readAt_natCast, hget, Core.hashLoop_succ hget, hnext]
      exact ih (by omega) _
    · rw [if_neg (by omega), Core.hashLoop_past hge]

theorem stepLoop_zero {step : Nat} (hstep : 0 < step) (bytes : Bytes) :
    stepLoop step bytes bytes.length bytes.length 0 strHashStart =
      some (((hashLoop step bytes bytes.length 0 strHashStart).1 : Int), (hashLoop step bytes bytes.length 0 strHashStart).2) :=
  stepLoop_eq hstep bytes (Nat.le_add_left _ 0) strHashStart

theorem keyToHash_eq (buf : Bytes) : keyToHash buf buf.length = some (Core.keyToHash buf) := by
  have hloop := stepLoop_zero (Nat.succ_pos (buf.length >>> 5)) buf
  unfold keyToHash
  dsimp only
  rw [clampSize_natCast, limitStep_natCast, Int.toNat_natCast]
  exact congrArg (Option.map Prod.snd) hloop

theorem keyToHash2_eq {buf1 buf2 : Bytes} (h : buf1.length + buf2.length < 2 ^ 31) :
    keyToHash2 buf1 buf1.length buf2 buf2.length = some (Core.keyToHash2 buf1 buf2) := by
  have hstep : 0 < hashStep (buf1.length + buf2.length) := Nat.succ_pos _
  unfold keyToHash2 Core.keyToHash2
  dsimp only
  rw [clampSize_natCast, clampSize_natCast]
  by_cases hpos : 0 < buf2.length
  · have hpast := Core.length_le_hashLoop hstep (Nat.le_add_left buf1.length 0) strHashStart
    rw [if_pos (Int.natCast_pos.2 hpos), if_pos hpos, addInt_natCast h, limitStep_natCast, Int.toNat_natCast,
      Int.toNat_natCast, stepLoop_zero hstep buf1]
    -- what is left of the step reaches into the second buffer
    have hoffset : ((hashLoop (hashStep (buf1.length + buf2.length)) buf1 buf1.length 0 strHashStart).1 : Int) -
        (buf1.length : Int) =
          ((hashLoop (hashStep (buf1.length + buf2.length)) buf1 buf1.length 0 strHashStart).1 - buf1.length : Nat) :=
      (Int.ofNat_sub hpast).symm
    rw [Option.bind_some, hoffset, stepLoop_eq hstep buf2 (Nat.le_add_left _ _)]
    rfl
  · rw [if_neg (fun h => hpos (Int.natCast_pos.1 h)), if_neg hpos]
    exact keyToHash_eq buf1

/-! ## The border -/

/-- **The hash over two buffers is the hash of their concatenation.** -/
theorem keyToHash_concat (b1 b2 whole : SizedBuffer) (h : whole.bytes = b1.bytes ++ b2.bytes) :
    ∃ hash, keyToHash2 b1.bytes b1.size b2.bytes b2.size = some hash ∧ keyToHash whole.bytes whole.size = some hash := by
  have hlen : b1.bytes.length + b2.bytes.length < 2 ^ 31 := by
    rw [← List.length_append, ← h]
    exact whole.length_lt
  refine ⟨Core.keyToHash whole.bytes, ?_, keyToHash_eq whole.bytes⟩
  apply (keyToHash2_eq hlen).trans
  rw [Core.keyToHash_append, h]

theorem keyToHash_concat_letters :
    ∃ hash, keyToHash2 (List.replicate 40 97) 40 (List.replicate 30 98) 30 = some hash ∧
      keyToHash (List.replicate 40 97 ++ List.replicate 30 98) 70 = some hash :=
  keyToHash_concat ⟨List.replicate 40 97, by decide⟩ ⟨List.replicate 30 98, by decide⟩
    ⟨List.replicate 40 97 ++ List.replicate 30 98, by decide⟩ rfl

end Utils
end ObjectScript
