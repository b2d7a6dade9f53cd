import ObjectScript.Compiler.ByteStream
/-!
# Core::Buffer

A `Buffer` is a `MemStreamWriter` that keeps the string it was last converted to in `cache_str`.  Its own mutators drop the
string, those it inherits from the writer know nothing of it.  A `MemStreamWriter` holds the bytes up to its count; an
assertion that fails, an `int` past its range and a read of a block that was freed or never written have no result.
-/
namespace ObjectScript
namespace Core

structure MemStreamWriter where
  /-- The bytes of `buffer.buf` up to `buffer.count`. -/
  buffer : List UInt8
  capacity : Nat
  pos : Nat
  pos_le : pos ≤ buffer.length
  count_le : buffer.length ≤ capacity
deriving DecidableEq

/-- What the arguments `buf` and `len` of a write name: memory of its own, or a part of the block written to. -/
inductive Source where
  | other (bytes : List UInt8)
  | own (start len : Nat)
deriving DecidableEq, Repr

namespace Source

def len : Source → Nat
  | other bytes => bytes.length
  | own _ len => len

/-- The bytes named, over a block that holds `buffer`. -/
def bytes (buffer : List UInt8) : Source → List UInt8
  | other bytes => bytes
  | own start len => (buffer.drop start).take len

/-- Whether the bytes can be copied to `pos`: a block that was moved is freed, and `OS_MEMCPY` takes no overlap. -/
def Copies (buffer : List UInt8) (moved : Bool) (pos : Nat) : Source → Prop
  | other _ => True
  | own start len => moved = false ∧ start + len ≤ buffer.length ∧ (start + len ≤ pos ∨ pos + len ≤ start)

instance (buffer : List UInt8) (moved : Bool) (pos : Nat) : ∀ s : Source, Decidable (s.Copies buffer moved pos)
  | other _ => inferInstanceAs (Decidable True)
  | own _ _ => inferInstanceAs (Decidable (_ ∧ _ ∧ _))

theorem length_bytes {buffer : List UInt8} {moved : Bool} {pos : Nat} :
    ∀ {s : Source}, s.Copies buffer moved pos → (s.bytes buffer).length = s.len
  | other _, _ => rfl
  | own start len, h => by
    have hle : start + len ≤ buffer.length := h.2.1
    rw [bytes, Source.len, List.length_take, List.length_drop]
    omega

end Source

/-- `bs` lies over `buffer` from `pos` on. -/
def overwrite (buffer : List UInt8) (pos : Nat) (bs : List UInt8) : List UInt8 :=
  buffer.take pos ++ bs ++ buffer.drop (pos + bs.length)

theorem length_overwrite {buffer : List UInt8} {pos : Nat} (bs : List UInt8) (h : pos ≤ buffer.length) :
    (overwrite buffer pos bs).length = max buffer.length (pos + bs.length) := by
  unfold overwrite
  rw [List.length_append, List.length_append, List.length_take, List.length_drop]
  omega

theorem overwrite_nil (buffer : List UInt8) (pos : Nat) : overwrite buffer pos [] = buffer := by
  simp [overwrite]

theorem overwrite_overwrite {buffer : List UInt8} {pos : Nat} (as bs : List UInt8) (h : pos ≤ buffer.length) :
    overwrite (overwrite buffer pos as) (pos + as.length) bs = overwrite buffer pos (as ++ bs) := by
  have htake : (buffer.take pos).length = pos := List.length_take_of_le h
  have hpre : (buffer.take pos ++ as).length = pos + as.length := by rw [List.length_append, htake]
  unfold overwrite
  rw [List.take_append_of_le_length (Nat.le_of_eq hpre.symm), List.take_of_length_le (Nat.le_of_eq hpre),
    List.drop_append, List.drop_of_length_le (by rw [hpre]; exact Nat.le_add_right _ _), List.nil_append, hpre,
    List.drop_drop, List.length_append]
  have hsub : pos + as.length + (pos + as.length + bs.length - (pos + as.length)) = pos + (as.length + bs.length) := by omega
  rw [hsub, List.append_assoc, List.append_assoc, List.append_assoc, List.append_assoc]

theorem overwrite_eq_self {buffer : List UInt8} {pos : Nat} {bs : List UInt8} (h : pos ≤ buffer.length) :
    overwrite buffer pos bs = buffer ↔ bs <+: buffer.drop pos := by
  constructor
  · intro heq
    refine ⟨buffer.drop (pos + bs.length), ?_⟩
    have hdrop := congrArg (List.drop pos) heq
    unfold overwrite at hdrop
    rwa [List.append_assoc, List.drop_left' (List.length_take_of_le h)] at hdrop
  · rintro ⟨rest, hrest⟩
    have hbehind : buffer.drop (pos + bs.length) = rest := by
      rw [← List.drop_drop, ← hrest, List.drop_left]
    unfold overwrite
    rw [hbehind, List.append_assoc, hrest, List.take_append_drop]

/-! ## MemStreamWriter -/

namespace MemStreamWriter

def empty : MemStreamWriter := ⟨[], 0, 0, Nat.le_refl _, Nat.le_refl _⟩

/-- The capacity once `new_capacity` is asked for; doubling it must not leave the range of an `int`. -/
def grownCapacity (capacity newCapacity : Nat) : Option Nat :=
  if capacity < newCapacity then
    let doubled := if 0 < capacity then capacity * 2 else 4
    if 2 ^ 31 ≤ doubled then none
    else if doubled < newCapacity then some newCapacity
    else some doubled
  else some capacity

theorem le_grownCapacity {capacity newCapacity grown : Nat} (h : grownCapacity capacity newCapacity = some grown) :
    capacity ≤ grown ∧ newCapacity ≤ grown := by
  unfold grownCapacity at h
  grind

def reserveCapacity (w : MemStreamWriter) (newCapacity : Nat) : Option MemStreamWriter :=
  match h : grownCapacity w.capacity newCapacity with
  | none => none
  | some grown => some { w with capacity := grown, count_le := Nat.le_trans w.count_le (le_grownCapacity h).1 }

def setPos (w : MemStreamWriter) (newPos : Int) : Option MemStreamWriter :=
  if h : 0 ≤ newPos ∧ newPos ≤ w.buffer.length then some { w with pos := newPos.toNat, pos_le := by omega } else none

def writeBytesAtPos (w : MemStreamWriter) (src : Source) (pos : Int) : Option MemStreamWriter :=
  if h : (0 ≤ pos ∧ pos ≤ (w.buffer.length : Int) - src.len) ∧ src.Copies w.buffer false pos.toNat then
    some { w with
      buffer := overwrite w.buffer pos.toNat (src.bytes w.buffer)
      pos_le := by
        rw [length_overwrite _ (by omega)]
        exact Nat.le_trans w.pos_le (Nat.le_max_left _ _)
      count_le := by
        have hcount := w.count_le
        rw [length_overwrite _ (by omega), Source.length_bytes h.2]
        exact Nat.max_le.2 ⟨hcount, by omega⟩ }
  else none

/-- The count is raised before the bytes are copied to where the position was. -/
def writeBytes (w : MemStreamWriter) (src : Source) : Option MemStreamWriter :=
  let newPos := w.pos + src.len
  if 2 ^ 31 ≤ newPos then none
  else match hcap : grownCapacity w.capacity newPos with
    | none => none
    | some grown =>
      if hcopy : src.Copies w.buffer (grown != w.capacity) w.pos then
        some {
          buffer := overwrite w.buffer w.pos (src.bytes w.buffer)
          capacity := grown
          pos := newPos
          pos_le := by
            rw [length_overwrite _ w.pos_le, Source.length_bytes hcopy]
            exact Nat.le_max_right _ _
          count_le := by
            rw [length_overwrite _ w.pos_le, Source.length_bytes hcopy]
            exact Nat.max_le.2 ⟨Nat.le_trans w.count_le (le_grownCapacity hcap).1, (le_grownCapacity hcap).2⟩ }
      else none

def isByte (value : Int) : Bool := 0 ≤ value ∧ value ≤ 0xff

def toByte (value : Int) : UInt8 := UInt8.ofNat value.toNat

/-- A byte inside the buffer is replaced, one at its end is added by `vectorAddItem`. -/
def writeByte (w : MemStreamWriter) (value : Int) : Option MemStreamWriter :=
  if ¬isByte value then none
  else if h : w.pos < w.buffer.length then
    some { w with
      buffer := w.buffer.set w.pos (toByte value)
      pos := w.pos + 1
      pos_le := by rw [List.length_set]; exact h
      count_le := by rw [List.length_set]; exact w.count_le }
  else if 2 ^ 31 ≤ w.buffer.length + 1 then none
  else match hcap : grownCapacity w.capacity (w.buffer.length + 1) with
    | none => none
    | some grown =>
      some {
        buffer := w.buffer ++ [toByte value]
        capacity := grown
        pos := w.pos + 1
        pos_le := by rw [List.length_append]; exact Nat.succ_le_succ w.pos_le
        count_le := by rw [List.length_append]; exact (le_grownCapacity hcap).2 }

def writeByteAtPos (w : MemStreamWriter) (value pos : Int) : Option MemStreamWriter :=
  if ¬isByte value then none
  else if 0 ≤ pos ∧ pos ≤ (w.buffer.length : Int) - 1 then
    some { w with
      buffer := w.buffer.set pos.toNat (toByte value)
      pos_le := by rw [List.length_set]; exact w.pos_le
      count_le := by rw [List.length_set]; exact w.count_le }
  else none

/-- The values a `StreamWriter` writes in a fixed number of bytes, the lowest first; a `long double` is known by its bytes. -/
inductive Word where
  | u16 (value : Int)
  | int8 (value : Int)
  | int16 (value : Int)
  | int32 (value : Int)
  | int64 (value : Int)
  | float (value : Single)
  | double (value : Double)
  | longDouble (bytes : List UInt8)

def Word.fits : Word → Bool
  | u16 value => 0 ≤ value ∧ value ≤ 0xffff
  | int8 value => -2 ^ 7 ≤ value ∧ value < 2 ^ 7
  | int16 value => -2 ^ 15 ≤ value ∧ value < 2 ^ 15
  | int32 value => -2 ^ 31 ≤ value ∧ value < 2 ^ 31
  | int64 value => -2 ^ 63 ≤ value ∧ value < 2 ^ 63
  | float _ | double _ | longDouble _ => true

def Word.bytes : Word → List UInt8
  | u16 value => LittleEndian.bytes 2 value.toNat
  | int8 value => LittleEndian.bytes 1 (value % 2 ^ 8).toNat
  | int16 value => LittleEndian.bytes 2 (value % 2 ^ 16).toNat
  | int32 value => LittleEndian.bytes 4 (value % 2 ^ 32).toNat
  | int64 value => LittleEndian.bytes 8 (value % 2 ^ 64).toNat
  | float value => Compiler.ByteStream.writeFloat value
  | double value => Compiler.ByteStream.writeDouble value
  | longDouble bytes => bytes

def writeWord (w : MemStreamWriter) (value : Word) : Option MemStreamWriter :=
  if value.fits then w.writeBytes (.other value.bytes) else none

def writeWordAtPos (w : MemStreamWriter) (value : Word) (pos : Int) : Option MemStreamWriter :=
  if value.fits then w.writeBytesAtPos (.other value.bytes) pos else none

def writeUVariableLoop (w : MemStreamWriter) (value : Nat) : Option MemStreamWriter :=
  if 0x7f ≤ value then do
    let w ← w.writeByte ((value &&& 0x7f ||| 0x80 : Nat) : Int)
    writeUVariableLoop w (value >>> 7)
  else w.writeByte value
termination_by value
decreasing_by
  rw [Nat.shiftRight_eq_div_pow]
  omega

def writeUVariable (w : MemStreamWriter) (value : Int) : Option MemStreamWriter :=
  if 0 ≤ value then writeUVariableLoop w value.toNat else none

def streamChunk : Nat := 1024 * 128

/-- What is left of the reader, in pieces of `streamChunk` bytes. -/
def writeFromStream (w : MemStreamWriter) (left : List UInt8) : Option MemStreamWriter :=
  if left = [] then some w
  else do
    let w ← w.writeBytes (.other (left.take streamChunk))
    writeFromStream w (left.drop streamChunk)
termination_by left.length
decreasing_by
  rename_i hne
  have := List.length_pos_iff.2 hne
  rw [List.length_drop]
  unfold streamChunk
  omega

/-! ### What the writes leave -/

/-- `w'` is `w` with `bs` over its bytes from `pos` on. -/
structure Wrote (w : MemStreamWriter) (pos : Nat) (bs : List UInt8) (w' : MemStreamWriter) : Prop where
  pos_le : pos ≤ w.buffer.length
  buffer : w'.buffer = overwrite w.buffer pos bs

theorem set_eq_overwrite {buffer : List UInt8} {pos : Nat} (b : UInt8) (h : pos < buffer.length) :
    buffer.set pos b = overwrite buffer pos [b] := by
  rw [overwrite, List.set_eq_take_append_cons_drop, if_pos h, List.append_assoc, List.singleton_append]
  rfl

variable {w w' : MemStreamWriter}

theorem setPos_buffer {newPos : Int} (h : w.setPos newPos = some w') : w'.buffer = w.buffer := by
  unfold setPos at h
  split at h <;> cases h
  rfl

theorem reserveCapacity_buffer {newCapacity : Nat} (h : w.reserveCapacity newCapacity = some w') : w'.buffer = w.buffer := by
  unfold reserveCapacity at h
  split at h <;> cases h
  rfl

theorem writeBytesAtPos_some {src : Source} {pos : Int} (h : w.writeBytesAtPos src pos = some w') :
    Wrote w pos.toNat (src.bytes w.buffer) w' := by
  unfold writeBytesAtPos at h
  split at h
  · rename_i hok
    cases h
    exact ⟨by omega, rfl⟩
  · cases h

theorem writeBytes_some {src : Source} (h : w.writeBytes src = some w') :
    Wrote w w.pos (src.bytes w.buffer) w' ∧ w'.pos = w.pos + (src.bytes w.buffer).length := by
  unfold writeBytes at h
  dsimp only at h
  split at h
  · cases h
  · split at h
    · cases h
    · split at h
      · rename_i hcopy
        cases h
        exact ⟨⟨w.pos_le, rfl⟩, by rw [Source.length_bytes hcopy]⟩
      · cases h

theorem writeByte_some {value : Int} (h : w.writeByte value = some w') :
    Wrote w w.pos [toByte value] w' ∧ w'.pos = w.pos + 1 := by
  unfold writeByte at h
  split at h
  · cases h
  · split at h
    · rename_i hlt
      cases h
      exact ⟨⟨w.pos_le, set_eq_overwrite _ hlt⟩, rfl⟩
    · rename_i hlt
      split at h
      · cases h
      · split at h
        · cases h
        · cases h
          have hpos : w.pos = w.buffer.length := Nat.le_antisymm w.pos_le (Nat.le_of_not_lt hlt)
          refine ⟨⟨w.pos_le, ?_⟩, rfl⟩
          show w.buffer ++ [toByte value] = overwrite w.buffer w.pos [toByte value]
          rw [overwrite, hpos, List.take_length, List.drop_of_length_le (Nat.le_add_right _ _), List.append_nil]

theorem writeByteAtPos_some {value pos : Int} (h : w.writeByteAtPos value pos = some w') :
    Wrote w pos.toNat [toByte value] w' := by
  unfold writeByteAtPos at h
  split at h
  · cases h
  · split at h
    · rename_i hpos
      cases h
      exact ⟨by omega, set_eq_overwrite _ (by omega)⟩
    · cases h

theorem Wrote.append {pos : Nat} {as bs : List UInt8} {w'' : MemStreamWriter} (h : Wrote w pos as w')
    (h' : Wrote w' (pos + as.length) bs w'') : Wrote w pos (as ++ bs) w'' :=
  ⟨h.pos_le, by rw [h'.buffer, h.buffer, overwrite_overwrite _ _ h.pos_le]⟩

theorem writeUVariableLoop_some (w : MemStreamWriter) (value : Nat) :
    w.writeUVariableLoop value = some w' → Wrote w w.pos (Compiler.ByteStream.writeUVariable value) w' := by
  fun_induction writeUVariableLoop w value with
  | case1 w value hmore ih =>
    intro h
    obtain ⟨w₁, hbyte, hrest⟩ := Option.bind_eq_some_iff.1 h
    obtain ⟨hwrote, hpos⟩ := writeByte_some hbyte
    have hwrote' := ih w₁ hrest
    rw [hpos] at hwrote'
    rw [Compiler.ByteStream.writeUVariable, if_pos hmore]
    exact hwrote.append hwrote'
  | case2 w value hlast =>
    intro h
    rw [Compiler.ByteStream.writeUVariable, if_neg hlast]
    exact (writeByte_some h).1

theorem writeFromStream_some (w : MemStreamWriter) (left : List UInt8) :
    w.writeFromStream left = some w' → Wrote w w.pos left w' := by
  fun_induction writeFromStream w left with
  | case1 w₀ =>
    intro h
    cases h
    exact ⟨w'.pos_le, (overwrite_nil _ _).symm⟩
  | case2 w left hne ih =>
    intro h
    obtain ⟨w₁, hchunk, hrest⟩ := Option.bind_eq_some_iff.1 h
    obtain ⟨hwrote, hpos⟩ := writeBytes_some hchunk
    have hwrote' := ih w₁ hrest
    rw [hpos] at hwrote'
    have hall := hwrote.append hwrote'
    rwa [Source.bytes, List.take_append_drop] at hall

end MemStreamWriter

/-! ## Buffer -/

/-- The writer, and `cache_str` by the bytes of its string: the buffer's count of it keeps the string, and no string changes
its bytes. -/
structure Buffer where
  writer : MemStreamWriter
  cacheStr : Option (List UInt8)
deriving DecidableEq

namespace Buffer

def new : Buffer := ⟨.empty, none⟩

def contents (b : Buffer) : List UInt8 := b.writer.buffer

def freeCacheStr (b : Buffer) : Buffer := { b with cacheStr := none }

def clear (b : Buffer) : Buffer := { b.freeCacheStr with writer := .empty }

def append (b : Buffer) (src : Source) : Option Buffer :=
  (b.freeCacheStr.writer.writeBytes src).map fun w => { b.freeCacheStr with writer := w }

def appendChar (b : Buffer) (c : UInt8) : Option Buffer := b.append (.other [c])

/-- The first `len` bytes behind `str`. -/
def appendLen (b : Buffer) (str : List UInt8) (len : Nat) : Option Buffer :=
  if str.length < len then none else b.append (.other (str.take len))

/-- The bytes before the zero, `OS_STRLEN` of them. -/
def appendCStr (b : Buffer) (str : List UInt8) : Option Buffer := b.appendLen str (str.takeWhile (· ≠ 0)).length

def appendString (b : Buffer) (str : List UInt8) : Option Buffer := b.append (.other str)

/-- `none` is the buffer itself. -/
def appendBuffer (b : Buffer) : Option Buffer → Option Buffer
  | none => b.append (.own 0 b.contents.length)
  | some other => b.append (.other other.contents)

def plusEqString (b : Buffer) (str : List UInt8) : Option Buffer := b.appendString str

def plusEqCStr (b : Buffer) (str : List UInt8) : Option Buffer := b.appendCStr str

/-- `Buffer(const Buffer&)`: only the bytes are copied. -/
def copyOf (other : Buffer) : Option Buffer := new.appendBuffer (some other)

def swap (a b : Buffer) : Buffer × Buffer :=
  ({ writer := b.writer, cacheStr := b.cacheStr }, { writer := a.writer, cacheStr := a.cacheStr })

def toGCStringValue (b : Buffer) : List UInt8 × Buffer :=
  match b.cacheStr with
  | some s => (s, b)
  | none => (b.contents, { b with cacheStr := some b.contents })

def toString (b : Buffer) : List UInt8 × Buffer := b.toGCStringValue

def toStringOS (b : Buffer) : List UInt8 × Buffer := b.toGCStringValue

def Coherent (b : Buffer) : Prop := ∀ s ∈ b.cacheStr, s = b.contents

theorem toString_eq_contents {b : Buffer} : b.toString.1 = b.contents ↔ b.Coherent := by
  unfold Coherent toString toGCStringValue
  cases b.cacheStr <;> simp

theorem coherent_of_none {b : Buffer} (h : b.cacheStr = none) : b.Coherent := by
  simp [Coherent, h]

theorem Coherent.writer {b : Buffer} (h : b.Coherent) {w : MemStreamWriter} (hbuffer : w.buffer = b.writer.buffer) :
    Coherent { b with writer := w } := by
  intro s hs
  exact (h s hs).trans hbuffer.symm

theorem append_cacheStr {b b' : Buffer} {src : Source} (h : b.append src = some b') : b'.cacheStr = none := by
  obtain ⟨w, -, rfl⟩ := Option.map_eq_some_iff.1 h
  rfl

theorem appendLen_cacheStr {b b' : Buffer} {str : List UInt8} {len : Nat} (h : b.appendLen str len = some b') :
    b'.cacheStr = none := by
  unfold appendLen at h
  split at h
  · cases h
  · exact append_cacheStr h

theorem coherent_toGCStringValue {b : Buffer} (h : b.Coherent) : b.toGCStringValue.2.Coherent := by
  unfold toGCStringValue
  split
  · exact h
  · intro s hs
    exact (Option.some.inj hs).symm

end Buffer

/-! ## Runs -/

/-- The overloads of `append` and of `operator+=`; another buffer is known by its number. -/
inductive Append where
  | char (c : UInt8)
  | cstr (str : List UInt8)
  | len (str : List UInt8) (len : Nat)
  | data (src : Source)
  | string (str : List UInt8)
  | buffer (j : Nat)
  | plusEqString (str : List UInt8)
  | plusEqCStr (str : List UInt8)

inductive Write where
  | bytes (src : Source)
  | bytesAtPos (src : Source) (pos : Int)
  | byte (value : Int)
  | byteAtPos (value pos : Int)
  | uvariable (value : Int)
  | word (value : MemStreamWriter.Word)
  | wordAtPos (value : MemStreamWriter.Word) (pos : Int)
  | fromStream (left : List UInt8)

inductive BufferOp where
  | new
  | copyOf (i : Nat)
  | append (i : Nat) (a : Append)
  | write (i : Nat) (w : Write)
  | setPos (i : Nat) (newPos : Int)
  | reserveCapacity (i : Nat) (newCapacity : Nat)
  | clear (i : Nat)
  | freeCacheStr (i : Nat)
  | swap (i j : Nat)
  | toString (i : Nat)
  | toStringOS (i : Nat)

namespace BufferOp

open Buffer MemStreamWriter

def runAppend (bs : List Buffer) (i : Nat) (b : Buffer) : Append → Option Buffer
  | .char c => b.appendChar c
  | .cstr str => b.appendCStr str
  | .len str len => b.appendLen str len
  | .data src => b.append src
  | .string str => b.appendString str
  | .buffer j => if j = i then b.appendBuffer none else bs[j]?.bind fun other => b.appendBuffer (some other)
  | .plusEqString str => b.plusEqString str
  | .plusEqCStr str => b.plusEqCStr str

def runWrite (w : MemStreamWriter) : Write → Option MemStreamWriter
  | .bytes src => w.writeBytes src
  | .bytesAtPos src pos => w.writeBytesAtPos src pos
  | .byte value => w.writeByte value
  | .byteAtPos value pos => w.writeByteAtPos value pos
  | .uvariable value => w.writeUVariable value
  | .word value => w.writeWord value
  | .wordAtPos value pos => w.writeWordAtPos value pos
  | .fromStream left => w.writeFromStream left

def step (bs : List Buffer) : BufferOp → Option (List Buffer)
  | new => some (bs ++ [Buffer.new])
  | copyOf i => do
    let b ← bs[i]?
    let copy ← Buffer.copyOf b
    return bs ++ [copy]
  | append i a => do
    let b ← bs[i]?
    let b' ← runAppend bs i b a
    return bs.set i b'
  | write i wr => do
    let b ← bs[i]?
    let w ← runWrite b.writer wr
    return bs.set i { b with writer := w }
  | setPos i newPos => do
    let b ← bs[i]?
    let w ← b.writer.setPos newPos
    return bs.set i { b with writer := w }
  | reserveCapacity i newCapacity => do
    let b ← bs[i]?
    let w ← b.writer.reserveCapacity newCapacity
    return bs.set i { b with writer := w }
  | clear i => do
    let b ← bs[i]?
    return bs.set i b.clear
  | freeCacheStr i => do
    let b ← bs[i]?
    return bs.set i b.freeCacheStr
  | swap i j => do
    let a ← bs[i]?
    let b ← bs[j]?
    return (bs.set i (Buffer.swap a b).1).set j (Buffer.swap a b).2
  | toString i => do
    let b ← bs[i]?
    return bs.set i b.toString.2
  | toStringOS i => do
    let b ← bs[i]?
    return bs.set i b.toStringOS.2

def run : List Buffer → List BufferOp → Option (List Buffer)
  | bs, [] => some bs
  | bs, op :: ops => (step bs op).bind fun bs' => run bs' ops

def writePos (w : MemStreamWriter) : Write → Nat
  | .bytesAtPos _ pos | .byteAtPos _ pos | .wordAtPos _ pos => pos.toNat
  | _ => w.pos

/-- The bytes an inherited write is about to put down. -/
def writeData (w : MemStreamWriter) : Write → List UInt8
  | .bytes src | .bytesAtPos src _ => src.bytes w.buffer
  | .byte value | .byteAtPos value _ => [toByte value]
  | .uvariable value => Compiler.ByteStream.writeUVariable value.toNat
  | .word value | .wordAtPos value _ => value.bytes
  | .fromStream left => left

/-- An inherited write comes to a buffer that caches no string, or writes the bytes that are there. -/
def KeepsCache (bs : List Buffer) : BufferOp → Prop
  | write i wr => ∀ b ∈ bs[i]?, b.cacheStr = none ∨ writeData b.writer wr <+: b.writer.buffer.drop (writePos b.writer wr)
  | _ => True

theorem wrote_of_runWrite {w w' : MemStreamWriter} {wr : Write} (h : runWrite w wr = some w') :
    Wrote w (writePos w wr) (writeData w wr) w' := by
  cases wr with
  | bytes src => exact (writeBytes_some h).1
  | bytesAtPos src pos => exact writeBytesAtPos_some h
  | byte value => exact (writeByte_some h).1
  | byteAtPos value pos => exact writeByteAtPos_some h
  | uvariable value =>
    simp only [runWrite, writeUVariable, Option.ite_none_right_eq_some] at h
    exact writeUVariableLoop_some w value.toNat h.2
  | word value =>
    simp only [runWrite, writeWord, Option.ite_none_right_eq_some] at h
    exact (writeBytes_some h.2).1
  | wordAtPos value pos =>
    simp only [runWrite, writeWordAtPos, Option.ite_none_right_eq_some] at h
    exact writeBytesAtPos_some h.2
  | fromStream left => exact writeFromStream_some w left h

theorem cacheStr_of_runAppend {bs : List Buffer} {i : Nat} {b b' : Buffer} {a : Append}
    (h : runAppend bs i b a = some b') : b'.cacheStr = none := by
  cases a with
  | buffer j =>
    simp only [runAppend] at h
    split at h
    · exact append_cacheStr h
    · obtain ⟨other, -, h⟩ := Option.bind_eq_some_iff.1 h
      exact append_cacheStr h
  | len | cstr | plusEqCStr => exact appendLen_cacheStr h
  | char | data | string | plusEqString => exact append_cacheStr h

/-- **An inherited write keeps the cache coherent exactly when it `KeepsCache`.** -/
theorem coherent_write_iff {b : Buffer} {w : MemStreamWriter} {wr : Write} (hb : b.Coherent)
    (h : runWrite b.writer wr = some w) :
    Coherent { b with writer := w } ↔
      b.cacheStr = none ∨ writeData b.writer wr <+: b.writer.buffer.drop (writePos b.writer wr) := by
  have hwrote := wrote_of_runWrite h
  have hself : w.buffer = b.contents ↔ writeData b.writer wr <+: b.writer.buffer.drop (writePos b.writer wr) := by
    rw [hwrote.buffer]
    exact overwrite_eq_self hwrote.pos_le
  rw [← hself]
  cases hc : b.cacheStr with
  | none => exact iff_of_true (coherent_of_none rfl) (Or.inl rfl)
  | some s =>
    have hs : s = b.contents := hb s hc
    constructor
    · intro hco
      exact Or.inr ((hco s rfl).symm.trans hs)
    · intro hor
      have heq := hor.resolve_left (Option.some_ne_none s)
      intro t ht
      have hts : t = s := (Option.some.inj ht).symm
      exact hts.trans (hs.trans heq.symm)

def AllCoherent (bs : List Buffer) : Prop := ∀ b ∈ bs, b.Coherent

theorem AllCoherent.set {bs : List Buffer} (h : AllCoherent bs) (i : Nat) {b : Buffer} (hb : b.Coherent) :
    AllCoherent (bs.set i b) := fun _ hc => (List.mem_or_eq_of_mem_set hc).elim (h _) fun heq => heq ▸ hb

theorem AllCoherent.concat {bs : List Buffer} (h : AllCoherent bs) {b : Buffer} (hb : b.cacheStr = none) :
    AllCoherent (bs ++ [b]) := by
  intro c hc
  rcases List.mem_append.1 hc with hc | hc
  · exact h c hc
  · rw [List.mem_singleton.1 hc]
    exact coherent_of_none hb

/-- **One step keeps the caches coherent exactly when it `KeepsCache`.** -/
theorem allCoherent_step_iff {bs bs' : List Buffer} {op : BufferOp} (h : AllCoherent bs) (hstep : step bs op = some bs') :
    AllCoherent bs' ↔ op.KeepsCache bs := by
  have hmem : ∀ {i : Nat} {b : Buffer}, bs[i]? = some b → b ∈ bs := fun hi => List.mem_of_getElem? hi
  cases op with
  | write i wr =>
    obtain ⟨b, hi, hstep⟩ := Option.bind_eq_some_iff.1 hstep
    obtain ⟨w, hw, hstep⟩ := Option.bind_eq_some_iff.1 hstep
    cases hstep
    have hone := coherent_write_iff (h b (hmem hi)) hw
    constructor
    · intro hall c hc
      have hcb : c = b := Option.some.inj (hc.symm.trans hi)
      subst hcb
      exact hone.1 (hall _ (List.mem_set (List.getElem?_eq_some_iff.1 hi).1 _))
    · intro hkeeps
      exact h.set i (hone.2 (hkeeps b hi))
  | new =>
    cases hstep
    exact iff_of_true (h.concat rfl) trivial
  | copyOf i =>
    obtain ⟨b, -, hstep⟩ := Option.bind_eq_some_iff.1 hstep
    obtain ⟨copy, hcopy, hstep⟩ := Option.bind_eq_some_iff.1 hstep
    cases hstep
    exact iff_of_true (h.concat (append_cacheStr hcopy)) trivial
  | append i a =>
    obtain ⟨b, -, hstep⟩ := Option.bind_eq_some_iff.1 hstep
    obtain ⟨b', hb', hstep⟩ := Option.bind_eq_some_iff.1 hstep
    cases hstep
    exact iff_of_true (h.set i (coherent_of_none (cacheStr_of_runAppend hb'))) trivial
  | setPos i newPos =>
    obtain ⟨b, hi, hstep⟩ := Option.bind_eq_some_iff.1 hstep
    obtain ⟨w, hw, hstep⟩ := Option.bind_eq_some_iff.1 hstep
    cases hstep
    have hcoherent := (h b (hmem hi)).writer (setPos_buffer hw)
    exact iff_of_true (h.set i hcoherent) trivial
  | reserveCapacity i newCapacity =>
    obtain ⟨b, hi, hstep⟩ := Option.bind_eq_some_iff.1 hstep
    obtain ⟨w, hw, hstep⟩ := Option.bind_eq_some_iff.1 hstep
    cases hstep
    have hcoherent := (h b (hmem hi)).writer (reserveCapacity_buffer hw)
    exact iff_of_true (h.set i hcoherent) trivial
  | clear i | freeCacheStr i =>
    obtain ⟨b, -, hstep⟩ := Option.bind_eq_some_iff.1 hstep
    cases hstep
    exact iff_of_true (h.set i (coherent_of_none rfl)) trivial
  | swap i j =>
    obtain ⟨a, hi, hstep⟩ := Option.bind_eq_some_iff.1 hstep
    obtain ⟨b, hj, hstep⟩ := Option.bind_eq_some_iff.1 hstep
    cases hstep
    exact iff_of_true ((h.set i (h b (hmem hj))).set j (h a (hmem hi))) trivial
  | toString i | toStringOS i =>
    obtain ⟨b, hi, hstep⟩ := Option.bind_eq_some_iff.1 hstep
    cases hstep
    exact iff_of_true (h.set i (coherent_toGCStringValue (h b (hmem hi)))) trivial

/-- The steps of a run that are done from coherent buffers leave coherent buffers as long as each `KeepsCache`. -/
theorem allCoherent_run_iff : ∀ {ops : List BufferOp} {bs bs' : List Buffer}, AllCoherent bs → run bs ops = some bs' →
    ((∀ pre mid, pre <+: ops → run bs pre = some mid → AllCoherent mid) ↔
      ∀ pre op mid, pre ++ [op] <+: ops → run bs pre = some mid → op.KeepsCache mid)
  | [], bs, _, h, _ => by
    constructor
    · intro _ pre op mid hpre
      have hlen := hpre.length_le
      simp at hlen
    · intro _ pre mid hpre hmid
      rw [List.prefix_nil.1 hpre] at hmid
      cases hmid
      exact h
  | op :: ops, bs, bs', h, hrun => by
    obtain ⟨bs₁, hstep, hrest⟩ := Option.bind_eq_some_iff.1 hrun
    have hone := allCoherent_step_iff h hstep
    have hcons : ∀ pre, run bs (op :: pre) = run bs₁ pre := fun pre => by rw [run, hstep, Option.bind_some]
    constructor
    · intro hall
      have h₁ : AllCoherent bs₁ := hall [op] bs₁ (List.prefix_append [op] ops) (hcons [])
      have htail := (allCoherent_run_iff h₁ hrest).1 fun pre mid hpre hmid =>
        hall (op :: pre) mid (List.cons_prefix_cons.2 ⟨rfl, hpre⟩) ((hcons pre).trans hmid)
      intro pre op' mid hpre hmid
      cases pre with
      | nil =>
        cases hmid
        rw [(List.cons_prefix_cons.1 hpre).1]
        exact hone.1 h₁
      | cons first pre =>
        obtain ⟨rfl, hpre'⟩ := List.cons_prefix_cons.1 hpre
        exact htail pre op' mid hpre' ((hcons pre).symm.trans hmid)
    · intro hkeeps
      have h₁ : AllCoherent bs₁ := hone.2 (hkeeps [] op bs (List.prefix_append [op] ops) rfl)
      have htail := (allCoherent_run_iff h₁ hrest).2 fun pre op' mid hpre hmid =>
        hkeeps (op :: pre) op' mid (List.cons_prefix_cons.2 ⟨rfl, hpre⟩) ((hcons pre).trans hmid)
      intro pre mid hpre hmid
      cases pre with
      | nil =>
        cases hmid
        exact h
      | cons first pre =>
        obtain ⟨rfl, hpre'⟩ := List.cons_prefix_cons.1 hpre
        exact htail pre mid hpre' ((hcons pre).symm.trans hmid)

/-- **In a run from no buffers every buffer is converted to its contents, after each step, exactly when each inherited write
of the run comes to a buffer without a cached string or writes the bytes that are there.** -/
theorem toString_contents_iff {ops : List BufferOp} {bs : List Buffer} (h : run [] ops = some bs) :
    (∀ pre mid, pre <+: ops → run [] pre = some mid → ∀ b ∈ mid, b.toString.1 = b.contents) ↔
      ∀ pre op mid, pre ++ [op] <+: ops → run [] pre = some mid → op.KeepsCache mid := by
  have hnil : AllCoherent [] := fun b hb => absurd hb List.not_mem_nil
  rw [← allCoherent_run_iff hnil h]
  exact forall₄_congr fun pre mid _ _ => forall₂_congr fun b _ => toString_eq_contents

def appendTwice : List BufferOp :=
  [new, append 0 (.char 97), toString 0, append 0 (.char 98)]

theorem toString_contents_appendTwice :
    run [] appendTwice = some [⟨⟨[97, 98], 4, 2, by decide, by decide⟩, none⟩] ∧
      ∀ pre mid, pre <+: appendTwice → run [] pre = some mid → ∀ b ∈ mid, b.toString.1 = b.contents := by
  have hrun : run [] appendTwice = some [⟨⟨[97, 98], 4, 2, by decide, by decide⟩, none⟩] := rfl
  refine ⟨hrun, (toString_contents_iff hrun).2 ?_⟩
  intro pre op mid hpre _
  have hmem : op ∈ appendTwice := hpre.subset (List.mem_append_right pre List.mem_cons_self)
  simp only [appendTwice, List.mem_cons, List.not_mem_nil, or_false] at hmem
  obtain rfl | rfl | rfl | rfl := hmem <;> trivial

/-- A byte written behind a conversion is missing in the next one. -/
theorem not_toString_contents :
    ∃ bs, run [] [new, append 0 (.char 97), toString 0, write 0 (.byte 98)] = some bs ∧
      bs.map (fun b => (b.contents, b.toString.1)) = [([97, 98], [97])] := ⟨_, rfl, rfl⟩

end BufferOp
end Core
end ObjectScript
