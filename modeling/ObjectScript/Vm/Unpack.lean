import ObjectScript.Lib.LittleEndian
/-!
# unpack

`String.unpack` goes through a format of letters, each with a count, a star or nothing behind it, and reads values from the
bytes of the string.  Its arithmetic is that of `int`: there is no result where an `int` overflows, where a byte outside of
the string would be read, and where a loop takes more than `fuel` turns.  An exception is a result.
-/
namespace ObjectScript
namespace Vm

/-- The bytes of a string.  A string, its header and its terminator are allocated by an `int` size; the header is longer than
the eight bytes that are asked for here, so every string there can be is one of these. -/
structure StringBytes where
  bytes : List UInt8
  length_lt : bytes.length + 8 < 2 ^ 31

/-- The letters of a format; the letter of `position` is `@`. -/
inductive PackCode where
  | X | position | a | A | h | H | c | C | x | s | S | n | v | i | I | l | L | N | V | f | d
deriving DecidableEq, Repr

def PackCode.ofChar : Char → Option PackCode
  | 'X' => some X
  | '@' => some position
  | 'a' => some a
  | 'A' => some A
  | 'h' => some h
  | 'H' => some H
  | 'c' => some c
  | 'C' => some C
  | 'x' => some x
  | 's' => some s
  | 'S' => some S
  | 'n' => some n
  | 'v' => some v
  | 'i' => some i
  | 'I' => some I
  | 'l' => some l
  | 'L' => some L
  | 'N' => some N
  | 'V' => some V
  | 'f' => some f
  | 'd' => some d
  | _ => none

def PackCode.toChar : PackCode → Char
  | X => 'X'
  | position => '@'
  | a => 'a'
  | A => 'A'
  | h => 'h'
  | H => 'H'
  | c => 'c'
  | C => 'C'
  | x => 'x'
  | s => 's'
  | S => 'S'
  | n => 'n'
  | v => 'v'
  | i => 'i'
  | I => 'I'
  | l => 'l'
  | L => 'L'
  | N => 'N'
  | V => 'V'
  | f => 'f'
  | d => 'd'

@[simp] theorem PackCode.ofChar_toChar (type : PackCode) : PackCode.ofChar type.toChar = some type := by
  cases type <;> rfl

/-- A value that `unpack` returns; a float is given by its bytes. -/
inductive Unpacked where
  | string (bytes : List UInt8)
  | number (v : Int)
  | float (bytes : List UInt8)
  | double (bytes : List UInt8)
deriving DecidableEq, Repr

inductive UnpackError where
  | invalidFormat (type : Char)
  | integerOverflow (type : PackCode)
  | outsideOfString (type : PackCode)
  | notEnoughInput (type : PackCode) (need have_ : Int)
deriving DecidableEq, Repr

def UnpackError.message : UnpackError → String
  | invalidFormat type => "invalid format type " ++ toString type
  | integerOverflow type => "type " ++ toString type.toChar ++ ": integer overflow"
  | outsideOfString type => "type " ++ toString type.toChar ++ ": outside of string"
  | notEnoughInput type need have_ =>
    "type " ++ toString type.toChar ++ ": not enough input, need " ++ toString need ++ ", have " ++ toString have_

/-- The result of an operation of `int`s. -/
def int32 (x : Int) : Option Int := if -2 ^ 31 ≤ x ∧ x < 2 ^ 31 then some x else none

def INT_MAX : Int := 2 ^ 31 - 1

/-! ## The maps of bytes -/

/-- `sizeof(long)` -/
def longSize : Nat := 8

/-- Where the bytes of a value go to in a `long`, as `init` sets it up.  The maps of the machine are those of the order it
has. -/
structure ByteMaps where
  machine_little_endian : Bool

namespace ByteMaps

variable (m : ByteMaps)

def byte_map : List Nat := if m.machine_little_endian then [0] else [longSize - 1]

def int_map : List Nat :=
  if m.machine_little_endian then [0, 1, 2, 3] else [longSize - 4, longSize - 3, longSize - 2, longSize - 1]

def machine_endian_short_map : List Nat := if m.machine_little_endian then [0, 1] else [longSize - 2, longSize - 1]

def big_endian_short_map : List Nat := if m.machine_little_endian then [1, 0] else [longSize - 2, longSize - 1]

def little_endian_short_map : List Nat := if m.machine_little_endian then [0, 1] else [longSize - 1, longSize - 2]

def machine_endian_long_map : List Nat :=
  if m.machine_little_endian then [0, 1, 2, 3] else [longSize - 4, longSize - 3, longSize - 2, longSize - 1]

def big_endian_long_map : List Nat :=
  if m.machine_little_endian then [3, 2, 1, 0] else [longSize - 4, longSize - 3, longSize - 2, longSize - 1]

def little_endian_long_map : List Nat :=
  if m.machine_little_endian then [0, 1, 2, 3] else [longSize - 1, longSize - 2, longSize - 3, longSize - 4]

/-- The bytes of a `long` in memory, the one of the least weight first. -/
def byWeight (memory : List UInt8) : List UInt8 := if m.machine_little_endian then memory else memory.reverse

/-- The `long` that is in memory. -/
def long (memory : List UInt8) : Int :=
  let n : Int := LittleEndian.value (m.byWeight memory)
  if n < 2 ^ 63 then n else n - 2 ^ 64

def unpackLong (data : List UInt8) (issigned : Bool) (map : List Nat) : Int :=
  let result : List UInt8 := List.replicate longSize (if issigned then 0xff else 0)
  m.long ((map.zip data).foldl (fun cresult p => cresult.set p.1 p.2) result)

end ByteMaps

/-- The bitwise or of two `long`s. -/
def orLong (a b : Int) : Int := (BitVec.ofInt 64 a ||| BitVec.ofInt 64 b).toInt

/-- `(signed int)v` -/
def toSignedInt (v : Int) : Int := (BitVec.ofInt 32 v).toInt

/-- `(unsigned int)v` -/
def toUnsignedInt (v : Int) : Int := (BitVec.ofInt 32 v).toNat

/-! ## The format -/

def isDigit (c : Char) : Bool := '0' ≤ c && c ≤ '9'

/-- `*format - '0'` -/
def digit (c : Char) : Int := c.toNat - '0'.toNat

def readDigits : List Char → Int → Option (Int × List Char)
  | [], arg => some (arg, [])
  | c :: format, arg =>
    if isDigit c then do
      let arg ← int32 (arg * 10)
      let arg ← int32 (arg + digit c)
      readDigits format arg
    else some (arg, c :: format)

/-- The count behind a letter: 1 if there is none, and -1 for a star. -/
def readArg : List Char → Option (Int × List Char)
  | [] => some (1, [])
  | c :: format =>
    if isDigit c then readDigits (c :: format) 0
    else if c = '*' then some (-1, format)
    else some (1, c :: format)

/-- The bytes a turn takes, and the number of turns. -/
def PackCode.sizeArg (type : PackCode) (arg : Int) : Option (Int × Int) :=
  match type with
  | X => some (-1, arg)
  | position => some (0, arg)
  | a | A => some (arg, 1)
  | h | H => if arg > 0 then (int32 (arg + arg % 2)).map fun nibbles => (nibbles / 2, 1) else some (arg, 1)
  | c | C | x => some (1, arg)
  | s | S | n | v => some (2, arg)
  | i | I => some (4, arg)
  | l | L | N | V => some (4, arg)
  | f => some (4, arg)
  | d => some (8, arg)

section

variable (maps : ByteMaps) (input : StringBytes)

def inputlen : Int := input.bytes.length

/-! ## The bytes that are read -/

/-- `input[p]` -/
def readByte (p : Int) : Option UInt8 := if 0 ≤ p then input.bytes[p.toNat]? else none

/-- As many bytes from `&input[p]` on. -/
def readBytes (p : Int) : Nat → Option (List UInt8)
  | 0 => some []
  | n + 1 => do
    let b ← readByte input p
    let bs ← readBytes (p + 1) n
    some (b :: bs)

/-- The loop that removes padding from `len` bytes: where the last byte that is none is, or -1. -/
def removePadding (inputpos : Int) (pad : UInt8) : Nat → Option Int
  | 0 => some (-1)
  | len + 1 => do
    let b ← readByte input (inputpos + len)
    if b ≠ pad then some len else removePadding inputpos pad len

/-- The loop over `len` hex digits. -/
def readHex (inputpos : Int) : Nat → Int → UInt8 → Int → Option (List UInt8)
  | 0, _, _, _ => some []
  | len + 1, ipos, nibbleshift, first => do
    let b ← readByte input (inputpos + ipos)
    let cc := (b >>> nibbleshift) &&& 0xf
    let cc := if cc < 10 then cc + 48 else cc + (97 - 10)
    let nibbleshift := (nibbleshift + 4) &&& 7
    let cs ← if first = 0 then readHex inputpos len (ipos + 1) nibbleshift 1
      else readHex inputpos len ipos nibbleshift (first - 1)
    some (cc :: cs)

/-- `input[p] & 0x80` -/
def readSign (p : Int) : Option Bool := (readByte input p).map fun b => b &&& 0x80 != 0

/-- `&input[p]` and `unpackLong` -/
def readLong (p : Int) (size : Nat) (issigned : Bool) (map : List Nat) : Option Int :=
  (readBytes input p size).map fun data => maps.unpackLong data issigned map

structure Turn where
  i : Int
  size : Int
  inputpos : Int
  values : List Unpacked

def Turn.push (t : Turn) (v : Unpacked) : Turn := { t with values := t.values ++ [v] }

/-- `c` and `C` -/
def readChar (signed : Bool) (p : Int) : Option Int := do
  let issigned ← if signed then readSign input p else some false
  readLong maps input p 1 issigned maps.byte_map

/-- `s`, `S`, `n` and `v` -/
def readShort (signed : Bool) (map : List Nat) (p : Int) : Option Int := do
  let issigned ← if signed then readSign input (p + if maps.machine_little_endian then 1 else 0) else some false
  readLong maps input p 2 issigned map

/-- `i` and `I` -/
def readInt (signed : Bool) (p : Int) : Option Int := do
  let issigned ← if signed then readSign input (p + if maps.machine_little_endian then 3 else 0) else some false
  readLong maps input p 4 issigned maps.int_map

/-- `l`, `L`, `N` and `V`, where a `long` is longer than four bytes. -/
def readLong32 (signed : Bool) (signAt : Int) (map : List Nat) (p : Int) : Option Int := do
  let issigned ← readSign input (p + signAt)
  let v : Int := if issigned then -2 ^ 31 else 0
  let w ← readLong maps input p 4 issigned map
  let v := orLong v w
  some (if signed then toSignedInt v else toUnsignedInt v)

/-- One turn of an item that is in the input.  `argb` is the count as it was written. -/
def unpackTurn (type : PackCode) (arg argb : Int) (t : Turn) : Option (Except UnpackError Turn) :=
  let machineSign : Int := if maps.machine_little_endian then 3 else 0
  match type with
  | .a | .A => do
    let pad : UInt8 := if type = .a then 0 else 32
    let len := inputlen input - t.inputpos
    let len := if t.size ≥ 0 ∧ len > t.size then t.size else len
    let last ← removePadding input t.inputpos pad len.toNat
    let str ← readBytes input t.inputpos (last + 1).toNat
    some (.ok ({ t with size := len }.push (.string str)))
  | .h | .H => do
    let len ← int32 ((inputlen input - t.inputpos) * 2)
    let doubled ← int32 (t.size * 2)
    let len := if t.size ≥ 0 ∧ len > doubled then doubled else len
    let len := if argb > 0 then len - argb % 2 else len
    let buf ← readHex input t.inputpos len.toNat 0 (if type = .h then 0 else 4) 1
    some (.ok (t.push (.string buf)))
  | .c | .C => do
    let v ← readChar maps input (type = .c) t.inputpos
    some (.ok (t.push (.number v)))
  | .s => do
    let v ← readShort maps input true maps.machine_endian_short_map t.inputpos
    some (.ok (t.push (.number v)))
  | .S => do
    let v ← readShort maps input false maps.machine_endian_short_map t.inputpos
    some (.ok (t.push (.number v)))
  | .n => do
    let v ← readShort maps input false maps.big_endian_short_map t.inputpos
    some (.ok (t.push (.number v)))
  | .v => do
    let v ← readShort maps input false maps.little_endian_short_map t.inputpos
    some (.ok (t.push (.number v)))
  | .i | .I => do
    let v ← readInt maps input (type = .i) t.inputpos
    some (.ok (t.push (.number v)))
  | .l => do
    let v ← readLong32 maps input true machineSign maps.machine_endian_long_map t.inputpos
    some (.ok (t.push (.number v)))
  | .L => do
    let v ← readLong32 maps input false machineSign maps.machine_endian_long_map t.inputpos
    some (.ok (t.push (.number v)))
  | .N => do
    let v ← readLong32 maps input false 0 maps.big_endian_long_map t.inputpos
    some (.ok (t.push (.number v)))
  | .V => do
    let v ← readLong32 maps input false 3 maps.little_endian_long_map t.inputpos
    some (.ok (t.push (.number v)))
  | .f => (readBytes input t.inputpos 4).map fun bytes => .ok (t.push (.float bytes))
  | .d => (readBytes input t.inputpos 8).map fun bytes => .ok (t.push (.double bytes))
  | .x => some (.ok t)
  | .X =>
    if t.inputpos < t.size then
      if arg ≥ 0 then some (.error (.outsideOfString type))
      else some (.ok { t with inputpos := -t.size, i := arg - 1 })
    else some (.ok t)
  | .position =>
    if arg ≤ inputlen input then some (.ok { t with inputpos := arg, i := arg - 1 })
    else some (.error (.outsideOfString type))

def unpackLoop (type : PackCode) (arg argb : Int) : Nat → Turn → Option (Except UnpackError Turn)
  | 0, _ => none
  | fuel + 1, t =>
    if t.i = arg then some (.ok t)
    else if t.size ≠ 0 ∧ t.size ≠ -1 ∧ INT_MAX - t.size + 1 < t.inputpos then some (.error (.integerOverflow type))
    else do
      let stop ← int32 (t.inputpos + t.size)
      if stop ≤ inputlen input then
        match ← unpackTurn maps input type arg argb t with
        | .error e => some (.error e)
        | .ok t =>
          let inputpos ← int32 (t.inputpos + t.size)
          if inputpos < 0 ∧ t.size ≠ -1 then some (.error (.outsideOfString type))
          else
            let i ← int32 (t.i + 1)
            unpackLoop type arg argb fuel { t with i, inputpos := if inputpos < 0 then 0 else inputpos }
      else if arg < 0 then some (.ok t)
      else some (.error (.notEnoughInput type t.size (inputlen input - t.inputpos)))

/-- An item: its letter and the count as it was written. -/
def unpackItem (fuel : Nat) (type : PackCode) (argb : Int) (inputpos : Int) (values : List Unpacked) :
    Option (Except UnpackError Turn) := do
  let (size, arg) ← type.sizeArg argb
  unpackLoop maps input type arg argb fuel ⟨0, size, inputpos, values⟩

end

theorem readDigits_length : ∀ {format rest : List Char} {arg arg' : Int}, readDigits format arg = some (arg', rest) →
    rest.length ≤ format.length
  | [], rest, arg, arg', h => by
    obtain ⟨-, rfl⟩ := Prod.mk.inj (Option.some.inj h)
    exact Nat.le_refl _
  | c :: format, rest, arg, arg', h => by
    rw [readDigits] at h
    split at h
    · obtain ⟨x, -, h⟩ := Option.bind_eq_some_iff.1 h
      obtain ⟨y, -, h⟩ := Option.bind_eq_some_iff.1 h
      exact Nat.le_succ_of_le (readDigits_length h)
    · obtain ⟨-, rfl⟩ := Prod.mk.inj (Option.some.inj h)
      exact Nat.le_refl _

theorem readArg_length {format rest : List Char} {arg : Int} (h : readArg format = some (arg, rest)) :
    rest.length ≤ format.length := by
  cases format with
  | nil =>
    obtain ⟨-, rfl⟩ := Prod.mk.inj (Option.some.inj h)
    exact Nat.le_refl _
  | cons c format =>
    rw [readArg] at h
    split at h
    · exact readDigits_length h
    · split at h
      · obtain ⟨-, rfl⟩ := Prod.mk.inj (Option.some.inj h)
        exact Nat.le_succ _
      · obtain ⟨-, rfl⟩ := Prod.mk.inj (Option.some.inj h)
        exact Nat.le_refl _

/-- The loop over the format, from this position of the input on. -/
def unpackFormat (maps : ByteMaps) (input : StringBytes) (fuel : Nat) (format : List Char) (inputpos : Int)
    (values : List Unpacked) : Option (Except UnpackError (List Unpacked)) :=
  match format with
  | [] => some (.ok values)
  | type :: format =>
    match _h : readArg format with
    | none => none
    | some (argb, rest) =>
      match PackCode.ofChar type with
      | none => some (.error (.invalidFormat type))
      | some code =>
        match unpackItem maps input fuel code argb inputpos values with
        | none => none
        | some (.error e) => some (.error e)
        | some (.ok t) => unpackFormat maps input fuel rest t.inputpos t.values
termination_by format.length
decreasing_by
  exact Nat.lt_succ_of_le (readArg_length _h)

def unpack (maps : ByteMaps) (fuel : Nat) (format : List Char) (input : StringBytes) :
    Option (Except UnpackError (List Unpacked)) :=
  unpackFormat maps input fuel format 0 []

end Vm
end ObjectScript
