import ObjectScript.Vm.Unpack
/-!
# pack

`String.pack` goes through the letters of a format three times: it resolves their counts against the arguments, it computes
the size of the output, and it writes the bytes.  As for `unpack` there is no result where an `int` overflows; nor is there
one where a byte would be written outside of the output.  An exception is a result.

The three loops are over the same letters and arguments; the first one leaves the counts that the other two use.  The
position of the output is an `int` throughout and is checked where the source checks it.  The output is the bytes: that
`pushString` makes a string of them is left out.
-/
namespace ObjectScript
namespace Vm

/-- An argument, by what its conversions give: its string, its number as a `long`, and the bytes of its number as a `float` and
as a `double`. -/
structure PackArg where
  string : StringBytes
  long : Int
  float : List UInt8
  double : List UInt8
  length_float : float.length = 4
  length_double : double.length = 8

/-- The arguments of a call.  Together with the format they are counted by an `int`. -/
structure PackArgs where
  args : List PackArg
  length_lt : args.length + 1 < 2 ^ 31

inductive PackError where
  | starError (code : PackCode)
  | notEnoughArguments (code : PackCode)
  | tooFewArguments (code : PackCode)
  | unknownFormatCode (code : Char)
  | argumentsUnused (count : Int)
  | integerOverflow (code : PackCode)
  | outsideOfString (code : PackCode)
  | notEnoughCharacters (code : PackCode)
  | illegalHexDigit (code : PackCode) (n : UInt8)
deriving DecidableEq, Repr

def PackError.message : PackError → String
  | starError code => "type " ++ toString code.toChar ++ ": '*' error"
  | notEnoughArguments code => "type " ++ toString code.toChar ++ ": not enough arguments"
  | tooFewArguments code => "type " ++ toString code.toChar ++ ": too few arguments"
  | unknownFormatCode code => "type " ++ toString code ++ ": unknown format code"
  | argumentsUnused count => toString count ++ " arguments unused"
  | integerOverflow code => "Type " ++ toString code.toChar ++ ": integer overflow in format string"
  | outsideOfString code => "type " ++ toString code.toChar ++ ": outside of string"
  | notEnoughCharacters code => "type " ++ toString code.toChar ++ ": not enough characters in string"
  | illegalHexDigit code n => "type " ++ toString code.toChar ++ ": illegal hex digit " ++ toString (Char.ofNat n.toNat)

/-! ## The counts -/

/-- One letter: its count, and the arguments that are left.  `params` counts the format and the arguments. -/
def preprocessCode (params : Int) (code : PackCode) (arg : Int) (args : List PackArg) :
    Option (Except PackError (Int × List PackArg)) :=
  match code with
  | .x | .X | .position => some (if arg < 0 then .error (.starError code) else .ok (arg, args))
  | .a | .A | .h | .H =>
    match args with
    | [] => some (.error (.notEnoughArguments code))
    | val :: args => some (.ok (if arg < 0 then inputlen val.string else arg, args))
  | _ => do
    let currentarg : Int := params - args.length
    let arg := if arg < 0 then params - currentarg else arg
    let currentarg ← int32 (currentarg + arg)
    if currentarg > params then some (.error (.tooFewArguments code)) else some (.ok (arg, args.drop arg.toNat))

def preprocess (params : Int) (format : List Char) (args : List PackArg) : Option (Except PackError (List (PackCode × Int))) :=
  match format with
  | [] => some (if args = [] then .ok [] else .error (.argumentsUnused args.length))
  | code :: format =>
    match _h : readArg format with
    | none => none
    | some (arg, rest) =>
      match PackCode.ofChar code with
      | none => some (.error (.unknownFormatCode code))
      | some code =>
        match preprocessCode params code arg args with
        | none => none
        | some (.error e) => some (.error e)
        | some (.ok (arg, args)) =>
          match preprocess params rest args with
          | none => none
          | some (.error e) => some (.error e)
          | some (.ok items) => some (.ok ((code, arg) :: items))
termination_by format.length
decreasing_by
  exact Nat.lt_succ_of_le (readArg_length _h)

/-! ## The size -/

/-- `OS_INC_OUTPUTPOS` -/
def incOutputpos (code : PackCode) (outputpos a b : Int) : Except PackError Int :=
  if a < 0 ∨ (INT_MAX - outputpos) / b < a then .error (.integerOverflow code) else .ok (outputpos + a * b)

/-- Where a letter moves the position of the output to. -/
def advance (code : PackCode) (arg outputpos : Int) : Option (Except PackError Int) :=
  match code with
  | .h | .H => (int32 (arg + arg % 2)).map fun nibbles => incOutputpos code outputpos (nibbles / 2) 1
  | .a | .A | .c | .C | .x => some (incOutputpos code outputpos arg 1)
  | .s | .S | .n | .v => some (incOutputpos code outputpos arg 2)
  | .i | .I => some (incOutputpos code outputpos arg 4)
  | .l | .L | .N | .V => some (incOutputpos code outputpos arg 4)
  | .f => some (incOutputpos code outputpos arg 4)
  | .d => some (incOutputpos code outputpos arg 8)
  | .X => some (if outputpos - arg < 0 then .error (.outsideOfString code) else .ok (outputpos - arg))
  | .position => some (.ok arg)

def computeSize : List (PackCode × Int) → Int → Int → Option (Except PackError Int)
  | [], _, outputsize => some (.ok outputsize)
  | (code, arg) :: items, outputpos, outputsize =>
    match advance code arg outputpos with
    | none => none
    | some (.error e) => some (.error e)
    | some (.ok outputpos) => computeSize items outputpos (if outputsize < outputpos then outputpos else outputsize)

/-! ## The output -/

/-- `output[p] = b` -/
def writeByte (output : List UInt8) (p : Int) (b : UInt8) : Option (List UInt8) :=
  if 0 ≤ p ∧ p < output.length then some (output.set p.toNat b) else none

/-- These bytes from `&output[p]` on. -/
def writeBytes (output : List UInt8) (p : Int) : List UInt8 → Option (List UInt8)
  | [] => some output
  | b :: bs => do
    let output ← writeByte output p b
    writeBytes output (p + 1) bs

/-- `output[p] |= b` -/
def orByte (output : List UInt8) (p : Int) (b : UInt8) : Option (List UInt8) := do
  let old ← if 0 ≤ p then output[p.toNat]? else none
  writeByte output p (old ||| b)

def hexDigit (n : UInt8) : Option UInt8 :=
  if 48 ≤ n ∧ n ≤ 57 then some (n - 48)
  else if 65 ≤ n ∧ n ≤ 70 then some (n - (65 - 10))
  else if 97 ≤ n ∧ n ≤ 102 then some (n - (97 - 10))
  else none

/-- The loop over `arg` hex digits. -/
def packHex (code : PackCode) : Nat → List UInt8 → List UInt8 → Int → UInt8 → Int →
    Option (Except PackError (List UInt8 × Int))
  | 0, _, output, outputpos, _, _ => some (.ok (output, outputpos))
  | _ + 1, [], _, _, _, _ => none
  | arg + 1, n :: v, output, outputpos, nibbleshift, first =>
    match hexDigit n with
    | none => some (.error (.illegalHexDigit code n))
    | some n => do
      let outputpos := if first ≠ 0 then outputpos + 1 else outputpos
      let output ← if first ≠ 0 then writeByte output outputpos 0 else some output
      let first := if first ≠ 0 then first - 1 else 1
      let output ← orByte output outputpos (n <<< nibbleshift)
      packHex code arg v output outputpos ((nibbleshift + 4) &&& 7) first

namespace ByteMaps

variable (m : ByteMaps)

/-- The bytes of a `long` in memory. -/
def memory (val : Int) : List UInt8 := m.byWeight (LittleEndian.bytes longSize (val % 2 ^ 64).toNat)

def packLong (val : Int) (size : Nat) (map : List Nat) : List UInt8 :=
  (map.take size).map fun i => (m.memory val).getD i 0

/-- The bytes that one argument of a letter for numbers becomes. -/
def packNumber (code : PackCode) (val : PackArg) : List UInt8 :=
  match code with
  | .c | .C => m.packLong val.long 1 m.byte_map
  | .n => m.packLong val.long 2 m.big_endian_short_map
  | .v => m.packLong val.long 2 m.little_endian_short_map
  | .s | .S => m.packLong val.long 2 m.machine_endian_short_map
  | .i | .I => m.packLong val.long 4 m.int_map
  | .N => m.packLong val.long 4 m.big_endian_long_map
  | .V => m.packLong val.long 4 m.little_endian_long_map
  | .l | .L => m.packLong val.long 4 m.machine_endian_long_map
  | .f => val.float
  | .d => val.double
  | _ => []

end ByteMaps

structure Output where
  output : List UInt8
  outputpos : Int
  args : List PackArg

section

variable (maps : ByteMaps)

def packNumbers (code : PackCode) : Nat → Output → Option Output
  | 0, o => some o
  | arg + 1, o =>
    match o.args with
    | [] => none
    | val :: args => do
      let bytes := maps.packNumber code val
      let output ← writeBytes o.output o.outputpos bytes
      packNumbers code arg ⟨output, o.outputpos + bytes.length, args⟩

def packItem (code : PackCode) (arg : Int) (o : Output) : Option (Except PackError Output) :=
  match code with
  | .a | .A =>
    match o.args with
    | [] => none
    | val :: args => do
      let output ← writeBytes o.output o.outputpos (List.replicate arg.toNat (if code = .a then 0 else 32))
      let len := inputlen val.string
      let output ← writeBytes output o.outputpos (val.string.bytes.take (if len < arg then len else arg).toNat)
      some (.ok ⟨output, o.outputpos + arg, args⟩)
  | .h | .H =>
    match o.args with
    | [] => none
    | val :: args =>
      if arg > inputlen val.string then some (.error (.notEnoughCharacters code))
      else
        match packHex code arg.toNat val.string.bytes o.output (o.outputpos - 1) (if code = .h then 0 else 4) 1 with
        | none => none
        | some (.error e) => some (.error e)
        | some (.ok (output, outputpos)) => some (.ok ⟨output, outputpos + 1, args⟩)
  | .x => do
    let output ← writeBytes o.output o.outputpos (List.replicate arg.toNat 0)
    some (.ok { o with output, outputpos := o.outputpos + arg })
  | .X => some (.ok { o with outputpos := if o.outputpos - arg < 0 then 0 else o.outputpos - arg })
  | .position => do
    let output ← if arg > o.outputpos then writeBytes o.output o.outputpos (List.replicate (arg - o.outputpos).toNat 0)
      else some o.output
    some (.ok { o with output, outputpos := arg })
  | _ => (packNumbers maps code arg.toNat o).map .ok

def packItems : List (PackCode × Int) → Output → Option (Except PackError Output)
  | [], o => some (.ok o)
  | (code, arg) :: items, o =>
    match packItem maps code arg o with
    | none => none
    | some (.error e) => some (.error e)
    | some (.ok o) => packItems items o

/-- The result of `pack`.  What is in the memory of the output before is `fresh`. -/
def pack (fresh : Nat → UInt8) (format : List Char) (args : PackArgs) : Option (Except PackError (List UInt8)) :=
  match preprocess (args.args.length + 1) format args.args with
  | none => none
  | some (.error e) => some (.error e)
  | some (.ok items) =>
    match computeSize items 0 0 with
    | none => none
    | some (.error e) => some (.error e)
    | some (.ok outputsize) => do
      let capacity ← int32 (outputsize + 1)
      match ← packItems maps items ⟨(List.range capacity.toNat).map fresh, 0, args.args⟩ with
      | .error e => some (.error e)
      | .ok o => do
        let output ← writeByte o.output o.outputpos 0
        some (.ok (output.take o.outputpos.toNat))

end

end Vm
end ObjectScript
