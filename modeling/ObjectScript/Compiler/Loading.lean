import Mathlib.Data.Nat.ModEq
import ObjectScript.Compiler.RoundTrip
/-!
# Loading an arbitrary stream

The streams that `loadFromStream` makes a program of are those that begin with the words of a `File`: its fields one after
the other, a number in any `UVariable` of it, the indexes that are asserted inside their tables, and the tables of a size
that can be allocated (`loadFromStream_some_iff`).  Nothing else is checked.  A stream is loaded safely exactly if it is
rejected at the header or the version, or begins with the words of a file that fits in memory and has all its indexes inside
their tables.
-/
namespace ObjectScript
namespace Compiler
namespace Bytecode

open ByteReader (Reads Parses fail check many)
open ObjectScript.Core (Double Single)
open ByteStream

/-! ### Words -/

/-- The value of the bytes of a `UVariable`. -/
def groups : List UInt8 → Nat
  | [] => 0
  | b :: bs => b.toNat % 128 + 128 * groups bs

/-- The high bit is set in every byte but the last. -/
def Terminated : List UInt8 → Prop
  | [] => False
  | b :: bs => if 128 ≤ b.toNat then Terminated bs else bs = []

/-- The words that are read as `n`: an `int` is taken, which has room for five bytes. -/
def uVariable (n : Nat) : Language UInt8 := {w | Terminated w ∧ w.length ≤ 5 ∧ groups w % 2 ^ 32 = n ∧ n < 2 ^ 31}

/-- The word of a value with a fixed number of bytes. -/
def fixed {α : Type} (size : Nat) (value : List UInt8 → α) (a : α) : Language UInt8 := {w | w.length = size ∧ value w = a}

theorem or_shiftLeft_mod {value i x : Nat} (hv : value < 2 ^ i) (hi : i < 32) :
    value ||| (x <<< i) % 2 ^ 32 = (value + x * 2 ^ i) % 2 ^ 32 := by
  have hpow : 2 ^ 32 = 2 ^ (32 - i) * 2 ^ i := by
    rw [← Nat.pow_add]
    congr 1
    omega
  have hmod : (x <<< i) % 2 ^ 32 = x % 2 ^ (32 - i) * 2 ^ i := by
    rw [Nat.shiftLeft_eq, hpow, Nat.mul_mod_mul_right]
  have hlt : value + x % 2 ^ (32 - i) * 2 ^ i < 2 ^ 32 := by
    have hx : x % 2 ^ (32 - i) + 1 ≤ 2 ^ (32 - i) := Nat.mod_lt _ (Nat.two_pow_pos _)
    calc value + x % 2 ^ (32 - i) * 2 ^ i < (x % 2 ^ (32 - i) + 1) * 2 ^ i := by rw [Nat.add_mul]; omega
      _ ≤ 2 ^ (32 - i) * 2 ^ i := Nat.mul_le_mul_right _ hx
      _ = 2 ^ 32 := hpow.symm
  have hsum : (value + x * 2 ^ i) % 2 ^ 32 = (value + x % 2 ^ (32 - i) * 2 ^ i) % 2 ^ 32 := by
    have hmul : x * 2 ^ i % 2 ^ 32 = x % 2 ^ (32 - i) * 2 ^ i := by
      rw [← Nat.shiftLeft_eq]
      exact hmod
    rw [← Nat.add_mod_mod, hmul]
  rw [hmod, Nat.or_comm, ← Nat.shiftLeft_eq, ← Nat.shiftLeft_add_eq_or_of_lt hv, Nat.shiftLeft_eq, Nat.add_comm, hsum,
    Nat.mod_eq_of_lt hlt]

/-- A group of seven bits moves from the bytes to the value. -/
theorem groups_step (b : UInt8) (value i : Nat) (w : List UInt8) :
    Nat.ModEq (2 ^ 32) ((value + b.toNat % 128 * 2 ^ i) % 2 ^ 32 + groups w * 2 ^ (i + 7)) (value + groups (b :: w) * 2 ^ i) := by
  have hsum : value + groups (b :: w) * 2 ^ i = value + b.toNat % 128 * 2 ^ i + groups w * 2 ^ (i + 7) := by
    rw [groups]
    ring
  rw [hsum]
  exact Nat.ModEq.add_right _ (Nat.mod_modEq _ _)

theorem value_step_lt (b : UInt8) {value i : Nat} (hv : value < 2 ^ i) : (value + b.toNat % 128 * 2 ^ i) % 2 ^ 32 < 2 ^ (i + 7) := by
  have hmod : b.toNat % 128 + 1 ≤ 128 := Nat.mod_lt _ (by decide)
  calc (value + b.toNat % 128 * 2 ^ i) % 2 ^ 32 ≤ value + b.toNat % 128 * 2 ^ i := Nat.mod_le _ _
    _ < (b.toNat % 128 + 1) * 2 ^ i := by rw [Nat.add_mul]; omega
    _ ≤ 128 * 2 ^ i := Nat.mul_le_mul_right _ hmod
    _ = 2 ^ (i + 7) := by ring

theorem groups_last {b : UInt8} (hb : ¬0x80 ≤ b.toNat) : groups [b] = b.toNat := by
  rw [groups, groups, Nat.mod_eq_of_lt (by omega)]
  omega

theorem readUVariableLoop_ok : ∀ (input : List UInt8) (value i n : Nat) (rest : List UInt8), value < 2 ^ i →
    (readUVariableLoop value i input = .ok (n, rest) ↔ ∃ w, Terminated w ∧ i + 7 * w.length < 39 ∧
      (value + groups w * 2 ^ i) % 2 ^ 32 = n ∧ n < 2 ^ 31 ∧ input = w ++ rest)
  | [], value, i, n, rest, _ => by
    constructor
    · intro h
      cases h
    · rintro ⟨w, hw, -, -, -, hnil⟩
      rw [List.append_eq_nil_iff.1 hnil.symm |>.1] at hw
      exact hw.elim
  | b :: input, value, i, n, rest, hv => by
    have hlen : ∀ w : List UInt8, (b :: w).length = w.length + 1 := fun w => rfl
    rw [readUVariableLoop]
    by_cases hi : 32 ≤ i
    · rw [if_pos hi]
      constructor
      · intro h
        cases h
      · rintro ⟨w, hw, hlen, -⟩
        cases w with
        | nil => exact hw.elim
        | cons c w => rw [List.length_cons] at hlen; omega
    · have hi' : i < 32 := Nat.lt_of_not_le hi
      rw [if_neg hi]
      by_cases hb : 0x80 ≤ b.toNat
      · have hmask : b.toNat &&& 0x7f = b.toNat % 128 := Nat.and_two_pow_sub_one_eq_mod b.toNat 7
        rw [if_pos hb, hmask, or_shiftLeft_mod hv hi', readUVariableLoop_ok input _ _ n rest (value_step_lt b hv)]
        constructor
        · rintro ⟨w, hw, hlt, hval, hn, rfl⟩
          refine ⟨b :: w, ?_, by rw [hlen]; omega, ?_, hn, rfl⟩
          · rw [Terminated, if_pos hb]
            exact hw
          · rw [← hval]
            exact (groups_step b value i w).symm
        · rintro ⟨w, hw, hlt, hval, hn, happ⟩
          cases w with
          | nil => exact hw.elim
          | cons c w =>
            injection happ with hc happ
            subst hc
            rw [Terminated, if_pos hb] at hw
            rw [hlen] at hlt
            exact ⟨w, hw, by omega, Eq.trans (groups_step b value i w) hval, hn, happ⟩
      · rw [if_neg hb, or_shiftLeft_mod hv hi']
        constructor
        · intro h
          dsimp only at h
          split at h
          · rename_i hn
            cases h
            refine ⟨[b], ?_, by rw [List.length_singleton]; omega, by rw [groups_last hb], hn, rfl⟩
            rw [Terminated, if_neg hb]
          · cases h
        · rintro ⟨w, hw, hlt, hval, hn, happ⟩
          cases w with
          | nil => exact hw.elim
          | cons c w =>
            injection happ with hc happ
            subst hc
            rw [Terminated, if_neg hb] at hw
            subst hw
            rw [groups_last hb] at hval
            dsimp only
            rw [hval, if_pos hn, happ]
            rfl

theorem parses_readUVariable : Parses readUVariable (fun _ => True) id uVariable := by
  intro input n rest
  have hfirst : readUVariable.run input = .ok (n, rest) ↔ readUVariableLoop 0 0 input = .ok (n, rest) := by
    cases input with
    | nil =>
      constructor <;> intro h <;> cases h
    | cons b input =>
      have hrun : readUVariable.run (b :: input) =
          (if b.toNat < 0x80 then pure b.toNat else readUVariableLoop (b.toNat &&& 0x7f) 7 : StreamReader Nat).run input := rfl
      rw [hrun, readUVariableLoop, if_neg (show ¬ 32 ≤ 0 by decide)]
      by_cases hb : b.toNat < 0x80
      · rw [if_pos hb, if_neg (Nat.not_le_of_lt hb), or_shiftLeft_mod (by decide) (by decide)]
        have hmod : (0 + b.toNat * 2 ^ 0) % 2 ^ 32 = b.toNat := by omega
        dsimp only
        rw [hmod, if_pos (by omega)]
        rfl
      · have hmask : b.toNat &&& 0x7f = b.toNat % 128 := Nat.and_two_pow_sub_one_eq_mod b.toNat 7
        have hmod : (0 + b.toNat % 128 * 2 ^ 0) % 2 ^ 32 = b.toNat % 128 := by omega
        rw [if_neg hb, if_pos (Nat.le_of_not_lt hb), hmask, or_shiftLeft_mod (by decide) (by decide), hmod]
        rfl
  rw [hfirst, readUVariableLoop_ok input 0 0 n rest Nat.one_pos]
  constructor
  · rintro ⟨w, hw, hlen, hval, hn, happ⟩
    refine ⟨n, trivial, rfl, w, ⟨hw, by omega, ?_, hn⟩, happ⟩
    rw [← hval, Nat.zero_add, Nat.pow_zero, Nat.mul_one]
  · rintro ⟨m, -, rfl, w, ⟨hw, hlen, hval, hm⟩, happ⟩
    refine ⟨w, hw, by omega, ?_, hm, happ⟩
    rw [Nat.zero_add, Nat.pow_zero, Nat.mul_one]
    exact hval

theorem parses_fixed {α : Type} (size : Nat) (value : List UInt8 → α) :
    Parses (do return value (← readBytes size) : StreamReader α) (fun _ => True) id (fixed size value) := by
  intro input a rest
  constructor
  · intro h
    obtain ⟨w, mid, hw, hr⟩ := ByteReader.run_bind_ok.1 h
    obtain ⟨hlen, rfl⟩ := run_readBytes_ok.1 hw
    obtain ⟨rfl, rfl⟩ := ByteReader.run_pure_ok.1 hr
    exact ⟨_, trivial, rfl, w, ⟨hlen, rfl⟩, rfl⟩
  · rintro ⟨b, -, rfl, w, ⟨rfl, rfl⟩, rfl⟩
    exact (reads_readBytes w).bind_pure value rest

theorem parses_readByte : Parses readByte (fun _ => True) id fun b => {[b]} := by
  intro input b rest
  constructor
  · intro h
    cases input with
    | nil => cases h
    | cons c input =>
      cases h
      exact ⟨_, trivial, rfl, _, rfl, rfl⟩
  · rintro ⟨c, -, rfl, w, rfl, rfl⟩
    exact reads_readByte c rest

theorem parses_readBytes (len : Nat) : Parses (readBytes len) (fun w => w.length = len) id fun w => {w} := by
  intro input w rest
  rw [run_readBytes_ok]
  constructor
  · rintro ⟨hlen, happ⟩
    exact ⟨w, hlen, rfl, w, rfl, happ⟩
  · rintro ⟨v, hlen, rfl, u, rfl, happ⟩
    exact ⟨hlen, happ⟩

/-! ### Files -/

structure NumberEntry where
  /-- The distance of its index from the entry before. -/
  delta : Nat
  number : Double

/-- Positions are counted from the first instruction of the function. -/
structure FunctionEntry where
  parentLink : Nat
  stackSize : Nat
  numParams : Nat
  maxUpCount : Nat
  funcDepth : Nat
  funcIndex : Nat
  numLocalFuncs : Nat
  opcodesPos : Nat
  opcodesSize : Nat
  locals : List LocalVarCompiled
  tryBlocks : List TryBlock

structure File where
  ints : List NumberEntry
  floats : List NumberEntry
  doubles : List NumberEntry
  longDoubles : List NumberEntry
  strings : List (List UInt8)
  functions : List FunctionEntry
  opcodes : List Nat
  debugInfo : List DebugInfoItem
  filename : Nat

def File.numNumbers (f : File) : Nat := f.ints.length + f.floats.length + f.doubles.length + f.longDoubles.length

/-! ### The words of a file -/

def intNumber (x : Double) : Language UInt8 := {w | ∃ n, w ∈ uVariable n ∧ Double.ofInt n = x}

def floatNumber : Double → Language UInt8 := fixed 4 fun w => (Single.ofBits (LittleEndian.value w)).widen

def doubleNumber : Double → Language UInt8 := fixed 8 fun w => Double.ofBits (LittleEndian.value w)

def longDoubleNumber (P : Platform) : Double → Language UInt8 := fixed P.longDoubleSize P.ofLongDoubleBytes

def NumberEntry.words (number : Double → Language UInt8) (e : NumberEntry) : Language UInt8 :=
  uVariable e.delta * number e.number

def stringWords (str : List UInt8) : Language UInt8 := uVariable str.length * {str}

def flag (b : Bool) : Language UInt8 := {w | ∃ c : UInt8, w = [c] ∧ (c != 0) = b}

def localWords (v : LocalVarCompiled) : Language UInt8 :=
  uVariable v.cachedNameIndex * (uVariable v.startCodePos * (uVariable v.endCodePos * flag v.upvalue))

def tryWords (t : TryBlock) : Language UInt8 :=
  uVariable t.startCodePos * (uVariable t.endCodePos * uVariable t.catchVarIndex)

def FunctionEntry.words (f : FunctionEntry) : Language UInt8 :=
  uVariable f.parentLink * (uVariable f.stackSize * (uVariable f.locals.length * (uVariable f.numParams *
    (uVariable f.maxUpCount * (uVariable f.funcDepth * (uVariable f.funcIndex * (uVariable f.numLocalFuncs *
      (uVariable f.tryBlocks.length * (uVariable f.opcodesPos * (uVariable f.opcodesSize *
        ((f.locals.map localWords).prod * (f.tryBlocks.map tryWords).prod)))))))))))

def debugWords (item : DebugInfoItem) : Language UInt8 := uVariable item.line * uVariable item.pos

def anyByte : Language UInt8 := {w | w.length = 1}

def File.body (P : Platform) (f : File) : Language UInt8 :=
  uVariable f.ints.length * (uVariable f.floats.length * (uVariable f.doubles.length *
    (uVariable f.longDoubles.length * (uVariable f.strings.length * (uVariable f.functions.length *
      (uVariable f.opcodes.length * (uVariable f.debugInfo.length * (uVariable f.filename *
        ((f.ints.map (·.words intNumber)).prod * ((f.floats.map (·.words floatNumber)).prod *
          ((f.doubles.map (·.words doubleNumber)).prod * ((f.longDoubles.map (·.words (longDoubleNumber P))).prod *
            ((f.strings.map stringWords).prod * ((f.functions.map FunctionEntry.words).prod *
              ((f.opcodes.map (fixed 4 LittleEndian.value)).prod * (f.debugInfo.map debugWords).prod)))))))))))))))

def File.words (P : Platform) (f : File) : Language UInt8 := {header} * (anyByte * ({P.version} * f.body P))

/-! ### What is asserted, and the program that is made -/

/-- The index of every entry is below `n`. -/
def InTable (n : Nat) : Nat → List NumberEntry → Prop
  | _, [] => True
  | i, e :: es => i + e.delta < n ∧ InTable n (i + e.delta) es

def place : Nat → List NumberEntry → List (Option Double) → List (Option Double)
  | _, [], values => values
  | i, e :: es, values => place (i + e.delta) es (values.set (i + e.delta) (some e.number))

structure File.Asserted (f : File) : Prop where
  filename : f.filename < f.strings.length
  ints : InTable f.numNumbers 0 f.ints
  floats : InTable f.numNumbers 0 f.floats
  doubles : InTable f.numNumbers 0 f.doubles
  longDoubles : InTable f.numNumbers 0 f.longDoubles
  names : ∀ e ∈ f.functions, ∀ v ∈ e.locals, v.cachedNameIndex < f.strings.length

/-- The buffer that the strings come through, from some capacity on, and each string have their memory. -/
def StringsFit (memory : Memory) (P : Platform) : Nat → List (List UInt8) → Prop
  | _, [] => True
  | capacity, str :: strings => Reserves memory 1 capacity str.length ∧ memory (str.length + P.stringOverhead) = true ∧
      StringsFit memory P (grownCapacity capacity str.length) strings

structure FunctionEntry.Fits (memory : Memory) (P : Platform) (f : FunctionEntry) : Prop where
  locals : memory (P.sizeofLocalVar * f.locals.length) = true
  tryBlocks : memory (P.sizeofTryBlock * f.tryBlocks.length) = true

/-- **`malloc` has a block for everything that is allocated for the file.** -/
structure File.Fits (memory : Memory) (P : Platform) (f : File) : Prop where
  constValues : memory (P.sizeofValue * (f.numNumbers + f.strings.length + constStdValues)) = true
  strings : StringsFit memory P 0 f.strings
  functions : memory (P.sizeofFunctionDecl * f.functions.length) = true
  function : ∀ e ∈ f.functions, e.Fits memory P
  opcodes : Reserves memory 4 0 f.opcodes.length
  debugInfo : Reserves memory 8 0 f.debugInfo.length

def LocalVarCompiled.load (strings : List (List UInt8)) (opcodesPos : Nat) (v : LocalVarCompiled) : LocalVar where
  name := strings[v.cachedNameIndex]?.getD []
  startCodePos := v.startCodePos + opcodesPos
  endCodePos := v.endCodePos + opcodesPos
  upvalue := v.upvalue

def TryBlock.load (opcodesPos : Nat) (t : TryBlock) : TryBlock where
  startCodePos := t.startCodePos + opcodesPos
  endCodePos := t.endCodePos + opcodesPos
  catchVarIndex := t.catchVarIndex

def FunctionEntry.load (strings : List (List UInt8)) (f : FunctionEntry) : FunctionDecl where
  progParentFuncIndex := f.parentLink - 1
  stackSize := f.stackSize
  numParams := f.numParams
  maxUpCount := f.maxUpCount
  funcDepth := f.funcDepth
  funcIndex := f.funcIndex
  numLocalFuncs := f.numLocalFuncs
  opcodesPos := f.opcodesPos
  opcodesSize := f.opcodesSize
  locals := f.locals.map (·.load strings f.opcodesPos)
  tryBlocks := f.tryBlocks.map (·.load f.opcodesPos)

def File.program (f : File) : Program where
  filename := f.strings[f.filename]?.getD []
  numbers := place 0 f.longDoubles (place 0 f.doubles (place 0 f.floats (place 0 f.ints (List.replicate f.numNumbers none))))
  strings := f.strings
  functions := f.functions.map (·.load f.strings)
  opcodes := f.opcodes
  debugInfo := f.debugInfo

/-! ### What is read -/

theorem reads_uVariable {n : Nat} {w : List UInt8} (h : w ∈ uVariable n) : Reads readUVariable n w :=
  parses_readUVariable.reads trivial h

theorem constString_step {γ : Type} {strings : List (List UInt8)} {i : Nat} {f : List UInt8 → StreamReader γ}
    {input rest : List UInt8} {c : γ} (h : (constString strings i >>= f).run input = .ok (c, rest)) :
    i < strings.length ∧ (f (strings[i]?.getD [])).run input = .ok (c, rest) := by
  obtain ⟨str, mid, hstr, hf⟩ := ByteReader.run_bind_ok.1 h
  unfold constString at hstr
  cases hi : strings[i]? with
  | none =>
    rw [hi] at hstr
    cases hstr
  | some str' =>
    rw [hi] at hstr
    obtain ⟨rfl, rfl⟩ := ByteReader.run_pure_ok.1 hstr
    exact ⟨(List.getElem?_eq_some_iff.1 hi).1, hf⟩

theorem parses_readLocal (strings : List (List UInt8)) (pos : Nat) :
    Parses (readLocal strings pos) (fun v => v.cachedNameIndex < strings.length) (·.load strings pos) localWords := by
  intro input v rest
  constructor
  · intro h
    obtain ⟨name, w₁, m₁, -, h₁, e₁, h⟩ := parses_readUVariable.step h
    obtain ⟨hname, h⟩ := constString_step h
    obtain ⟨start, w₂, m₂, -, h₂, e₂, h⟩ := parses_readUVariable.step h
    obtain ⟨stop, w₃, m₃, -, h₃, e₃, h⟩ := parses_readUVariable.step h
    obtain ⟨c, w₄, m₄, -, h₄, e₄, h⟩ := parses_readByte.step h
    obtain ⟨rfl, rfl⟩ := ByteReader.run_pure_ok.1 h
    refine ⟨⟨name, start, stop, c != 0⟩, hname, rfl, w₁ ++ (w₂ ++ (w₃ ++ w₄)), ?_, ?_⟩
    · exact Language.append_mem_mul h₁ (Language.append_mem_mul h₂ (Language.append_mem_mul h₃ ⟨c, h₄, rfl⟩))
    · simp only [e₁, e₂, e₃, e₄, List.append_assoc]
  · rintro ⟨⟨name, start, stop, up⟩, hname, rfl, w, ⟨w₁, h₁, _, ⟨w₂, h₂, _, ⟨w₃, h₃, _, ⟨c, rfl, rfl⟩, rfl⟩, rfl⟩, rfl⟩, rfl⟩
    refine ((reads_uVariable h₁).bind ((reads_constString hname).bind_nil ?_)) rest
    exact (reads_uVariable h₂).bind ((reads_uVariable h₃).bind ((reads_readByte c).bind_pure _))

theorem parses_readTryBlock (pos : Nat) : Parses (readTryBlock pos) (fun _ => True) (·.load pos) tryWords := by
  intro input t rest
  constructor
  · intro h
    obtain ⟨start, w₁, m₁, -, h₁, e₁, h⟩ := parses_readUVariable.step h
    obtain ⟨stop, w₂, m₂, -, h₂, e₂, h⟩ := parses_readUVariable.step h
    obtain ⟨var, w₃, m₃, -, h₃, e₃, h⟩ := parses_readUVariable.step h
    obtain ⟨rfl, rfl⟩ := ByteReader.run_pure_ok.1 h
    refine ⟨⟨start, stop, var⟩, trivial, rfl, w₁ ++ (w₂ ++ w₃), ?_, ?_⟩
    · exact Language.append_mem_mul h₁ (Language.append_mem_mul h₂ h₃)
    · simp only [e₁, e₂, e₃, List.append_assoc]
  · rintro ⟨⟨start, stop, var⟩, -, rfl, w, ⟨w₁, h₁, _, ⟨w₂, h₂, w₃, h₃, rfl⟩, rfl⟩, rfl⟩
    exact ((reads_uVariable h₁).bind ((reads_uVariable h₂).bind ((reads_uVariable h₃).bind_pure _))) rest

theorem parses_readDebugInfo : Parses readDebugInfo (fun _ => True) id debugWords := by
  intro input item rest
  constructor
  · intro h
    obtain ⟨line, w₁, m₁, -, h₁, e₁, h⟩ := parses_readUVariable.step h
    obtain ⟨pos, w₂, m₂, -, h₂, e₂, h⟩ := parses_readUVariable.step h
    obtain ⟨rfl, rfl⟩ := ByteReader.run_pure_ok.1 h
    exact ⟨⟨line, pos⟩, trivial, rfl, w₁ ++ w₂, Language.append_mem_mul h₁ h₂, by rw [e₁, e₂, List.append_assoc]⟩
  · rintro ⟨⟨line, pos⟩, -, rfl, w, ⟨w₁, h₁, w₂, h₂, rfl⟩, rfl⟩
    exact ((reads_uVariable h₁).bind ((reads_uVariable h₂).bind_pure _)) rest

theorem reads_readStrings {memory : Memory} {P : Platform} : ∀ {strings : List (List UInt8)} {capacity : Nat} {w : List UInt8},
    StringsFit memory P capacity strings → w ∈ (strings.map stringWords).prod →
      Reads (readStrings memory P strings.length capacity) strings w
  | [], _, w, _, hw => by
    rw [(Language.mem_one w).1 hw]
    exact Reads.pure []
  | str :: strings, capacity, w, ⟨hbuffer, hstring, hrest⟩, hw => by
    obtain ⟨_, ⟨w₁, h₁, w', hw', rfl⟩, w₂, h₂, rfl⟩ := hw
    obtain rfl : w' = str := hw'
    have hchars : Reads (readBytes w'.length) w' w' := reads_readBytes w'
    have hall : Reads (readStrings memory P (w' :: strings).length capacity) (w' :: strings) (w₁ ++ (w' ++ w₂)) :=
      (reads_uVariable h₁).bind ((reads_reserveCapacity hbuffer).bind_nil (hchars.bind
        ((reads_malloc hstring).bind_nil ((reads_readStrings hrest h₂).bind_pure (w' :: ·)))))
    rw [← List.append_assoc] at hall
    exact hall

theorem readStrings_ok (memory : Memory) (P : Platform) : ∀ (n capacity : Nat) (input : List UInt8)
    (strings : List (List UInt8)) (rest : List UInt8), (readStrings memory P n capacity).run input = .ok (strings, rest) →
      strings.length = n ∧ StringsFit memory P capacity strings ∧ ∃ w ∈ (strings.map stringWords).prod, input = w ++ rest
  | 0, capacity, input, strings, rest, h => by
    obtain ⟨rfl, rfl⟩ := ByteReader.run_pure_ok.1 h
    exact ⟨rfl, trivial, [], Language.nil_mem_one, rfl⟩
  | n + 1, capacity, input, strings, rest, h => by
    obtain ⟨len, w₁, m₁, -, h₁, e₁, h⟩ := parses_readUVariable.step h
    obtain ⟨hbuffer, h⟩ := reserveCapacity_step h
    obtain ⟨str, m₂, hstr, h⟩ := ByteReader.run_bind_ok.1 h
    obtain ⟨rfl, e₂⟩ := run_readBytes_ok.1 hstr
    obtain ⟨hstring, h⟩ := malloc_step h
    obtain ⟨strs, m₃, hstrs, h⟩ := ByteReader.run_bind_ok.1 h
    obtain ⟨rfl, rfl⟩ := ByteReader.run_pure_ok.1 h
    obtain ⟨hlen, hfit, w, hw, e₃⟩ := readStrings_ok memory P n _ _ _ _ hstrs
    refine ⟨congrArg Nat.succ hlen, ⟨hbuffer, hstring, hfit⟩, w₁ ++ str ++ w, ?_, ?_⟩
    · exact Language.append_mem_mul (Language.append_mem_mul h₁ rfl) hw
    · simp only [e₁, e₂, e₃, List.append_assoc]

theorem parses_readInt : Parses readInt (fun _ => True) id intNumber := by
  intro input x rest
  constructor
  · intro h
    obtain ⟨n, w, m₁, -, hw, e₁, h⟩ := parses_readUVariable.step h
    obtain ⟨rfl, rfl⟩ := ByteReader.run_pure_ok.1 h
    exact ⟨_, trivial, rfl, w, ⟨n, hw, rfl⟩, e₁⟩
  · rintro ⟨x, -, rfl, w, ⟨n, hw, rfl⟩, rfl⟩
    exact ((reads_uVariable hw).bind_pure Double.ofInt) rest

theorem parses_readWidenedFloat :
    Parses (do return (← readFloat).widen : StreamReader Double) (fun _ => True) id floatNumber := by
  have h := parses_fixed 4 fun w => (Single.ofBits (LittleEndian.value w)).widen
  unfold readFloat floatNumber
  simp only [bind_assoc, pure_bind]
  exact h

theorem readNumbers_ok {read : StreamReader Double} {number : Double → Language UInt8}
    (hread : Parses read (fun _ => True) id number) (n : Nat) : ∀ (count i : Nat) (values : List (Option Double))
      (input : List UInt8) (values' : List (Option Double)) (rest : List UInt8),
        ((readNumbers read n count i values).run input = .ok (values', rest) ↔ ∃ es : List NumberEntry, es.length = count ∧
          InTable n i es ∧ place i es values = values' ∧
            ∃ w ∈ (es.map (·.words number)).prod, input = w ++ rest)
  | 0, i, values, input, values', rest => by
    rw [readNumbers, ByteReader.run_pure_ok]
    constructor
    · rintro ⟨rfl, rfl⟩
      exact ⟨[], rfl, trivial, rfl, [], Language.nil_mem_one, rfl⟩
    · rintro ⟨es, hlen, -, rfl, w, hw, rfl⟩
      rw [List.eq_nil_of_length_eq_zero hlen] at hw ⊢
      rw [(Language.mem_one w).1 hw]
      exact ⟨rfl, rfl⟩
  | count + 1, i, values, input, values', rest => by
    constructor
    · intro h
      obtain ⟨delta, w₁, m₁, -, h₁, e₁, h⟩ := parses_readUVariable.step h
      obtain ⟨hlt, h⟩ := ByteReader.check_step h
      obtain ⟨x, w₂, m₂, -, h₂, e₂, h⟩ := hread.step h
      obtain ⟨es, rfl, htable, rfl, w, hw, e₃⟩ := (readNumbers_ok hread n count _ _ _ _ _).1 h
      refine ⟨⟨delta, x⟩ :: es, rfl, ⟨hlt, htable⟩, rfl, w₁ ++ w₂ ++ w, ?_, ?_⟩
      · exact Language.append_mem_mul (Language.append_mem_mul h₁ h₂) hw
      · simp only [e₁, e₂, e₃, List.append_assoc]
    · rintro ⟨es, hlen, htable, rfl, w, hw, rfl⟩
      cases es with
      | nil => cases hlen
      | cons e es =>
        obtain ⟨_, ⟨w₁, h₁, w₂, h₂, rfl⟩, w₃, h₃, rfl⟩ := hw
        have hrest : Reads (readNumbers read n count (i + e.delta) (values.set (i + e.delta) (some e.number)))
            (place (i + e.delta) es (values.set (i + e.delta) (some e.number))) w₃ := fun rest =>
          (readNumbers_ok hread n count _ _ _ _ _).2 ⟨es, Nat.succ.inj hlen, htable.2, rfl, w₃, h₃, rfl⟩
        have hall : Reads (readNumbers read n (count + 1) i values) (place i (e :: es) values) (w₁ ++ (w₂ ++ w₃)) :=
          (reads_uVariable h₁).bind ((Reads.check Fault.assertion htable.1).bind_nil
            ((hread.reads trivial h₂).bind hrest))
        rw [← List.append_assoc] at hall
        exact hall rest

theorem parses_readFunction (memory : Memory) (P : Platform) (strings : List (List UInt8)) :
    Parses (readFunction memory P strings)
      (fun f => (∀ v ∈ f.locals, v.cachedNameIndex < strings.length) ∧ f.Fits memory P) (·.load strings) FunctionEntry.words := by
  intro input f rest
  constructor
  · intro h
    obtain ⟨parentLink, w₁, m₁, -, h₁, e₁, h⟩ := parses_readUVariable.step h
    obtain ⟨stackSize, w₂, m₂, -, h₂, e₂, h⟩ := parses_readUVariable.step h
    obtain ⟨numLocals, w₃, m₃, -, h₃, e₃, h⟩ := parses_readUVariable.step h
    obtain ⟨numParams, w₄, m₄, -, h₄, e₄, h⟩ := parses_readUVariable.step h
    obtain ⟨maxUpCount, w₅, m₅, -, h₅, e₅, h⟩ := parses_readUVariable.step h
    obtain ⟨funcDepth, w₆, m₆, -, h₆, e₆, h⟩ := parses_readUVariable.step h
    obtain ⟨funcIndex, w₇, m₇, -, h₇, e₇, h⟩ := parses_readUVariable.step h
    obtain ⟨numLocalFuncs, w₈, m₈, -, h₈, e₈, h⟩ := parses_readUVariable.step h
    obtain ⟨numTryBlocks, w₉, m₉, -, h₉, e₉, h⟩ := parses_readUVariable.step h
    obtain ⟨opcodesPos, w₁₀, m₁₀, -, h₁₀, e₁₀, h⟩ := parses_readUVariable.step h
    obtain ⟨opcodesSize, w₁₁, m₁₁, -, h₁₁, e₁₁, h⟩ := parses_readUVariable.step h
    obtain ⟨hlocals, h⟩ := malloc_step h
    obtain ⟨locals, w₁₂, m₁₂, ⟨rfl, hnames⟩, h₁₂, e₁₂, h⟩ := ((parses_readLocal strings _).many _).step h
    obtain ⟨htries, h⟩ := malloc_step h
    obtain ⟨tries, w₁₃, m₁₃, ⟨rfl, -⟩, h₁₃, e₁₃, h⟩ := ((parses_readTryBlock _).many _).step h
    obtain ⟨rfl, rfl⟩ := ByteReader.run_pure_ok.1 h
    refine ⟨⟨parentLink, stackSize, numParams, maxUpCount, funcDepth, funcIndex, numLocalFuncs, opcodesPos, opcodesSize,
      locals, tries⟩, ⟨hnames, hlocals, htries⟩, rfl, w₁ ++ (w₂ ++ (w₃ ++ (w₄ ++ (w₅ ++ (w₆ ++ (w₇ ++ (w₈ ++ (w₉ ++ (w₁₀ ++ (w₁₁ ++
        (w₁₂ ++ w₁₃))))))))))), ?_, ?_⟩
    · refine Language.append_mem_mul h₁ (Language.append_mem_mul h₂ (Language.append_mem_mul h₃ ?_))
      refine Language.append_mem_mul h₄ (Language.append_mem_mul h₅ (Language.append_mem_mul h₆ ?_))
      refine Language.append_mem_mul h₇ (Language.append_mem_mul h₈ (Language.append_mem_mul h₉ ?_))
      exact Language.append_mem_mul h₁₀ (Language.append_mem_mul h₁₁ (Language.append_mem_mul h₁₂ h₁₃))
    · simp only [e₁, e₂, e₃, e₄, e₅, e₆, e₇, e₈, e₉, e₁₀, e₁₁, e₁₂, e₁₃, List.append_assoc]
  · rintro ⟨f, ⟨hnames, hfits⟩, rfl, w, ⟨w₁, h₁, _, ⟨w₂, h₂, _, ⟨w₃, h₃, _, ⟨w₄, h₄, _, ⟨w₅, h₅, _, ⟨w₆, h₆, _, ⟨w₇, h₇, _,
      ⟨w₈, h₈, _, ⟨w₉, h₉, _, ⟨w₁₀, h₁₀, _, ⟨w₁₁, h₁₁, _, ⟨w₁₂, h₁₂, w₁₃, h₁₃, rfl⟩, rfl⟩, rfl⟩, rfl⟩, rfl⟩, rfl⟩,
        rfl⟩, rfl⟩, rfl⟩, rfl⟩, rfl⟩, rfl⟩, rfl⟩
    have hlocals := ((parses_readLocal strings f.opcodesPos).many f.locals.length).reads ⟨rfl, hnames⟩ h₁₂
    have htries := ((parses_readTryBlock f.opcodesPos).many f.tryBlocks.length).reads ⟨rfl, fun _ _ => trivial⟩ h₁₃
    refine Reads.bind (reads_uVariable h₁) ?_ rest
    refine (reads_uVariable h₂).bind ((reads_uVariable h₃).bind ((reads_uVariable h₄).bind ?_))
    refine (reads_uVariable h₅).bind ((reads_uVariable h₆).bind ((reads_uVariable h₇).bind ?_))
    refine (reads_uVariable h₈).bind ((reads_uVariable h₉).bind ((reads_uVariable h₁₀).bind ?_))
    exact (reads_uVariable h₁₁).bind ((reads_malloc hfits.locals).bind_nil (hlocals.bind
      ((reads_malloc hfits.tryBlocks).bind_nil (htries.bind_pure _))))

theorem reads_readNumbers {read : StreamReader Double} {number : Double → Language UInt8}
    (hread : Parses read (fun _ => True) id number) {n i : Nat} {es : List NumberEntry} (h : InTable n i es)
    (values : List (Option Double)) {w : List UInt8} (hw : w ∈ (es.map (·.words number)).prod) :
    Reads (readNumbers read n es.length i values) (place i es values) w := fun rest =>
  (readNumbers_ok hread n es.length i values _ _ rest).2 ⟨es, rfl, h, rfl, w, hw, rfl⟩

theorem parses_readInt32 : Parses readInt32 (fun _ => True) id (fixed 4 LittleEndian.value) := parses_fixed 4 _

theorem parses_readProgram (memory : Memory) (P : Platform) :
    Parses (readProgram memory P) (fun f => f.Asserted ∧ f.Fits memory P) File.program (File.body P) := by
  intro input p rest
  constructor
  · intro h
    obtain ⟨intCount, w₁, m₁, -, h₁, e₁, h⟩ := parses_readUVariable.step h
    obtain ⟨floatCount, w₂, m₂, -, h₂, e₂, h⟩ := parses_readUVariable.step h
    obtain ⟨doubleCount, w₃, m₃, -, h₃, e₃, h⟩ := parses_readUVariable.step h
    obtain ⟨longDoubleCount, w₄, m₄, -, h₄, e₄, h⟩ := parses_readUVariable.step h
    obtain ⟨numStrings, w₅, m₅, -, h₅, e₅, h⟩ := parses_readUVariable.step h
    obtain ⟨numFunctions, w₆, m₆, -, h₆, e₆, h⟩ := parses_readUVariable.step h
    obtain ⟨opcodesSize, w₇, m₇, -, h₇, e₇, h⟩ := parses_readUVariable.step h
    obtain ⟨numDebugInfos, w₈, m₈, -, h₈, e₈, h⟩ := parses_readUVariable.step h
    obtain ⟨filename, w₉, m₉, -, h₉, e₉, h⟩ := parses_readUVariable.step h
    obtain ⟨hfilename, h⟩ := ByteReader.check_step h
    obtain ⟨hconst, h⟩ := malloc_step h
    obtain ⟨ints, m₁₀, hints, h⟩ := ByteReader.run_bind_ok.1 h
    obtain ⟨floats, m₁₁, hfloats, h⟩ := ByteReader.run_bind_ok.1 h
    obtain ⟨doubles, m₁₂, hdoubles, h⟩ := ByteReader.run_bind_ok.1 h
    obtain ⟨numbers, m₁₃, hlongs, h⟩ := ByteReader.run_bind_ok.1 h
    obtain ⟨es₁, rfl, ht₁, rfl, w₁₀, h₁₀, e₁₀⟩ := (readNumbers_ok parses_readInt _ _ _ _ _ _ _).1 hints
    obtain ⟨es₂, rfl, ht₂, rfl, w₁₁, h₁₁, e₁₁⟩ := (readNumbers_ok parses_readWidenedFloat _ _ _ _ _ _ _).1 hfloats
    obtain ⟨es₃, rfl, ht₃, rfl, w₁₂, h₁₂, e₁₂⟩ := (readNumbers_ok (parses_fixed 8 _) _ _ _ _ _ _ _).1 hdoubles
    obtain ⟨es₄, rfl, ht₄, rfl, w₁₃, h₁₃, e₁₃⟩ := (readNumbers_ok (parses_fixed _ _) _ _ _ _ _ _ _).1 hlongs
    obtain ⟨strings, m₁₄, hstrings, hread⟩ := ByteReader.run_bind_ok.1 h
    obtain ⟨rfl, hfit, w₁₄, h₁₄, e₁₄⟩ := readStrings_ok _ _ _ _ _ _ _ hstrings
    obtain ⟨-, h⟩ := constString_step hread
    obtain ⟨hfunctions, h⟩ := malloc_step h
    obtain ⟨functions, w₁₅, m₁₅, ⟨rfl, hfunction⟩, h₁₅, e₁₅, h⟩ := ((parses_readFunction memory P strings).many _).step h
    obtain ⟨hopcodes, h⟩ := reserveCapacity_step h
    obtain ⟨opcodes, w₁₆, m₁₆, ⟨rfl, -⟩, h₁₆, e₁₆, h⟩ := (parses_readInt32.many _).step h
    obtain ⟨hdebugInfo, h⟩ := reserveCapacity_step h
    obtain ⟨debugInfo, w₁₇, m₁₇, ⟨rfl, -⟩, h₁₇, e₁₇, h⟩ := (parses_readDebugInfo.many _).step h
    obtain ⟨rfl, rfl⟩ := ByteReader.run_pure_ok.1 h
    refine ⟨⟨es₁, es₂, es₃, es₄, strings, functions, opcodes, debugInfo, filename⟩,
      ⟨⟨hfilename, ht₁, ht₂, ht₃, ht₄, fun e he => (hfunction e he).1⟩, hconst, hfit, hfunctions,
        fun e he => (hfunction e he).2, hopcodes, hdebugInfo⟩, ?_, w₁ ++ (w₂ ++ (w₃ ++ (w₄ ++ (w₅ ++ (w₆ ++ (w₇ ++ (w₈ ++ (w₉ ++ (w₁₀ ++
        (w₁₁ ++ (w₁₂ ++ (w₁₃ ++ (w₁₄ ++ (w₁₅ ++ (w₁₆ ++ w₁₇))))))))))))))), ?_, ?_⟩
    · rw [List.map_id, List.map_id]
      rfl
    · refine Language.append_mem_mul h₁ (Language.append_mem_mul h₂ (Language.append_mem_mul h₃ ?_))
      refine Language.append_mem_mul h₄ (Language.append_mem_mul h₅ (Language.append_mem_mul h₆ ?_))
      refine Language.append_mem_mul h₇ (Language.append_mem_mul h₈ (Language.append_mem_mul h₉ ?_))
      refine Language.append_mem_mul h₁₀ (Language.append_mem_mul h₁₁ (Language.append_mem_mul h₁₂ ?_))
      refine Language.append_mem_mul h₁₃ (Language.append_mem_mul h₁₄ (Language.append_mem_mul h₁₅ ?_))
      exact Language.append_mem_mul h₁₆ h₁₇
    · simp only [e₁, e₂, e₃, e₄, e₅, e₆, e₇, e₈, e₉, e₁₀, e₁₁, e₁₂, e₁₃, e₁₄, e₁₅, e₁₆, e₁₇, List.append_assoc]
  · rintro ⟨f, ⟨hf, hfits⟩, rfl, w, hw, rfl⟩
    obtain ⟨w₁, h₁, w, hw, rfl⟩ := hw
    obtain ⟨w₂, h₂, w, hw, rfl⟩ := hw
    obtain ⟨w₃, h₃, w, hw, rfl⟩ := hw
    obtain ⟨w₄, h₄, w, hw, rfl⟩ := hw
    obtain ⟨w₅, h₅, w, hw, rfl⟩ := hw
    obtain ⟨w₆, h₆, w, hw, rfl⟩ := hw
    obtain ⟨w₇, h₇, w, hw, rfl⟩ := hw
    obtain ⟨w₈, h₈, w, hw, rfl⟩ := hw
    obtain ⟨w₉, h₉, w, hw, rfl⟩ := hw
    obtain ⟨w₁₀, h₁₀, w, hw, rfl⟩ := hw
    obtain ⟨w₁₁, h₁₁, w, hw, rfl⟩ := hw
    obtain ⟨w₁₂, h₁₂, w, hw, rfl⟩ := hw
    obtain ⟨w₁₃, h₁₃, w, hw, rfl⟩ := hw
    obtain ⟨w₁₄, h₁₄, w, hw, rfl⟩ := hw
    obtain ⟨w₁₅, h₁₅, w, hw, rfl⟩ := hw
    obtain ⟨w₁₆, h₁₆, w₁₇, h₁₇, rfl⟩ := hw
    have hstrings := reads_readStrings hfits.strings h₁₄
    have hfunctions := ((parses_readFunction memory P f.strings).many f.functions.length).reads
      ⟨rfl, fun e he => ⟨hf.names e he, hfits.function e he⟩⟩ h₁₅
    have hopcodes := (parses_readInt32.many f.opcodes.length).reads ⟨rfl, fun _ _ => trivial⟩ h₁₆
    have hdebug := (parses_readDebugInfo.many f.debugInfo.length).reads ⟨rfl, fun _ _ => trivial⟩ h₁₇
    rw [List.map_id] at hopcodes hdebug
    refine Reads.bind (reads_uVariable h₁) ?_ rest
    refine (reads_uVariable h₂).bind ((reads_uVariable h₃).bind ((reads_uVariable h₄).bind ?_))
    refine (reads_uVariable h₅).bind ((reads_uVariable h₆).bind ((reads_uVariable h₇).bind ?_))
    refine (reads_uVariable h₈).bind ((reads_uVariable h₉).bind ((Reads.check _ hf.filename).bind_nil ?_))
    refine (reads_malloc hfits.constValues).bind_nil ((reads_readNumbers parses_readInt hf.ints _ h₁₀).bind ?_)
    refine (reads_readNumbers parses_readWidenedFloat hf.floats _ h₁₁).bind ?_
    refine (reads_readNumbers (parses_fixed 8 _) hf.doubles _ h₁₂).bind ?_
    refine (reads_readNumbers (parses_fixed _ _) hf.longDoubles _ h₁₃).bind (hstrings.bind ?_)
    refine (reads_constString hf.filename).bind_nil ((reads_malloc hfits.functions).bind_nil (hfunctions.bind ?_))
    refine (reads_reserveCapacity hfits.opcodes).bind_nil (hopcodes.bind ?_)
    exact (reads_reserveCapacity hfits.debugInfo).bind_nil (hdebug.bind_pure _)

theorem parses_checkBytes (src : List UInt8) : Parses (checkBytes src) (fun w => w.length = src.length) (· == src)
    fun w => {w} := by
  intro input b rest
  constructor
  · intro h
    obtain ⟨w, w', mid, hlen, rfl, e, h⟩ := (parses_readBytes src.length).step h
    obtain ⟨rfl, rfl⟩ := ByteReader.run_pure_ok.1 h
    exact ⟨_, hlen, rfl, _, rfl, e⟩
  · rintro ⟨w, hlen, rfl, v, hv, rfl⟩
    have hv' : v = w := hv
    subst hv'
    have h := (reads_readBytes v).bind_pure (· == src) rest
    rw [hlen] at h
    exact h

theorem parses_movePos (len : Nat) : Parses (movePos len) (fun _ : Unit => True) id fun _ => {w | w.length = len} := by
  intro input u rest
  constructor
  · intro h
    obtain ⟨w, w', mid, hlen, rfl, e, h⟩ := (parses_readBytes len).step h
    obtain ⟨-, rfl⟩ := ByteReader.run_pure_ok.1 h
    exact ⟨u, trivial, rfl, _, hlen, e⟩
  · rintro ⟨⟨⟩, -, ⟨⟩, w, rfl, rfl⟩
    exact reads_movePos w rest

/-- The header or the version is there, and is another one. -/
def Rejected (P : Platform) (input : List UInt8) : Prop :=
  (∃ cur rest, input = cur ++ rest ∧ cur.length = header.length ∧ cur ≠ header) ∨
    ∃ skipped cur rest, input = header ++ (skipped ++ (cur ++ rest)) ∧ skipped.length = 1 ∧
      cur.length = P.version.length ∧ cur ≠ P.version

/-- **What the loader makes a program of** are the words of the files that fit and whose asserted indexes are in range. -/
theorem loadFromStream_some_iff (memory : Memory) (P : Platform) (input rest : List UInt8) (p : Program) :
    (loadFromStream memory P).run input = .ok (some p, rest) ↔
      ∃ f : File, (f.Asserted ∧ f.Fits memory P) ∧ f.program = p ∧ ∃ w ∈ f.words P, input = w ++ rest := by
  constructor
  · intro h
    obtain ⟨cur, w₁, m₁, -, rfl, e₁, h⟩ := (parses_checkBytes header).step h
    split at h
    · rename_i hheader
      obtain ⟨-, w₂, m₂, -, h₂, e₂, h⟩ := (parses_movePos 1).step h
      obtain ⟨cur', w₃, m₃, -, rfl, e₃, h⟩ := (parses_checkBytes P.version).step h
      split at h
      · rename_i hversion
        obtain ⟨f, w₄, m₄, hf, h₄, e₄, h⟩ := (parses_readProgram memory P).step h
        obtain ⟨hp, rfl⟩ := ByteReader.run_pure_ok.1 h
        rw [beq_iff_eq] at hheader hversion
        refine ⟨f, hf, (Option.some.inj hp).symm, header ++ (w₂ ++ (P.version ++ w₄)), ?_, ?_⟩
        · exact Language.append_mem_mul rfl (Language.append_mem_mul h₂ (Language.append_mem_mul rfl h₄))
        · rw [e₁, e₂, e₃, e₄, hheader, hversion]
          simp only [List.append_assoc]
      · obtain ⟨hp, -⟩ := ByteReader.run_pure_ok.1 h
        cases hp
    · obtain ⟨hp, -⟩ := ByteReader.run_pure_ok.1 h
      cases hp
  · rintro ⟨f, hf, rfl, w, ⟨_, rfl, _, ⟨w₂, h₂, _, ⟨_, rfl, w₄, h₄, rfl⟩, rfl⟩, rfl⟩, rfl⟩
    refine Reads.bind (reads_checkBytes header) ?_ rest
    refine ((parses_movePos 1).reads (x := ()) trivial h₂).bind ((reads_checkBytes P.version).bind ?_)
    exact ((parses_readProgram memory P).reads hf h₄).bind_pure some

theorem loadFromStream_none_iff (memory : Memory) (P : Platform) (input : List UInt8) :
    (∃ rest, (loadFromStream memory P).run input = .ok (none, rest)) ↔ Rejected P input := by
  constructor
  · rintro ⟨rest, h⟩
    obtain ⟨cur, w₁, m₁, hlen, rfl, e₁, h⟩ := (parses_checkBytes header).step h
    split at h
    · rename_i hheader
      obtain ⟨-, w₂, m₂, -, h₂, e₂, h⟩ := (parses_movePos 1).step h
      obtain ⟨cur', w₃, m₃, hlen', rfl, e₃, h⟩ := (parses_checkBytes P.version).step h
      split at h
      · obtain ⟨f, w₄, m₄, hf, h₄, e₄, h⟩ := (parses_readProgram memory P).step h
        obtain ⟨hp, -⟩ := ByteReader.run_pure_ok.1 h
        cases hp
      · rename_i hversion
        rw [beq_iff_eq] at hheader hversion
        exact .inr ⟨w₂, w₃, m₃, by rw [e₁, e₂, e₃, hheader], h₂, hlen', hversion⟩
    · rename_i hheader
      rw [beq_iff_eq] at hheader
      exact .inl ⟨w₁, m₁, e₁, hlen, hheader⟩
  · rintro (⟨cur, rest, rfl, hlen, hne⟩ | ⟨skipped, cur, rest, rfl, hskip, hlen, hne⟩)
    · have hcheck : Reads (checkBytes header) false cur := by
        have h := (parses_checkBytes header).reads hlen rfl
        rw [beq_false_of_ne hne] at h
        exact h
      exact ⟨rest, hcheck.bind_last (Reads.pure none) rest⟩
    · have hcheck : Reads (checkBytes P.version) false cur := by
        have h := (parses_checkBytes P.version).reads hlen rfl
        rw [beq_false_of_ne hne] at h
        exact h
      have hall : Reads (loadFromStream memory P) none (header ++ (skipped ++ cur)) :=
        (reads_checkBytes header).bind (((parses_movePos 1).reads (x := ()) trivial hskip).bind
          (hcheck.bind_last (Reads.pure none)))
      refine ⟨rest, ?_⟩
      have h := hall rest
      rw [List.append_assoc, List.append_assoc] at h
      exact h

/-! ### Safe loads -/

/-- Every index and position that the program holds is inside its table. -/
def Program.WellIndexed (p : Program) : Prop :=
  ∀ f ∈ p.functions, (-1 ≤ f.progParentFuncIndex ∧ f.progParentFuncIndex < p.functions.length) ∧
    f.opcodesPos + f.opcodesSize ≤ p.opcodes.length ∧
    (∀ v ∈ f.locals, v.startCodePos ≤ p.opcodes.length ∧ v.endCodePos ≤ p.opcodes.length) ∧
    ∀ t ∈ f.tryBlocks, t.startCodePos ≤ p.opcodes.length ∧ t.endCodePos ≤ p.opcodes.length ∧
      t.catchVarIndex < f.locals.length

/-- Loading returned false, or a program with its indexes in range; a fault is neither. -/
def Safe : Except Fault (Option Program × List UInt8) → Prop
  | .ok (none, _) => True
  | .ok (some p, _) => p.WellIndexed
  | .error _ => False

structure File.WellIndexed (f : File) : Prop extends f.Asserted where
  parents : ∀ e ∈ f.functions, e.parentLink ≤ f.functions.length
  opcodeRanges : ∀ e ∈ f.functions, e.opcodesPos + e.opcodesSize ≤ f.opcodes.length
  localRanges : ∀ e ∈ f.functions, ∀ v ∈ e.locals,
    v.startCodePos + e.opcodesPos ≤ f.opcodes.length ∧ v.endCodePos + e.opcodesPos ≤ f.opcodes.length
  tryRanges : ∀ e ∈ f.functions, ∀ t ∈ e.tryBlocks, t.startCodePos + e.opcodesPos ≤ f.opcodes.length ∧
    t.endCodePos + e.opcodesPos ≤ f.opcodes.length ∧ t.catchVarIndex < e.locals.length

theorem wellIndexed_program_iff {f : File} (hf : f.Asserted) : f.program.WellIndexed ↔ f.WellIndexed := by
  have hfunctions : f.program.functions.length = f.functions.length := List.length_map _
  constructor
  · intro h
    have hfunction : ∀ e ∈ f.functions, e.load f.strings ∈ f.program.functions := fun e he => List.mem_map_of_mem he
    refine ⟨hf, fun e he => ?_, fun e he => ?_, fun e he v hv => ?_, fun e he t ht => ?_⟩
    · have hparent := (h _ (hfunction e he)).1.2
      rw [hfunctions] at hparent
      have hlink : (e.parentLink : Int) - 1 < f.functions.length := hparent
      omega
    · exact (h _ (hfunction e he)).2.1
    · exact (h _ (hfunction e he)).2.2.1 _ (List.mem_map_of_mem hv)
    · obtain ⟨hstart, hstop, hvar⟩ := (h _ (hfunction e he)).2.2.2 _ (List.mem_map_of_mem ht)
      exact ⟨hstart, hstop, Nat.lt_of_lt_of_eq hvar (List.length_map _)⟩
  · rintro h g hg
    obtain ⟨e, he, rfl⟩ := List.mem_map.1 hg
    refine ⟨⟨?_, ?_⟩, h.opcodeRanges e he, fun v hv => ?_, fun t ht => ?_⟩
    · show -1 ≤ (e.parentLink : Int) - 1
      omega
    · have hlink := h.parents e he
      rw [hfunctions]
      show (e.parentLink : Int) - 1 < f.functions.length
      omega
    · obtain ⟨v', hv', rfl⟩ := List.mem_map.1 hv
      exact h.localRanges e he v' hv'
    · obtain ⟨t', ht', rfl⟩ := List.mem_map.1 ht
      obtain ⟨hstart, hstop, hvar⟩ := h.tryRanges e he t' ht'
      exact ⟨hstart, hstop, Nat.lt_of_lt_of_eq hvar (List.length_map _).symm⟩

/-- **A stream is loaded safely** exactly if its header or its version is another one, or it begins with the words of a file
that takes blocks of less than 2^31 bytes and has all its indexes in range. -/
theorem safe_loadFromStream_iff (P : Platform) (input : List UInt8) :
    Safe ((loadFromStream .int P).run input) ↔
      Rejected P input ∨ ∃ f : File, f.WellIndexed ∧ f.Fits .int P ∧ ∃ w ∈ f.words P, w <+: input := by
  constructor
  · intro h
    cases hrun : (loadFromStream .int P).run input with
    | error e =>
      rw [hrun] at h
      exact h.elim
    | ok r =>
      obtain ⟨o, rest⟩ := r
      rw [hrun] at h
      cases o with
      | none => exact .inl ((loadFromStream_none_iff .int P input).1 ⟨rest, hrun⟩)
      | some p =>
        obtain ⟨f, ⟨hf, hfits⟩, rfl, w, hw, rfl⟩ := (loadFromStream_some_iff .int P input rest p).1 hrun
        exact .inr ⟨f, (wellIndexed_program_iff hf).1 h, hfits, w, hw, List.prefix_append w rest⟩
  · rintro (h | ⟨f, hf, hfits, w, hw, rest, rfl⟩)
    · obtain ⟨rest, hrun⟩ := (loadFromStream_none_iff .int P input).2 h
      rw [hrun]
      trivial
    · have hrun := (loadFromStream_some_iff .int P (w ++ rest) rest f.program).2
        ⟨f, ⟨hf.toAsserted, hfits⟩, rfl, w, hw, rfl⟩
      rw [hrun]
      exact (wellIndexed_program_iff hf.toAsserted).2 hf

def strayParent : List UInt8 :=
  header ++ 9 :: shortPlatform.version ++ [0, 0, 0, 0, 1, 1, 1, 0, 0] ++ [1, 97] ++ [9, 5, 0, 0, 0, 0, 0, 0, 0, 0, 1] ++
    [3, 64, 0, 0]

/-- The parent of a function may be any number, and an empty stream is read past its end. -/
theorem strayParent_loads : ¬ Safe ((loadFromStream .int shortPlatform).run strayParent) ∧
    ¬ Safe ((loadFromStream .int shortPlatform).run []) := by
  constructor
  · have hrun : (loadFromStream .int shortPlatform).run strayParent = .ok (some
        { filename := [97], numbers := [], strings := [[97]]
          functions := [⟨8, 5, 0, 0, 0, 0, 0, 0, 1, [], []⟩], opcodes := [16387], debugInfo := [] }, []) := by
      decide
    rw [hrun]
    intro h
    exact absurd (h _ List.mem_cons_self).1.2 (by decide)
  · exact id

end Bytecode
end Compiler
end ObjectScript
