import ObjectScript.Lib.Field
/-!
# Instructions

An instruction is a word of 32 bits: the opcode, a register `A` of 8 bits, and either two operands `B` and `C` of 9 bits, of
which the top one says that the operand is a constant, or one number `Bx` of 18 bits.  The compiler gives a constant as a
negative number.  The ranges of the operands are only asserted, so in a release build an operand that does not fit runs over
into its neighbours or is cut off: an instruction says what it was given exactly when every operand fits its field
(`decodes_iff_fits`), also when it was made of two moves.
-/
namespace ObjectScript
namespace Compiler

open Field

inductive OpcodeType where
  | newFunction | newArray | newObject
  | ret
  | jump | multi | move | move2 | getXConst
  | superCall | call | callMethod
  | initIter
  | getProperty | setProperty | initProperty
  | getUpvalue | setUpvalue
  | logicPtrEq | logicEq | logicGreater | logicGe | logicBool
  | bitAnd | bitOr | bitXor
  | compare | add | sub | mul | div | mod | lshift | rshift | pow
  | bitNot | plus | minus
  | numberLogicEq | numberLogicGreater | numberLogicGe
  | numberBitAnd | numberBitOr | numberBitXor
  | numberAdd | numberSub | numberMul | numberDiv | numberMod | numberLshift | numberRshift | numberPow
  | numberAddLC | numberSubLC | numberAddLL | numberSubLL
deriving DecidableEq, Repr

def OpcodeType.value (op : OpcodeType) : Nat := op.ctorIdx

theorem OpcodeType.value_lt (op : OpcodeType) : op.value < 2 ^ 6 := by
  cases op <;> decide

namespace Instruction

def sizeC : Nat := 9
def sizeB : Nat := 9
def sizeBx : Nat := sizeC + sizeB
def sizeA : Nat := 8
def sizeOp : Nat := 6

def posOp : Nat := 0
def posA : Nat := posOp + sizeOp
def posC : Nat := posA + sizeA
def posB : Nat := posC + sizeC
def posBx : Nat := posC

def maxArgSBx : Int := ((2 ^ sizeBx - 1) >>> 1 : Nat)

def ofInt (x : Int) : Nat := (x % 2 ^ 32).toNat

def getOpcodeType (i : Nat) : Nat := field posOp sizeOp i
def getA (i : Nat) : Nat := field posA sizeA i
def getB (i : Nat) : Nat := field posB (sizeB - 1) i
def getC (i : Nat) : Nat := field posC (sizeC - 1) i
def getBx (i : Nat) : Nat := field posBx sizeBx i
def getSBx (i : Nat) : Int := getBx i - maxArgSBx

def opcodeConstB : Nat := 1 <<< (posB + sizeB - 1)
def opcodeConstC : Nat := 1 <<< (posC + sizeC - 1)

/-- `i & OS_OPCODE_CONST_B` -/
def constB (i : Nat) : Bool := i &&& opcodeConstB != 0
def constC (i : Nat) : Bool := i &&& opcodeConstC != 0

/-- Whether the operand is negative, and what is left of it. -/
def constOperand (b : Int) : Bool × Int := if b < 0 then (true, -1 - b) else (false, b)

/-- `OS_OPCODE_ABC` -/
def opcodeABC (o : Nat) (a b c : Int) : Nat :=
  (o ||| ofInt a <<< posA ||| ofInt b <<< posB ||| ofInt c <<< posC) % 2 ^ 32

/-- `OS_OPCODE_ABx` -/
def opcodeABx (o : Nat) (a bx : Int) : Nat := (o ||| ofInt a <<< posA ||| ofInt bx <<< posBx) % 2 ^ 32

/-- `OS_SETARG_sBx` -/
def setSBx (i : Nat) (offs : Int) : Nat := setField 32 posBx sizeBx i (ofInt (offs + maxArgSBx))

def writeOpcodeABC (op : OpcodeType) (a b c : Int) : Nat :=
  let (flagB, b) := constOperand b
  let (flagC, c) := constOperand c
  let opcode := op.value ||| (if flagB then opcodeConstB else 0) ||| (if flagC then opcodeConstC else 0)
  opcodeABC opcode a b c

def writeOpcodeABx (op : OpcodeType) (a b : Int) : Nat := opcodeABx op.value a b

/-- `writeJumpOpcode` and `fixJumpOpcode`: the distance in the jump it is given. -/
def setJump (i : Nat) (offs : Int) : Nat := setSBx i offs

end Instruction

open Instruction

inductive Operands where
  | abc (op : OpcodeType) (a b c : Int)
  | abx (op : OpcodeType) (a b : Int)
  | jump (offs : Int)
deriving DecidableEq, Repr

namespace Operands

def Decodes (i : Nat) : Operands → Prop
  | abc op a b c =>
    getOpcodeType i = op.value ∧ (getA i : Int) = a ∧ (constB i, (getB i : Int)) = constOperand b ∧
      (constC i, (getC i : Int)) = constOperand c
  | abx op a b => getOpcodeType i = op.value ∧ (getA i : Int) = a ∧ (getBx i : Int) = b
  | jump offs => getOpcodeType i = OpcodeType.jump.value ∧ getSBx i = offs

instance (i : Nat) (x : Operands) : Decidable (Decodes i x) := by
  cases x <;> unfold Decodes <;> infer_instance

def Fits : Operands → Prop
  | abc _ a b c => (0 ≤ a ∧ a < 2 ^ 8) ∧ (-2 ^ 8 ≤ b ∧ b < 2 ^ 8) ∧ -2 ^ 8 ≤ c ∧ c < 2 ^ 8
  | abx _ a b => (0 ≤ a ∧ a < 2 ^ 8) ∧ 0 ≤ b ∧ b < 2 ^ 18
  | jump offs => -131071 ≤ offs ∧ offs ≤ 131072

end Operands

/-! ## One instruction -/

theorem ofInt_of_nat {n w : Nat} (hw : w ≤ 32) (h : n < 2 ^ w) : ofInt n = n := by
  have hlt : n < 2 ^ 32 := Nat.lt_of_lt_of_le h (Nat.pow_le_pow_right (by decide) hw)
  unfold ofInt
  omega

theorem constB_eq (i : Nat) : constB i = (field 31 1 i != 0) := and_flag i

theorem constC_eq (i : Nat) : constC i = (field 22 1 i != 0) := and_flag i

/-- What is left of an operand that fits has eight bits. -/
theorem constOperand_fits {b : Int} (h : -2 ^ 8 ≤ b ∧ b < 2 ^ 8) :
    ∃ n : Nat, n < 2 ^ 8 ∧ constOperand b = (decide (b < 0), (n : Int)) := by
  unfold constOperand
  split
  · rename_i hb
    refine ⟨(-1 - b).toNat, by omega, ?_⟩
    rw [Int.toNat_of_nonneg (by omega), decide_eq_true hb]
  · rename_i hb
    refine ⟨b.toNat, by omega, ?_⟩
    rw [Int.toNat_of_nonneg (by omega), decide_eq_false hb]

theorem fits_of_constOperand {b : Int} {flag : Bool} {n : Nat} (h : (flag, (n : Int)) = constOperand b) (hn : n < 2 ^ 8) :
    -2 ^ 8 ≤ b ∧ b < 2 ^ 8 := by
  unfold constOperand at h
  split at h <;> cases Prod.mk.inj h <;> omega

/-- **The fields of an instruction with three operands that fit.** -/
theorem opcodeABC_fields {o a b c : Nat} (ho : o < 2 ^ 6) (ha : a < 2 ^ 8) (hb : b < 2 ^ 8) (hc : c < 2 ^ 8)
    (flagB flagC : Bool) :
    let i := opcodeABC (o ||| (if flagB then opcodeConstB else 0) ||| (if flagC then opcodeConstC else 0)) a b c
    getOpcodeType i = o ∧ getA i = a ∧ (constB i, getB i) = (flagB, b) ∧ (constC i, getC i) = (flagC, c) := by
  have hfb : (if flagB then opcodeConstB else 0) = flagB.toNat <<< 31 := by cases flagB <;> rfl
  have hfc : (if flagC then opcodeConstC else 0) = flagC.toNat <<< 22 := by cases flagC <;> rfl
  have hB : flagB.toNat < 2 ^ 1 := by cases flagB <;> decide
  have hC : flagC.toNat < 2 ^ 1 := by cases flagC <;> decide
  have hfield : ∀ pos size, pos + size ≤ 32 →
      field pos size (opcodeABC (o ||| (if flagB then opcodeConstB else 0) ||| (if flagC then opcodeConstC else 0)) a b c) =
        field pos size (o <<< 0) ||| field pos size (flagB.toNat <<< 31) ||| field pos size (flagC.toNat <<< 22) |||
          field pos size (a <<< 6) ||| field pos size (b <<< 23) ||| field pos size (c <<< 14) := by
    intro pos size h
    unfold opcodeABC
    rw [field_mod h, hfb, hfc, ofInt_of_nat (by decide) ha, ofInt_of_nat (by decide) hb, ofInt_of_nat (by decide) hc]
    simp only [field_or]
    rfl
  refine ⟨?_, ?_, ?_, ?_⟩
  · refine (hfield 0 6 (by decide)).trans ?_
    simp only [field_shiftLeft_self ho, field_shiftLeft_above, Nat.or_zero, Nat.reduceAdd, Nat.reduceLeDiff]
  · refine (hfield 6 8 (by decide)).trans ?_
    simp only [field_shiftLeft_below ho, field_shiftLeft_self ha, field_shiftLeft_above, Nat.or_zero, Nat.zero_or,
      Nat.reduceAdd, Nat.reduceLeDiff]
  · refine Prod.ext ?_ ((hfield 23 8 (by decide)).trans ?_)
    · refine (constB_eq _).trans ?_
      rw [hfield 31 1 (by decide)]
      simp only [field_shiftLeft_below ho, field_shiftLeft_below ha, field_shiftLeft_below hb, field_shiftLeft_below hc,
        field_shiftLeft_below hC, field_shiftLeft_self hB, Nat.or_zero, Nat.zero_or, Nat.reduceAdd, Nat.reduceLeDiff]
      cases flagB <;> rfl
    · simp only [field_shiftLeft_below ho, field_shiftLeft_below ha, field_shiftLeft_self hb, field_shiftLeft_below hc,
        field_shiftLeft_below hC, field_shiftLeft_above, Nat.or_zero, Nat.zero_or, Nat.reduceAdd, Nat.reduceLeDiff]
  · refine Prod.ext ?_ ((hfield 14 8 (by decide)).trans ?_)
    · refine (constC_eq _).trans ?_
      rw [hfield 22 1 (by decide)]
      simp only [field_shiftLeft_below ho, field_shiftLeft_below ha, field_shiftLeft_below hc, field_shiftLeft_above,
        field_shiftLeft_self hC, Nat.or_zero, Nat.zero_or, Nat.reduceAdd, Nat.reduceLeDiff]
      cases flagC <;> rfl
    · simp only [field_shiftLeft_below ho, field_shiftLeft_below ha, field_shiftLeft_self hc, field_shiftLeft_above,
        Nat.or_zero, Nat.zero_or, Nat.reduceAdd, Nat.reduceLeDiff]

theorem writeOpcodeABC_decodes (op : OpcodeType) (a b c : Int) :
    Operands.Decodes (writeOpcodeABC op a b c) (.abc op a b c) ↔ (Operands.abc op a b c).Fits := by
  constructor
  · rintro ⟨-, ha, hb, hc⟩
    have hA := field_lt posA sizeA (writeOpcodeABC op a b c)
    refine ⟨⟨by omega, ?_⟩, fits_of_constOperand hb (field_lt _ _ _), fits_of_constOperand hc (field_lt _ _ _)⟩
    have hsize : (2 : Nat) ^ sizeA = 256 := rfl
    unfold getA at ha
    omega
  · rintro ⟨ha, hb, hc⟩
    obtain ⟨n, hn, hbn⟩ := constOperand_fits hb
    obtain ⟨m, hm, hcm⟩ := constOperand_fits hc
    obtain ⟨k, rfl⟩ := Int.eq_ofNat_of_zero_le ha.1
    have hk : k < 2 ^ 8 := by omega
    obtain ⟨h1, h2, h3, h4⟩ := opcodeABC_fields op.value_lt hk hn hm (decide (b < 0)) (decide (c < 0))
    unfold Operands.Decodes writeOpcodeABC
    simp only [hbn, hcm] at h1 h2 h3 h4 ⊢
    obtain ⟨h31, h32⟩ := Prod.mk.inj h3
    obtain ⟨h41, h42⟩ := Prod.mk.inj h4
    exact ⟨h1, congrArg Nat.cast h2, by rw [h31, h32], by rw [h41, h42]⟩

theorem writeOpcodeABx_decodes (op : OpcodeType) (a b : Int) :
    Operands.Decodes (writeOpcodeABx op a b) (.abx op a b) ↔ (Operands.abx op a b).Fits := by
  constructor
  · rintro ⟨-, ha, hb⟩
    have hA := field_lt posA sizeA (writeOpcodeABx op a b)
    have hB := field_lt posBx sizeBx (writeOpcodeABx op a b)
    have hsizeA : (2 : Nat) ^ sizeA = 256 := rfl
    have hsizeB : (2 : Nat) ^ sizeBx = 262144 := rfl
    unfold getA at ha
    unfold getBx at hb
    exact ⟨⟨by omega, by omega⟩, by omega, by omega⟩
  · rintro ⟨ha, hb⟩
    obtain ⟨k, rfl⟩ := Int.eq_ofNat_of_zero_le ha.1
    obtain ⟨n, rfl⟩ := Int.eq_ofNat_of_zero_le hb.1
    have hk : k < 2 ^ 8 := by omega
    have hn : n < 2 ^ 18 := by omega
    have ho := op.value_lt
    have hfield : ∀ pos size, pos + size ≤ 32 → field pos size (writeOpcodeABx op k n) =
        field pos size (op.value <<< 0) ||| field pos size (k <<< 6) ||| field pos size (n <<< 14) := by
      intro pos size h
      unfold writeOpcodeABx opcodeABx
      rw [field_mod h, ofInt_of_nat (by decide) hk, ofInt_of_nat (by decide) hn]
      simp only [field_or]
      rfl
    refine ⟨(hfield 0 6 (by decide)).trans ?_, congrArg Nat.cast ((hfield 6 8 (by decide)).trans ?_),
      congrArg Nat.cast ((hfield 14 18 (by decide)).trans ?_)⟩
    · simp only [field_shiftLeft_self ho, field_shiftLeft_above, Nat.or_zero, Nat.reduceAdd, Nat.reduceLeDiff]
    · simp only [field_shiftLeft_below ho, field_shiftLeft_self hk, field_shiftLeft_above, Nat.or_zero, Nat.zero_or,
        Nat.reduceAdd, Nat.reduceLeDiff]
    · simp only [field_shiftLeft_below ho, field_shiftLeft_below hk, field_shiftLeft_self hn, Nat.zero_or,
        Nat.reduceAdd, Nat.reduceLeDiff]

theorem setJump_decodes {i : Nat} (hi : getOpcodeType i = OpcodeType.jump.value) (offs : Int) :
    Operands.Decodes (setJump i offs) (.jump offs) ↔ (Operands.jump offs).Fits := by
  have hop : getOpcodeType (setJump i offs) = OpcodeType.jump.value :=
    (field_setField_other (.inl (by decide)) (by decide) i _).trans hi
  have hbx : getBx (setJump i offs) = ofInt (offs + maxArgSBx) % 2 ^ 18 := field_setField_self (by decide) i _
  have hmax : maxArgSBx = 131071 := rfl
  have hiff : getSBx (setJump i offs) = offs ↔ -131071 ≤ offs ∧ offs ≤ 131072 := by
    unfold getSBx
    rw [hbx, hmax]
    unfold ofInt
    omega
  exact ⟨fun h => hiff.1 h.2, fun h => ⟨hop, hiff.2 h⟩⟩

/-! ## The code of a program -/

/-- What the compiler gave for an instruction: its own operands, or those of the two moves that became one. -/
inductive Given where
  | one (x : Operands)
  | moves (prev cur : Operands)
deriving DecidableEq, Repr

namespace Given

/-- An `OP_MOVE2` says the registers and the sources of two moves; it has no field for a third operand of theirs. -/
def SaysMoves (i : Nat) : Operands → Operands → Prop
  | .abc .move a b c, .abc .move a' b' c' =>
    getOpcodeType i = OpcodeType.move2.value ∧ (getA i : Int) = a ∧ (getA i : Int) + 1 = a' ∧
      (constB i, (getB i : Int)) = constOperand b ∧ (constC i, (getC i : Int)) = constOperand b' ∧ c = 0 ∧ c' = 0
  | _, _ => False

def MovesFit : Operands → Operands → Prop
  | .abc .move a b c, .abc .move a' b' c' =>
    (Operands.abc .move a b c).Fits ∧ (Operands.abc .move a' b' c').Fits ∧ c = 0 ∧ c' = 0
  | _, _ => False

def Decodes (i : Nat) : Given → Prop
  | one x => x.Decodes i
  | moves x y => SaysMoves i x y

/-- Every operand fits its field; a move that becomes one with another has no third operand. -/
def Fits : Given → Prop
  | one x => x.Fits
  | moves x y => MovesFit x y

end Given

/-- `prog_opcodes`, and beside each instruction what it was given. -/
abbrev Code := List (Nat × Given)

/-- An operand with its flag, as the compiler counts it. -/
def signedOperand (flag : Bool) (n : Nat) : Int := if flag then -1 - n else n

/-- The two moves at the end of a list as one `OP_MOVE2`, when they write one register and the next. -/
def fuseMoves (prev cur : Nat) : Option Nat :=
  if getOpcodeType prev = OpcodeType.move.value ∧ getOpcodeType cur = OpcodeType.move.value ∧
      ¬ (getA prev = getB cur ∧ getA cur = getB prev) ∧ getA prev + 1 = getA cur then
    let i := setField 32 posA sizeA OpcodeType.move2.value (getA prev)
    let i := setField 32 posB (sizeB - 1) i (getB prev)
    let i := setField 32 posC (sizeC - 1) i (getB cur)
    let i := if constB prev then i ||| opcodeConstB else i
    let i := if constB cur then i ||| opcodeConstC else i
    some i
  else none

inductive CodeOp where
  | writeOpcodeABC (op : OpcodeType) (a b c : Int)
  | writeOpcodeABx (op : OpcodeType) (a b : Int)
  | writeJumpOpcode (offs : Int)
  | fixJumpOpcode (offs : Int) (pos : Nat)
  /-- In `writeOpcodes` of a list. -/
  | fuseMoves
deriving Repr

def Code.step (code : Code) : CodeOp → Option Code
  | .writeOpcodeABC op a b c => some (code ++ [(writeOpcodeABC op a b c, .one (.abc op a b c))])
  | .writeOpcodeABx op a b => some (code ++ [(writeOpcodeABx op a b, .one (.abx op a b))])
  | .writeJumpOpcode offs => some (code ++ [(setJump OpcodeType.jump.value (offs + 1), .one (.jump (offs + 1)))])
  | .fixJumpOpcode offs pos =>
    match code[pos]? with
    | some (i, .one (.jump _)) => some (code.set pos (setJump i offs, .one (.jump offs)))
    | _ => none
  | .fuseMoves =>
    match code.reverse with
    | cur :: prev :: rest =>
      match fuseMoves prev.1 cur.1, prev.2, cur.2 with
      | some i, .one x, .one y => some (rest.reverse ++ [(i, .moves x y)])
      | _, _, _ => some code
    | _ => some code

def Code.run : Code → List CodeOp → Option Code
  | code, [] => some code
  | code, op :: ops => (code.step op).bind fun code => Code.run code ops

def WrittenFor (i : Nat) : Operands → Prop
  | .abc op a b c => i = writeOpcodeABC op a b c
  | .abx op a b => i = writeOpcodeABx op a b
  | .jump offs => ∃ j, getOpcodeType j = OpcodeType.jump.value ∧ i = setJump j offs

def Written : Nat × Given → Prop
  | (i, .one x) => WrittenFor i x
  | (i, .moves x y) => ∃ prev cur, WrittenFor prev x ∧ WrittenFor cur y ∧ fuseMoves prev cur = some i

/-- The fields of an instruction whose operands are set one by one, and then the flags. -/
theorem setFields_fields {o a b c : Nat} (ho : o < 2 ^ 6) (ha : a < 2 ^ 8) (hb : b < 2 ^ 8) (hc : c < 2 ^ 8)
    (flagB flagC : Bool) :
    let i := setField 32 posC (sizeC - 1) (setField 32 posB (sizeB - 1) (setField 32 posA sizeA o a) b) c
    let i := if flagB then i ||| opcodeConstB else i
    let i := if flagC then i ||| opcodeConstC else i
    getOpcodeType i = o ∧ getA i = a ∧ (constB i, getB i) = (flagB, b) ∧ (constC i, getC i) = (flagC, c) := by
  intro i1 i2 i3
  have hB : flagB.toNat < 2 ^ 1 := by cases flagB <;> decide
  have hC : flagC.toNat < 2 ^ 1 := by cases flagC <;> decide
  have hi2 : i2 = i1 ||| flagB.toNat <<< 31 := by
    cases flagB
    · simp [i2]
    · rfl
  have hi3 : i3 = i2 ||| flagC.toNat <<< 22 := by
    cases flagC
    · simp [i3]
    · rfl
  have hfield : ∀ pos size, field pos size i3 =
      field pos size i1 ||| field pos size (flagB.toNat <<< 31) ||| field pos size (flagC.toNat <<< 22) := by
    intro pos size
    rw [hi3, hi2, field_or, field_or]
  -- what none of the three fields covers is the opcode's
  have hother : ∀ pos size, pos + size ≤ 6 ∨ pos = 31 ∧ size = 1 ∨ pos = 22 ∧ size = 1 →
      field pos size i1 = field pos size o := by
    intro pos size h
    have hC' : pos + size ≤ posC ∨ posC + (sizeC - 1) ≤ pos := by simp only [posC, posA, posOp, sizeA, sizeOp, sizeC]; omega
    have hB' : pos + size ≤ posB ∨ posB + (sizeB - 1) ≤ pos := by
      simp only [posB, posC, posA, posOp, sizeA, sizeOp, sizeC, sizeB]; omega
    have hA' : pos + size ≤ posA ∨ posA + sizeA ≤ pos := by simp only [posA, posOp, sizeA, sizeOp]; omega
    have hw : pos + size ≤ 32 := by omega
    exact (field_setField_other hC' hw _ _).trans ((field_setField_other hB' hw _ _).trans (field_setField_other hA' hw _ _))
  have hA1 : field 6 8 i1 = a :=
    ((field_setField_other (.inl (by decide)) (by decide) _ _).trans
      ((field_setField_other (.inl (by decide)) (by decide) _ _).trans (field_setField_self (by decide) _ _))).trans
        (Nat.mod_eq_of_lt ha)
  have hB1 : field 23 8 i1 = b :=
    ((field_setField_other (.inr (by decide)) (by decide) _ _).trans (field_setField_self (by decide) _ _)).trans
      (Nat.mod_eq_of_lt hb)
  have hC1 : field 14 8 i1 = c := (field_setField_self (by decide) _ _).trans (Nat.mod_eq_of_lt hc)
  refine ⟨(hfield 0 6).trans ?_, (hfield 6 8).trans ?_, Prod.ext ?_ ((hfield 23 8).trans ?_),
    Prod.ext ?_ ((hfield 14 8).trans ?_)⟩
  · rw [hother 0 6 (.inl (by decide)), field_shiftLeft_above (by decide), field_shiftLeft_above (by decide), Nat.or_zero,
      Nat.or_zero]
    exact field_shiftLeft_self ho
  · rw [hA1, field_shiftLeft_above (by decide), field_shiftLeft_above (by decide), Nat.or_zero, Nat.or_zero]
  · refine (constB_eq _).trans ?_
    rw [hfield 31 1, hother 31 1 (.inr (.inl ⟨rfl, rfl⟩)), field_below (Nat.lt_trans ho (by decide)), field_shiftLeft_self hB,
      field_shiftLeft_below hC (by decide), Nat.or_zero, Nat.zero_or]
    cases flagB <;> rfl
  · rw [hB1, field_shiftLeft_above (by decide), field_shiftLeft_below hC (by decide), Nat.or_zero, Nat.or_zero]
  · refine (constC_eq _).trans ?_
    rw [hfield 22 1, hother 22 1 (.inr (.inr ⟨rfl, rfl⟩)), field_below (Nat.lt_trans ho (by decide)),
      field_shiftLeft_above (by decide), field_shiftLeft_self hC, Nat.or_zero, Nat.zero_or]
    cases flagC <;> rfl
  · rw [hC1, field_shiftLeft_above (by decide), field_shiftLeft_above (by decide), Nat.or_zero, Nat.or_zero]

theorem fuseMoves_fields {prev cur i : Nat} (h : fuseMoves prev cur = some i) :
    getA prev + 1 = getA cur ∧ getOpcodeType i = OpcodeType.move2.value ∧ getA i = getA prev ∧
      (constB i, getB i) = (constB prev, getB prev) ∧ (constC i, getC i) = (constB cur, getB cur) := by
  unfold fuseMoves at h
  split at h
  · rename_i hmoves
    cases h
    exact ⟨hmoves.2.2.2, setFields_fields OpcodeType.move2.value_lt (field_lt _ _ _) (field_lt _ _ _) (field_lt _ _ _)
      (constB prev) (constB cur)⟩
  · cases h

/-- **Two moves that became one say what both were given exactly when that fits.** -/
theorem moves_decodes {a b c a' b' c' : Int} {i : Nat}
    (h : fuseMoves (writeOpcodeABC .move a b c) (writeOpcodeABC .move a' b' c') = some i) :
    Given.SaysMoves i (.abc .move a b c) (.abc .move a' b' c') ↔ Given.MovesFit (.abc .move a b c) (.abc .move a' b' c') := by
  obtain ⟨hnext, hop, hA, hB, hC⟩ := fuseMoves_fields h
  obtain ⟨hB1, hB2⟩ := Prod.mk.inj hB
  obtain ⟨hC1, hC2⟩ := Prod.mk.inj hC
  have hprev : getA (writeOpcodeABC .move a b c) < 2 ^ 8 := field_lt _ _ _
  have hcur : getA (writeOpcodeABC .move a' b' c') < 2 ^ 8 := field_lt _ _ _
  constructor
  · rintro ⟨-, ha, ha', hb, hb', rfl, rfl⟩
    rw [hA] at ha ha'
    have hfits : (0 ≤ a ∧ a < 2 ^ 8) ∧ 0 ≤ a' ∧ a' < 2 ^ 8 := by omega
    have hfitsB := fits_of_constOperand hb (field_lt _ _ _)
    have hfitsB' := fits_of_constOperand hb' (field_lt _ _ _)
    exact ⟨⟨hfits.1, hfitsB, by decide, by decide⟩, ⟨hfits.2, hfitsB', by decide, by decide⟩, rfl, rfl⟩
  · rintro ⟨hx, hy, hc, hc'⟩
    obtain ⟨-, ha, hb, -⟩ := (writeOpcodeABC_decodes .move a b c).2 hx
    obtain ⟨-, ha', hb', -⟩ := (writeOpcodeABC_decodes .move a' b' c').2 hy
    refine ⟨hop, by rw [hA, ha], by omega, ?_, ?_, hc, hc'⟩
    · rw [hB1, hB2, hb]
    · rw [hC1, hC2, hb']

/-- **What is written says what was given for it exactly when that fits.** -/
theorem Written.decodes_iff {i : Nat} {g : Given} (h : Written (i, g)) : g.Decodes i ↔ g.Fits := by
  cases g with
  | one x =>
    cases x with
    | abc op a b c =>
      obtain rfl : i = writeOpcodeABC op a b c := h
      exact writeOpcodeABC_decodes op a b c
    | abx op a b =>
      obtain rfl : i = writeOpcodeABx op a b := h
      exact writeOpcodeABx_decodes op a b
    | jump offs =>
      obtain ⟨j, hj, rfl⟩ := h
      exact setJump_decodes hj offs
  | moves x y =>
    obtain ⟨prev, cur, hx, hy, hfuse⟩ := h
    show Given.SaysMoves i x y ↔ Given.MovesFit x y
    unfold Given.SaysMoves
    split
    · obtain rfl : prev = _ := hx
      obtain rfl : cur = _ := hy
      exact moves_decodes hfuse
    · rename_i hne
      unfold Given.MovesFit
      split
      · exact (hne _ _ _ _ _ _ rfl rfl).elim
      · exact Iff.rfl

theorem written_jump {i : Nat} (hi : getOpcodeType i = OpcodeType.jump.value) (offs : Int) :
    Written (setJump i offs, .one (.jump offs)) := ⟨i, hi, rfl⟩

theorem step_written {code code' : Code} {op : CodeOp} (h : ∀ p ∈ code, Written p) (hs : code.step op = some code') :
    ∀ p ∈ code', Written p := by
  have happend : ∀ q, Written q → ∀ p ∈ code ++ [q], Written p := by
    intro q hq p hp
    rcases List.mem_append.1 hp with hp | hp
    · exact h p hp
    · rw [List.mem_singleton.1 hp]
      exact hq
  cases op with
  | writeOpcodeABC op a b c =>
    cases hs
    exact happend (_, .one (.abc op a b c)) rfl
  | writeOpcodeABx op a b =>
    cases hs
    exact happend (_, .one (.abx op a b)) rfl
  | writeJumpOpcode offs =>
    cases hs
    exact happend _ (written_jump (by decide) _)
  | fixJumpOpcode offs pos =>
    unfold Code.step at hs
    dsimp only at hs
    split at hs
    · rename_i i old hget
      cases hs
      obtain ⟨j, hj, rfl⟩ : Written (i, .one (.jump old)) := h _ (List.mem_of_getElem? hget)
      intro p hp
      rcases List.mem_or_eq_of_mem_set hp with hp | rfl
      · exact h p hp
      · exact written_jump ((field_setField_other (.inl (by decide)) (by decide) j _).trans hj) offs
    · cases hs
  | fuseMoves =>
    unfold Code.step at hs
    dsimp only at hs
    split at hs
    · rename_i cur prev rest hrev
      have hmem : ∀ p ∈ cur :: prev :: rest, Written p := fun p hp => h p (List.mem_reverse.1 (hrev ▸ hp))
      split at hs
      · rename_i i x y hfuse hx hy
        cases hs
        intro p hp
        rcases List.mem_append.1 hp with hp | hp
        · exact hmem p (List.mem_cons_of_mem _ (List.mem_cons_of_mem _ (List.mem_reverse.1 hp)))
        · rw [List.mem_singleton.1 hp]
          refine ⟨prev.1, cur.1, ?_, ?_, hfuse⟩
          · have hprev : Written (prev.1, prev.2) := hmem prev (List.mem_cons_of_mem _ List.mem_cons_self)
            rw [hx] at hprev
            exact hprev
          · have hcur : Written (cur.1, cur.2) := hmem cur List.mem_cons_self
            rw [hy] at hcur
            exact hcur
      · cases hs
        exact h
    · cases hs
      exact h

/-- **The code says what the compiler gave it, instruction by instruction, exactly when every operand fits its field.** -/
theorem decodes_iff_fits (ops : List CodeOp) (code : Code) (hrun : Code.run [] ops = some code) (p : Nat × Given)
    (hp : p ∈ code) : p.2.Decodes p.1 ↔ p.2.Fits := by
  have hinv : ∀ (ops : List CodeOp) (start code : Code), (∀ p ∈ start, Written p) → start.run ops = some code →
      ∀ p ∈ code, Written p := by
    intro ops
    induction ops with
    | nil =>
      intro start code h hr
      cases hr
      exact h
    | cons op ops ih =>
      intro start code h hr
      obtain ⟨mid, hs, hr⟩ := Option.bind_eq_some_iff.1 hr
      exact ih mid code (step_written h hs) hr
  exact (hinv ops [] code (fun p hp => by cases hp) hrun p hp).decodes_iff

/-- Two moves that become one: of the constant 0 to the register 3, and of the register 1 to the register 4. -/
theorem decodes_moves : (Given.moves (.abc .move 3 (-1) 0) (.abc .move 4 1 0)).Decodes
    ((fuseMoves (writeOpcodeABC .move 3 (-1) 0) (writeOpcodeABC .move 4 1 0)).getD 0) :=
  (decodes_iff_fits [.writeOpcodeABC .move 3 (-1) 0, .writeOpcodeABC .move 4 1 0, .fuseMoves] _ rfl
    (_, .moves (.abc .move 3 (-1) 0) (.abc .move 4 1 0)) (List.mem_singleton.2 rfl)).2 (by
      simp [Given.Fits, Given.MovesFit, Operands.Fits])
/-- **The function 256 of a program is taken for the main one**, the function 0. -/
theorem function_256_lost : ¬ (Operands.abc .newFunction 4 256 0).Decodes (writeOpcodeABC .newFunction 4 256 0) ∧
    getB (writeOpcodeABC .newFunction 4 256 0) = 0 := by decide

end Compiler
end ObjectScript
