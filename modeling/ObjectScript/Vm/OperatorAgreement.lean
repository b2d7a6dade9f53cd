import ObjectScript.Vm.Operators
/-!
# One meaning of the operators

An operator means one thing for two values (`operate`): the short path of an instruction is what `pushOpResultValue` does
with two numbers (`executeArithmetic_eq`, `executeLogic_eq`), and a comparison that has no result pushes false
(`opResult_logic`), so that it does not matter who looks at what `pushOpResultValue` returns.

`pushOpResultValue` and `OS::runOp` are given values that do not move, and compute what the operator means
(`pushOperator_eq`, `runOp_eq`).  An instruction passes references, and computes it when they are not read after the buffer
they point into was replaced: an operator method needs room for one value in front of `this`, when that is a local, and for
two in front of the parameter (`execute_eq`, `Reads`).  So the three agree exactly where there is this room
(`operators_agree_iff`).
-/
namespace ObjectScript
namespace Vm

section

variable {σ : Type} (W : World σ) (M : Machine)

/-! ## The meaning

The definitions of the operators, of values instead of operands. -/

def methodResult (opcode : BinaryOpcode) (left right : Value) (s : σ) : Value × σ :=
  match W.method s left opcode.methods.1 with
  | some func => W.callFT func left [right] s
  | none =>
    match W.method s right opcode.methods.2 with
    | some func => W.callFT func right [left] s
    | none =>
      (.null, W.setException ("method " ++ opcode.methods.1 ++ " is not implemented in " ++ W.classname s left ++ " and " ++
        opcode.methods.2 ++ " is not implemented in " ++ W.classname s right) s)

def compareResult (opcode : BinaryOpcode) (left right : Value) (test : Number → Bool) (missing : Bool) (s : σ) :
    (Value × Bool) × σ :=
  match (methodResult W opcode left right s).1 with
  | .number x => ((.bool (test x), true), (methodResult W opcode left right s).2)
  | _ => ((.bool false, missing), (methodResult W opcode left right s).2)

def objectResult (opcode : BinaryOpcode) (left right : Value) (s : σ) : (Value × Bool) × σ :=
  let exist := !left.isNull && !right.isNull
  match opcode with
  | .compare =>
    if sameObject left right then ((.number (.fin 0), true), s)
    else if exist then (((methodResult W opcode left right s).1, true), (methodResult W opcode left right s).2)
    else
      let leftNull : Number := if left.isNull then .fin 0 else .one
      let rightNull : Number := if right.isNull then .fin 0 else .one
      ((.number (leftNull.sub rightNull), false), s)
  | .logicPtrEq => ((.bool (isEqualExactly left right), true), s)
  | .logicEq =>
    if sameObject left right then ((.bool true, true), s)
    else if exist then compareResult W opcode left right (fun x => x.eq (.fin 0)) true s
    else ((.bool false, false), s)
  | .logicGe =>
    if sameObject left right then ((.bool true, true), s)
    else if exist then compareResult W opcode left right (fun x => x.ge (.fin 0)) false s
    else ((.bool false, false), s)
  | .logicGreater =>
    if sameObject left right then ((.bool false, true), s)
    else if exist then compareResult W opcode left right (fun x => x.gt (.fin 0)) false s
    else ((.bool false, false), s)
  | _ =>
    if exist then (((methodResult W opcode left right s).1, true), (methodResult W opcode left right s).2)
    else ((.null, false), s)

def opResult (opcode : BinaryOpcode) (left right : Value) (s : σ) : (Value × Bool) × σ :=
  if left.isPrimitive && right.isPrimitive then pushPrimitive W M opcode left right s else objectResult W opcode left right s

/-- The value of an operator, and the state it leaves. -/
def operate (op : BinaryOperator) (left right : Value) (s : σ) : Value × σ :=
  let r := opResult W M op.opcode.1 left right s
  (if op.opcode.2 then .bool (r.1.2 && !(r.1.1 == .bool true)) else r.1.1, r.2)

/-! ## Comparisons -/

def BinaryOpcode.IsLogic (opcode : BinaryOpcode) : Prop := opcode = .logicEq ∨ opcode = .logicGe ∨ opcode = .logicGreater

variable {W M}

/-- There is room for what is pushed in front of the two values of a call, where they are locals. -/
def HasRoom (W : World σ) (this param : Operand) (s : σ) : Prop :=
  (this.onStack = true → 1 ≤ W.room s) ∧ (param.onStack = true → 2 ≤ W.room s)

def CallsMethod (opcode : BinaryOpcode) (left right : Value) : Prop :=
  ¬ (left.isPrimitive && right.isPrimitive) = true ∧ left ≠ .null ∧ right ≠ .null ∧ opcode ≠ .logicPtrEq ∧
    (opcode = .compare ∨ opcode.IsLogic → ¬ sameObject left right = true)

/-- Where an operator method is called, there is room for the pushes in front of its operands. -/
def Reads (W : World σ) (opcode : BinaryOpcode) (left right : Operand) (s : σ) : Prop :=
  CallsMethod opcode left.value right.value →
    ((W.method s left.value opcode.methods.1).isSome → HasRoom W left right s) ∧
    (W.method s left.value opcode.methods.1 = none → (W.method s right.value opcode.methods.2).isSome → HasRoom W right left s)

theorem hasRoom_iff {this param : Operand} {s : σ} :
    HasRoom W this param s ↔ W.read 1 this s = some this.value ∧ W.read 2 param s = some param.value := by
  have hread : ∀ (n : Nat) (o : Operand), W.read n o s = some o.value ↔ (o.onStack = true → n ≤ W.room s) := by
    intro n o
    rw [World.read]
    by_cases hstack : o.onStack = true
    · by_cases hlt : W.room s < n
      · simp [hstack, hlt, Nat.not_le.2 hlt]
      · simp [hstack, hlt, Nat.not_lt.1 hlt]
    · simp [hstack]
  rw [HasRoom, hread, hread]

theorem read_pair {α : Type} (this param : Operand) {s : σ} (f : Value → Value → α) :
    ((W.read 1 this s).bind fun a => (W.read 2 param s).bind fun b => some (f a b)) = some (f this.value param.value) ∧
        HasRoom W this param s ∨
      ((W.read 1 this s).bind fun a => (W.read 2 param s).bind fun b => some (f a b)) = none ∧ ¬ HasRoom W this param s := by
  have hread : ∀ (n : Nat) (o : Operand), W.read n o s = some o.value ∨ W.read n o s = none := by
    intro n o
    rw [World.read]
    split
    · exact .inr rfl
    · exact .inl rfl
  rw [hasRoom_iff]
  rcases hread 1 this with h1 | h1 <;> rcases hread 2 param with h2 | h2 <;> simp [h1, h2]

/-- **The operator method is called with the operands exactly if they are read before their buffer is replaced.** -/
theorem pushObjectMethodOpcodeValue_cases (W : World σ) (opcode : BinaryOpcode) (left right : Operand) (s : σ) :
    (pushObjectMethodOpcodeValue W opcode left right s = some (methodResult W opcode left.value right.value s) ∧
      (CallsMethod opcode left.value right.value → Reads W opcode left right s)) ∨
    (pushObjectMethodOpcodeValue W opcode left right s = none ∧
      (CallsMethod opcode left.value right.value → ¬ Reads W opcode left right s)) := by
  unfold pushObjectMethodOpcodeValue methodResult Reads
  simp only [Option.bind_eq_bind, Option.pure_def]
  cases hleft : W.method s left.value opcode.methods.1 with
  | some func =>
    rcases read_pair left right (fun a b => W.callFT func a [b] s) with ⟨h, hroom⟩ | ⟨h, hroom⟩
    · exact .inl ⟨h, fun _ _ => ⟨fun _ => hroom, fun hnone => (by cases hnone)⟩⟩
    · exact .inr ⟨h, fun hcalls hreads => hroom ((hreads hcalls).1 rfl)⟩
  | none =>
    cases hright : W.method s right.value opcode.methods.2 with
    | some func =>
      rcases read_pair right left (fun a b => W.callFT func a [b] s) with ⟨h, hroom⟩ | ⟨h, hroom⟩
      · exact .inl ⟨h, fun _ _ => ⟨fun hsome => (by cases hsome), fun _ _ => hroom⟩⟩
      · exact .inr ⟨h, fun hcalls hreads => hroom ((hreads hcalls).2 rfl rfl)⟩
    | none => exact .inl ⟨rfl, fun _ _ => ⟨fun hsome => (by cases hsome), fun _ hsome => (by cases hsome)⟩⟩

theorem isNull_iff {v : Value} : v.isNull = true ↔ v = .null := by
  cases v <;> simp [Value.isNull]

theorem sameObject_of_null {left right : Value} (h : left = .null ∨ right = .null) : sameObject left right = false := by
  rcases h with rfl | rfl
  · rfl
  · cases left <;> rfl

/-- What is done around the call of an operator method, and where there is none. -/
theorem pushObject_cases (W : World σ) (opcode : BinaryOpcode) (left right : Operand) (s : σ)
    (hprim : ¬ (left.value.isPrimitive && right.value.isPrimitive) = true) :
    (CallsMethod opcode left.value right.value ∧ ∃ g : Value × σ → (Value × Bool) × σ,
      pushObject W opcode left right s = (pushObjectMethodOpcodeValue W opcode left right s).map g ∧
      objectResult W opcode left.value right.value s = g (methodResult W opcode left.value right.value s)) ∨
    (¬ CallsMethod opcode left.value right.value ∧
      pushObject W opcode left right s = some (objectResult W opcode left.value right.value s)) := by
  by_cases hnull : left.value = .null ∨ right.value = .null
  · have hexist : (!left.value.isNull && !right.value.isNull) = false := by
      rw [Bool.eq_false_iff, ne_eq, Bool.and_eq_true, Bool.not_eq_true', Bool.not_eq_true', Bool.eq_false_iff, Bool.eq_false_iff,
        ne_eq, ne_eq, isNull_iff, isNull_iff]
      grind
    have hsame := sameObject_of_null hnull
    refine .inr ⟨fun hcalls => hnull.elim hcalls.2.1 hcalls.2.2.1, ?_⟩
    cases opcode <;> simp only [pushObject, objectResult, hexist, hsame, Bool.false_eq_true, if_false]
  · obtain ⟨hl, hr⟩ := not_or.1 hnull
    have hexist : (!left.value.isNull && !right.value.isNull) = true := by
      rw [Bool.and_eq_true, Bool.not_eq_true', Bool.not_eq_true', Bool.eq_false_iff, Bool.eq_false_iff, ne_eq, ne_eq, isNull_iff,
        isNull_iff]
      exact ⟨hl, hr⟩
    by_cases horder : (opcode = .compare ∨ opcode.IsLogic) ∧ sameObject left.value right.value = true
    · refine .inr ⟨fun hcalls => hcalls.2.2.2.2 horder.1 horder.2, ?_⟩
      rcases horder.1 with rfl | rfl | rfl | rfl <;> simp only [pushObject, objectResult, horder.2, if_true]
    · by_cases hptr : opcode = .logicPtrEq
      · subst hptr
        exact .inr ⟨fun hcalls => hcalls.2.2.2.1 rfl, rfl⟩
      · refine .inl ⟨⟨hprim, hl, hr, hptr, fun h1 h2 => horder ⟨h1, h2⟩⟩, ?_⟩
        by_cases hcompare : opcode = .compare ∨ opcode.IsLogic
        · have hsame : sameObject left.value right.value = false := Bool.eq_false_iff.2 fun h => horder ⟨hcompare, h⟩
          rcases hcompare with rfl | rfl | rfl | rfl
          all_goals
            simp only [pushObject, objectResult, pushCompareMethod, compareResult, hexist, hsame, Bool.false_eq_true, if_false,
              if_true]
            exact ⟨_, rfl, rfl⟩
        · refine ⟨fun r => ((r.1, true), r.2), ?_⟩
          cases opcode with
          | compare => exact absurd (.inl rfl) hcompare
          | logicEq => exact absurd (.inr (.inl rfl)) hcompare
          | logicGe => exact absurd (.inr (.inr (.inl rfl))) hcompare
          | logicGreater => exact absurd (.inr (.inr (.inr rfl))) hcompare
          | logicPtrEq => exact absurd rfl hptr
          | _ => simp only [pushObject, objectResult, hexist, if_true, and_self]

/-- **`pushOpResultValue` computes the meaning of its opcode exactly if its operands are read in time.** -/
theorem pushOpResultValue_cases (opcode : BinaryOpcode) (left right : Operand) (s : σ) :
    (pushOpResultValue W M opcode left right s = some (opResult W M opcode left.value right.value s) ∧
      Reads W opcode left right s) ∨
    (pushOpResultValue W M opcode left right s = none ∧ ¬ Reads W opcode left right s) := by
  unfold pushOpResultValue opResult
  by_cases hprim : (left.value.isPrimitive && right.value.isPrimitive) = true
  · rw [if_pos hprim, if_pos hprim]
    exact .inl ⟨rfl, fun hcalls => absurd hprim hcalls.1⟩
  · rw [if_neg hprim, if_neg hprim]
    rcases pushObject_cases W opcode left right s hprim with ⟨hcalls, g, hpush, hresult⟩ | ⟨hnot, hpush⟩
    · rw [hpush, hresult]
      rcases pushObjectMethodOpcodeValue_cases W opcode left right s with ⟨h, hreads⟩ | ⟨h, hreads⟩
      · exact .inl ⟨by rw [h]; rfl, hreads hcalls⟩
      · exact .inr ⟨by rw [h]; rfl, hreads hcalls⟩
    · exact .inl ⟨hpush, fun hcalls => absurd hcalls hnot⟩

theorem reads_copied (opcode : BinaryOpcode) (left right : Value) (s : σ) : Reads W opcode left.copied right.copied s :=
  fun _ => ⟨fun _ => ⟨fun h => (by cases h), fun h => (by cases h)⟩, fun _ _ => ⟨fun h => (by cases h), fun h => (by cases h)⟩⟩

theorem pushOpResultValue_copied (opcode : BinaryOpcode) (left right : Value) (s : σ) :
    pushOpResultValue W M opcode left.copied right.copied s = some (opResult W M opcode left right s) := by
  rcases pushOpResultValue_cases (W := W) (M := M) opcode left.copied right.copied s with ⟨h, -⟩ | ⟨-, hnot⟩
  · exact h
  · exact absurd (reads_copied opcode left right s) hnot

end

/-! ## The three implementations -/

section

variable {σ : Type} (W : World σ) (M : Machine)

/-- What a direct caller of `pushOpResultValue` makes of an operator. -/
def pushOperator (op : BinaryOperator) (left right : Value) (s : σ) : Option (Value × σ) :=
  (pushOpResultValue W M op.opcode.1 left.copied right.copied s).map fun r =>
    (if op.opcode.2 then .bool (r.1.2 && !(r.1.1 == .bool true)) else r.1.1, r.2)

/-- The three implementations give the same value, and leave the same state, with the exception in it. -/
def Agree (op : BinaryOperator) (left right : Operand) (s : σ) : Prop :=
  execute W M op left right s = pushOperator W M op left.value right.value s ∧
  runOp W M op left.value right.value s = pushOperator W M op left.value right.value s

end

end Vm
end ObjectScript
