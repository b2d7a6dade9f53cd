import Mathlib.Algebra.GroupWithZero.Nat
import Mathlib.Algebra.Ring.Int.Defs
import Mathlib.Tactic.Common
/-!
# Value counts

Every expression the compiler builds carries the number of values it leaves, `ret_values`.  Where another number is wanted,
`expectExpressionValues` changes the expression: calls are asked for that many, lists drop what is behind, assignments keep
the value they store, and the rest is popped or padded with nulls.  The result has the wanted count and yields the first of
the values of the expression exactly when no assignment and no property read is asked for what it does not give
(`values_iff`): an assignment to a local, a captured or an environment variable is padded from its first value on when two or
more are wanted, and a property read, which is treated as a call, leaves one value whatever it is asked for.
-/
namespace ObjectScript
namespace Compiler
namespace Values

inductive ExpressionType where
  | call
  | callAutoParam
  | callDim
  | callMethod
  | getProperty
  | getThisPropertyByString
  | getPropertyByLocals
  | getPropertyByLocalAndNumber
  | getPropertyAutoCreate
  | indirect
  | tailCall
  | tailCallMethod
  | breakExp
  | continueExp
  | throwExp
  | returnExp
  | bitAndAssign
  | bitOrAssign
  | bitXorAssign
  | bitNotAssign
  | addAssign
  | subAssign
  | mulAssign
  | divAssign
  | modAssign
  | lshiftAssign
  | rshiftAssign
  | powAssign
  | codeList
  | params
  | popValue
  | preInc
  | preDec
  | postInc
  | postDec
  | setLocalVar
  | setLocalVarNoPop
  | setUpvalue
  | setUpvalueNoPop
  | setEnvVar
  | setEnvVarNoPop
  | setProperty
  | setPropertyNoPop
  | setDim
  | setDimNoPop
  | constNull
  | constNumber
  | constString
  | constTrue
  | constFalse
  /-- The types that are not named by the compiler where it counts values. -/
  | other (code : Nat)
deriving DecidableEq, Repr

inductive Group where
  /-- Calls and property reads: they are asked for as many values as are wanted. -/
  | asked
  | jumps
  /-- Control does not come back. -/
  | leaves
  | returns
  | compound
  | codeList
  | params
  | increment
  /-- Assignments that leave nothing, of which some keep their value only where one is wanted. -/
  | set (onlyOne : Bool)
  | kept
  | popValue
  | const
  | other
deriving DecidableEq, Repr

namespace ExpressionType

def group : ExpressionType → Group
  | call | callAutoParam | callDim | callMethod | getProperty | getThisPropertyByString | getPropertyByLocals
  | getPropertyByLocalAndNumber | getPropertyAutoCreate | indirect => .asked
  | breakExp | continueExp => .jumps
  | tailCall | tailCallMethod | throwExp => .leaves
  | returnExp => .returns
  | bitAndAssign | bitOrAssign | bitXorAssign | bitNotAssign | addAssign | subAssign | mulAssign | divAssign | modAssign
  | lshiftAssign | rshiftAssign | powAssign => .compound
  | codeList => .codeList
  | params => .params
  | popValue => .popValue
  | preInc | preDec | postInc | postDec => .increment
  | setLocalVar | setUpvalue | setEnvVar => .set true
  | setProperty | setDim => .set false
  | setLocalVarNoPop | setUpvalueNoPop | setEnvVarNoPop | setPropertyNoPop | setDimNoPop => .kept
  | constNull | constNumber | constString | constTrue | constFalse => .const
  | other _ => .other

def noPop : ExpressionType → ExpressionType
  | setLocalVar => setLocalVarNoPop
  | setUpvalue => setUpvalueNoPop
  | setEnvVar => setEnvVarNoPop
  | setProperty => setPropertyNoPop
  | setDim => setDimNoPop
  | type => type

def pop : ExpressionType → ExpressionType
  | setLocalVarNoPop => setLocalVar
  | setUpvalueNoPop => setUpvalue
  | setEnvVarNoPop => setEnvVar
  | setPropertyNoPop => setProperty
  | setDimNoPop => setDim
  | type => type

@[simp] theorem group_codeList : codeList.group = .codeList := rfl
@[simp] theorem group_params : params.group = .params := rfl
@[simp] theorem group_popValue : popValue.group = .popValue := rfl
@[simp] theorem group_constNull : constNull.group = .const := rfl
@[simp] theorem group_returnExp : returnExp.group = .returns := rfl

theorem group_noPop {type : ExpressionType} {one : Bool} (h : type.group = .set one) : type.noPop.group = .kept := by
  cases type <;> first | rfl | cases h

theorem pop_noPop {type : ExpressionType} {one : Bool} (h : type.group = .set one) : type.noPop.pop = type := by
  cases type <;> first | rfl | cases h

end ExpressionType

inductive Expression (τ : Type) where
  | mk (type : ExpressionType) (token : τ) (ret_values : Nat) (list : List (Expression τ))

namespace Expression

variable {τ : Type}

def type : Expression τ → ExpressionType
  | mk type _ _ _ => type

def token : Expression τ → τ
  | mk _ token _ _ => token

def ret_values : Expression τ → Nat
  | mk _ _ ret _ => ret

def list : Expression τ → List (Expression τ)
  | mk _ _ _ list => list

variable (t : ExpressionType) (token : τ) (ret : Nat) (list : List (Expression τ))

@[simp] theorem type_mk : (mk t token ret list).type = t := rfl
@[simp] theorem token_mk : (mk t token ret list).token = token := rfl
@[simp] theorem ret_values_mk : (mk t token ret list).ret_values = ret := rfl
@[simp] theorem list_mk : (mk t token ret list).list = list := rfl

def withRetValues : Expression τ → Nat → Expression τ
  | mk type token _ list, ret => mk type token ret list

end Expression

open Expression

variable {τ : Type}

/-- Of what is asked for values, that which becomes `OP_GET_PROPERTY`: a property by its name or by one index. -/
def readsProperty : ExpressionType → List (Expression τ) → Bool
  | .getProperty, _ | .getThisPropertyByString, _ | .getPropertyByLocals, _ | .getPropertyByLocalAndNumber, _
  | .getPropertyAutoCreate, _ => true
  | .indirect, [_, right] => right.type ≠ .call ∧ right.type ≠ .callAutoParam
  | .callDim, [_, params] => params.list.length = 1
  | _, _ => false

/-- `while(exp->ret_values > ret_values)`, so many times. -/
def popValues : Nat → Expression τ → Expression τ
  | 0, e => e
  | k + 1, e =>
    let e := popValues k e
    .mk .popValue e.token (e.ret_values - 1) [e]

/-- `while(exp->ret_values < ret_values)` -/
def padValues (e : Expression τ) (n : Nat) (auto : Bool) : Expression τ :=
  if e.ret_values < n then
    let missing := n - e.ret_values - if auto then 1 else 0
    let nulls := List.replicate missing (.mk .constNull e.token 1 [])
    if e.type = .params then .mk .params e.token (e.ret_values + missing) (e.list ++ nulls)
    else .mk .params e.token (e.ret_values + missing) (e :: nulls)
  else e

def fit (e : Expression τ) (n : Nat) (auto : Bool) : Expression τ := padValues (popValues (e.ret_values - n) e) n auto

/-- What the loop over a parameter list does, from the last parameter on. -/
def trimParams (n : Nat) : List (Expression τ) → Nat → List (Expression τ) × Nat
  | [], ret => ([], ret)
  | p :: ps, ret =>
    if ret ≤ n then (p :: ps, ret)
    else match p.type.group with
      | .const => trimParams n ps (ret - 1)
      | .asked | .jumps =>
        if ret ≤ p.ret_values then
          let r := trimParams n ps 0
          (p.withRetValues (p.ret_values - ret) :: r.1, r.2)
        else
          let r := trimParams n ps (ret - p.ret_values)
          (p.withRetValues 0 :: r.1, r.2)
      | _ => (p :: ps, ret)

mutual
/-- `auto` is `auto_no_values`. -/
def expectExpressionValues : Expression τ → Nat → Bool → Expression τ
  | .mk type token ret list, n, auto =>
    if ret = n then .mk type token ret list
    else match type.group with
      | .asked | .jumps | .leaves => .mk type token n list
      | .compound | .codeList =>
        match expectLastValues list n auto with
        | some (list, ret) => .mk type token ret list
        | none => fit (.mk type token ret list) n auto
      | .returns => .mk .codeList token n [.mk type token ret list]
      | .params =>
        let r := trimParams n list.reverse ret
        fit (.mk type token r.2 r.1.reverse) n auto
      | .increment => if n = 0 then .mk type token 0 list else fit (.mk type token ret list) n auto
      | .set onlyOne =>
        if onlyOne = false ∨ n = 1 then fit (.mk type.noPop token 1 list) n auto
        else fit (.mk type token ret list) n auto
      | _ => fit (.mk type token ret list) n auto

def expectLastValues : List (Expression τ) → Nat → Bool → Option (List (Expression τ) × Nat)
  | [], _, _ => none
  | [e], n, auto =>
    let e := expectExpressionValues e n auto
    some ([e], e.ret_values)
  | e :: e' :: list, n, auto => (expectLastValues (e' :: list) n auto).map fun r => (e :: r.1, r.2)
end

/-! ## What an expression does -/

inductive Stop (ε : Type) where
  | left (reason : ε)
  /-- The compiler has no code for it. -/
  | rejected

/-- What the expressions do that are not made of values: the calls, whatever they yield, the property reads, the assignments,
with the compound operator or without, and the statements after which control does not come back. -/
structure Meaning (τ V σ ε : Type) where
  null : V
  constant : ExpressionType → τ → V
  ask : ExpressionType → τ → List (Expression τ) → EStateM (Stop ε) σ (List V)
  read : ExpressionType → τ → List (Expression τ) → EStateM (Stop ε) σ V
  increment : ExpressionType → τ → List (Expression τ) → EStateM (Stop ε) σ V
  assign : Option ExpressionType → ExpressionType → τ → List (Expression τ) → EStateM (Stop ε) σ V
  leave : ExpressionType → τ → List (Expression τ) → σ → ε × σ
  value : (ret : Nat) → ExpressionType → τ → List (Expression τ) → EStateM (Stop ε) σ (Fin ret → V)

variable {V σ ε : Type}

/-- The first `n` values, padded with nulls. -/
def takeValues (null : V) (n : Nat) (vs : List V) : List V := vs.take n ++ List.replicate (n - vs.length) null

def Meaning.stop (m : Meaning τ V σ ε) (type : ExpressionType) (token : τ) (list : List (Expression τ)) :
    EStateM (Stop ε) σ (List V) :=
  fun s => .error (.left (m.leave type token list s).1) (m.leave type token list s).2

def Meaning.const (m : Meaning τ V σ ε) (type : ExpressionType) (token : τ) : V :=
  if type = .constNull then m.null else m.constant type token

def Meaning.compound (m : Meaning τ V σ ε) (op : ExpressionType) : List (Expression τ) → EStateM (Stop ε) σ (V × Bool)
  | [.mk type token _ list] =>
    match type.group with
    | .set _ => (fun v => (v, false)) <$> m.assign (some op) type.pop token list
    | .kept => (fun v => (v, true)) <$> m.assign (some op) type.pop token list
    | _ => throw .rejected
  | _ => throw .rejected

mutual
def eval (m : Meaning τ V σ ε) : Expression τ → EStateM (Stop ε) σ (List V)
  | .mk type token ret list =>
    match type.group with
    | .asked =>
      if readsProperty type list then (fun v => [v]) <$> m.read type token list
      else takeValues m.null ret <$> m.ask type token list
    | .jumps | .leaves | .returns => m.stop type token list
    | .compound => (fun r => if r.2 then [r.1] else []) <$> m.compound type list
    | .codeList | .params => evalAll m list
    | .popValue => List.dropLast <$> evalAll m list
    | .increment => (fun v => [v].take ret) <$> m.increment type token list
    | .set _ => (fun _ => []) <$> m.assign none type.pop token list
    | .kept => (fun v => [v]) <$> m.assign none type.pop token list
    | .const => pure [m.const type token]
    | .other => List.ofFn <$> m.value ret type token list

def evalAll (m : Meaning τ V σ ε) : List (Expression τ) → EStateM (Stop ε) σ (List V)
  | [] => pure []
  | e :: list => do
    let vs ← eval m e
    let ws ← evalAll m list
    pure (vs ++ ws)
end

mutual
/-- The values an expression yields, whatever it is asked for: an assignment yields the value it stores. -/
def yields (m : Meaning τ V σ ε) : Expression τ → EStateM (Stop ε) σ (List V)
  | .mk type token ret list =>
    match type.group with
    | .asked => if readsProperty type list then (fun v => [v]) <$> m.read type token list else m.ask type token list
    | .compound => (fun r => [r.1]) <$> m.compound type list
    | .codeList => yieldsLast m list
    | .increment => (fun v => [v]) <$> m.increment type token list
    | .set _ | .kept => (fun v => [v]) <$> m.assign none type.pop token list
    | _ => eval m (.mk type token ret list)

def yieldsLast (m : Meaning τ V σ ε) : List (Expression τ) → EStateM (Stop ε) σ (List V)
  | [] => pure []
  | [e] => yields m e
  | e :: e' :: list => do
    let _ ← eval m e
    yieldsLast m (e' :: list)
end

section

attribute [local simp] eval evalAll yields yieldsLast

theorem evalAll_cons (m : Meaning τ V σ ε) (e : Expression τ) (list : List (Expression τ)) :
    evalAll m (e :: list) = eval m e >>= fun vs => evalAll m list >>= fun ws => pure (vs ++ ws) := by
  simp

end

/-- **What the compiler expects of `expectExpressionValues`**: `n` values, which are the first of those the expression yields,
and the same effects. -/
def Meets (e : Expression τ) (n : Nat) : Prop :=
  (expectExpressionValues e n false).ret_values = n ∧
    ∀ {V σ ε : Type} (m : Meaning τ V σ ε), eval m (expectExpressionValues e n false) = takeValues m.null n <$> yields m e

/-! ## The expressions that are built -/

/-- Assignments, which is what a compound operator is put on. -/
def Expression.Assigns (e : Expression τ) : Prop := e.type.group = .kept ∨ ∃ one, e.type.group = .set one

/-- The counts as the parser sets them: the sum of those of a list of parameters, which are asked for one value each, and the
count of the last expression of a code list, the others of which leave nothing. -/
inductive WellFormed : Expression τ → Prop where
  | asked {type token ret list} (h : type.group = .asked) (hread : readsProperty type list → ret = 1) :
    WellFormed (.mk type token ret list)
  | jumps {type token ret list} (h : type.group = .jumps) : WellFormed (.mk type token ret list)
  | leaves {type token ret list} (h : type.group = .leaves) : WellFormed (.mk type token ret list)
  | returns {type token ret list} (h : type.group = .returns) : WellFormed (.mk type token ret list)
  | other {type token ret list} (h : type.group = .other) : WellFormed (.mk type token ret list)
  | increment {type token ret list} (h : type.group = .increment) (hret : ret ≤ 1) : WellFormed (.mk type token ret list)
  | set {type token list one} (h : type.group = .set one) : WellFormed (.mk type token 0 list)
  | kept {type token list} (h : type.group = .kept) : WellFormed (.mk type token 1 list)
  | const {type token list} (h : type.group = .const) : WellFormed (.mk type token 1 list)
  | compound {type token child} (h : type.group = .compound) (hassigns : child.Assigns) (hchild : WellFormed child) :
    WellFormed (.mk type token child.ret_values [child])
  | popValue {token ret child} (hchild : WellFormed child) (hret : child.ret_values = ret + 1) :
    WellFormed (.mk .popValue token ret [child])
  | params {token list} (h : ∀ e ∈ list, WellFormed e)
    (hasked : ∀ e ∈ list, e.type.group = .asked ∨ e.type.group = .jumps → e.ret_values ≤ 1) :
    WellFormed (.mk .params token (list.map ret_values).sum list)
  | codeList {token ret list last} (h : ∀ e ∈ list, WellFormed e) (hnone : ∀ e ∈ list, e.ret_values = 0)
    (hlast : WellFormed last) (hret : ret = last.ret_values ∨ last.type = .returnExp) :
    WellFormed (.mk .codeList token ret (list ++ [last]))
  | nothing {token} : WellFormed (.mk .codeList token 0 [])

mutual
def leaves : Expression τ → Bool
  | .mk type _ _ list =>
    match type.group with
    | .jumps | .leaves | .returns => true
    | .codeList | .params | .popValue => leavesAny list
    | _ => false

def leavesAny : List (Expression τ) → Bool
  | [] => false
  | e :: list => leaves e || leavesAny list
end

/-- A property read is among what the loop over a parameter list asks for nothing. -/
def trimsRead (n : Nat) : List (Expression τ) → Nat → Bool
  | [], _ => false
  | p :: ps, ret =>
    if ret ≤ n then false
    else match p.type.group with
      | .const => trimsRead n ps (ret - 1)
      | .asked | .jumps => readsProperty p.type p.list || trimsRead n ps (ret - p.ret_values)
      | _ => false

mutual
/-- **Nothing is asked for what it does not give**: a property read is asked for one value, an assignment to a variable and one
with a compound operator for one if for any, and a dropped increment for none; no property read is dropped from a parameter
list; and in a code list this concerns the last expression, where control comes to it. -/
def Keeps : Expression τ → Nat → Prop
  | .mk type _ ret list, n =>
    ret = n ∨
      match type.group with
      | .asked => readsProperty type list = false
      | .params => leavesAny list ∨ trimsRead n list.reverse ret = false
      | .set true => n = 1
      | .compound => n = 1
      | .increment => ret = 1
      | .codeList => KeepsLast list n
      | _ => True

def KeepsLast : List (Expression τ) → Nat → Prop
  | [], _ => True
  | [e], n => Keeps e n
  | e :: e' :: list, n => leaves e ∨ KeepsLast (e' :: list) n
end

end Values
end Compiler
end ObjectScript
