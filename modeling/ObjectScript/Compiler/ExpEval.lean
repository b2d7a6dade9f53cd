import ObjectScript.Compiler.NodeRuns
/-!
# What expressions mean

An expression is evaluated from left to right.  A local that is an operand is not read where it stands but where the
operator reads it, behind the other operands: `eval` gives operands, some of them locals still to be read.  Where the values
of an expression are arguments or go to a variable they are read at once.
-/
namespace ObjectScript
namespace Compiler
namespace NewVM

open Registers

variable {V W τ : Type}

/-- A value, or a local that is still to be read. -/
inductive Operand (V : Type) where
  | value (v : V)
  | local (i : Nat)

namespace Operand

def read (fr : Frame V W) : Operand V → V
  | .value v => v
  | .local i => fr.locals i

/-- The value of an operand at the place where it is read. -/
def get (o : Operand V) : Comp (Frame V W) τ V := .read o.read

end Operand

section

variable (f : Function) (M : Machine V W τ)

def null : V := M.constant (f.constIndex .null)

def finish (x : Comp (Frame V W) τ (List (Operand V))) : Comp (Frame V W) τ (List V) := do
  let os ← x
  .read fun fr => os.map (Operand.read fr)

def single (x : Comp (Frame V W) τ (List (Operand V))) : Comp (Frame V W) τ (Operand V) := do
  let os ← x
  return os.getLastD (.value (null f M))

def now (x : Comp (Frame V W) τ (List (Operand V))) : Comp (Frame V W) τ V := do
  let o ← single f M x
  o.get

def getLocal (v : LocalVar) : Comp (Frame V W) τ V :=
  if v.upCount ≠ 0 then .read (M.getUpvalue v.index v.upCount) else (Operand.local v.index).get

def setLocal (v : LocalVar) (x : V) : Comp (Frame V W) τ Unit :=
  .modify fun fr => if v.upCount ≠ 0 then M.setUpvalue v.index v.upCount x fr else fr.setLocal v.index x

def getEnv (name : Nat) : Comp (Frame V W) τ V := do
  let env ← (Operand.local (f.numParams + postVarEnv)).get
  M.getProperty env (M.constant (f.constIndex (.string name)))

def setEnv (name : Nat) (x : V) : Comp (Frame V W) τ Unit := do
  let env ← (Operand.local (f.numParams + postVarEnv)).get
  M.setProperty env (M.constant (f.constIndex (.string name))) x

def getMember (obj index : Operand V) : Comp (Frame V W) τ V := do
  let o ← obj.get
  let i ← index.get
  M.getProperty o i

def setMember (obj index : Operand V) (value : V) : Comp (Frame V W) τ Unit := do
  let o ← obj.get
  let i ← index.get
  M.setProperty o i value

/-- The operator between what a place has and `x`; the answer goes to the place.  Both values of the place are given. -/
def compound (op : BinaryType) (get : Comp (Frame V W) τ V) (x : Comp (Frame V W) τ V)
    (set : V → Comp (Frame V W) τ Unit) : Comp (Frame V W) τ (V × V) := do
  let z ← get
  let x ← x
  let y ← M.binary op z x
  set y
  return (z, y)

/-- What is left of the values when the last one was assigned. -/
def leftOf (noPop : Bool) (os : List (Operand V)) : List (Operand V) := bif noPop then os else os.dropLast

def incDecValues (kind : IncDecType) (ret : Bool) (r : V × V) : List (Operand V) :=
  bif ret then [.value (bif kind.isPre then r.2 else r.1)] else []

def callValues (kind : CallType) (ret : Nat) (vs : List V) : Comp (Frame V W) τ (List (Operand V)) := do
  let r ← M.call kind vs ret
  return r.1.map .value

def callGlobal (name : Nat) (ret : Nat) (x : Comp (Frame V W) τ (List V)) : Comp (Frame V W) τ (List (Operand V)) := do
  let g ← (Operand.local (f.numParams + postVarGlobals)).get
  let vs ← x
  callValues M .callMethod ret (g :: M.constant (f.constIndex (.string name)) :: vs)

/-- The name of the function at the bottom of a chain of concatenations. -/
def Exp.concatName : Exp → Nat
  | .concat name l _ => if l.isConcat then l.concatName else name
  | _ => 0

mutual

def eval : Exp → Comp (Frame V W) τ (List (Operand V))
  | .const c => return [.value (M.constant (f.constIndex c))]
  | .getThis => return [.local preVarThis]
  | .getLocalVar v =>
    if v.upCount ≠ 0 then do
      let x ← getLocal M v
      return [.value x]
    else return [.local v.index]
  | .setLocalVar noPop v e => do
    let vs ← finish (eval e)
    setLocal M v (vs.getLastD (null f M))
    return leftOf noPop (vs.map .value)
  | .getEnvVar name => do
    let x ← getEnv f M name
    return [.value x]
  | .setEnvVar noPop name e => do
    let vs ← finish (eval e)
    setEnv f M name (vs.getLastD (null f M))
    return leftOf noPop (vs.map .value)
  | .getProperty obj index => do
    let o ← single f M (eval obj)
    let i ← single f M (eval index)
    let x ← getMember M o i
    return [.value x]
  | .setProperty noPop value obj index => do
    let os ← eval value
    let o ← single f M (eval obj)
    let i ← single f M (eval index)
    let x ← (os.getLastD (.value (null f M))).get
    setMember M o i x
    return leftOf noPop os
  | .unary op e => do
    let x ← now f M (eval e)
    let y ← M.unary op x
    return [.value y]
  | .logicNot e => do
    let x ← now f M (eval e)
    return [.value (M.ofBool !M.toBool x)]
  | .logicBool e => do
    let x ← now f M (eval e)
    return [.value (M.ofBool (M.toBool x))]
  | .binary op l r => do
    let a ← single f M (eval l)
    let b ← single f M (eval r)
    let x ← a.get
    let y ← b.get
    let z ← M.binary op x y
    return [.value z]
  | .logic op l r => do
    let x ← now f M (eval l)
    let y ← now f M (eval r)
    let b ← M.logic op x y
    return [.value (M.ofBool b)]
  | .logicAnd l r => do
    let x ← now f M (eval l)
    if M.toBool x then do
      let y ← now f M (eval r)
      return [.value y]
    else return [.value x]
  | .logicOr l r => do
    let x ← now f M (eval l)
    if M.toBool x then return [.value x]
    else do
      let y ← now f M (eval r)
      return [.value y]
  | .question c l r => do
    let x ← now f M (eval c)
    let y ← if M.toBool x then now f M (eval l) else now f M (eval r)
    return [.value y]
  | .incDec kind one ret e => do
    let one := Pure.pure (M.constant (f.constIndex (.number one)))
    match e with
    | .getLocalVar v => do
      let r ← compound M kind.op (getLocal M v) one (setLocal M v)
      return incDecValues kind ret r
    | .getEnvVar name => do
      let r ← compound M kind.op (getEnv f M name) one (setEnv f M name)
      return incDecValues kind ret r
    | .getProperty obj index => do
      let o ← single f M (eval obj)
      let i ← single f M (eval index)
      let r ← compound M kind.op (getMember M o i) one (setMember M o i)
      return incDecValues kind ret r
    | _ => return []
  | .opAssign op e =>
    match e with
    | .setLocalVar noPop v e => do
      let x ← if v.upCount ≠ 0 then .value <$> now f M (eval e) else single f M (eval e)
      let r ← compound M op (getLocal M v) x.get (setLocal M v)
      return leftOf noPop [.value r.2]
    | .setEnvVar noPop name e => do
      let x ← now f M (eval e)
      let r ← compound M op (getEnv f M name) (Pure.pure x) (setEnv f M name)
      return leftOf noPop [.value r.2]
    | .setProperty noPop value obj index => do
      let x ← single f M (eval value)
      let o ← single f M (eval obj)
      let i ← single f M (eval index)
      let r ← compound M op (getMember M o i) x.get (setMember M o i)
      return leftOf noPop [.value r.2]
    | _ => return []
  | .call kind e ps ret => do
    let vs ← finish (eval e)
    let ws ← evalAll ps
    callValues M kind ret (vs ++ ws)
  | .concat name l r => callGlobal f M (Exp.concat name l r).concatName 1 do
    let vs ← if l.isConcat then evalParts l else finish (eval l)
    let y ← now f M (eval r)
    return vs ++ [y]
  | .methodOp name l r ret => callGlobal f M name ret do
    let x ← now f M (eval l)
    let y ← now f M (eval r)
    return [x, y]
  | .length name e => callGlobal f M name 1 do
    let x ← now f M (eval e)
    return [x]
  | .params es => do
    let vs ← evalAll es
    return vs.map .value
  | .codeList es => do
    let vs ← evalAll es
    return vs.map .value
  | .popValue e => do
    let vs ← finish (eval e)
    return (vs.map .value).dropLast

def evalAll : List Exp → Comp (Frame V W) τ (List V)
  | [] => return []
  | e :: es => do
    let vs ← finish (eval e)
    let ws ← evalAll es
    return vs ++ ws

def evalParts : Exp → Comp (Frame V W) τ (List V)
  | .concat _ l r => do
    let vs ← if l.isConcat then evalParts l else finish (eval l)
    let y ← now f M (eval r)
    return vs ++ [y]
  | _ => return []

end

section

attribute [local simp] eval evalAll evalParts

@[simp] theorem evalAll_nil : evalAll f M [] = Comp.pure [] := by
  simp
  rfl

end

/-! ## Expressions the compiler builds -/

/-- A local of this function is one of its registers. -/
def LocalVar.Valid (v : LocalVar) : Prop := v.upCount = 0 → v.index < f.numLocals

def Exp.assignsLocal : Exp → Bool
  | .setLocalVar _ v _ => v.upCount = 0
  | _ => false

def Exp.tested : Exp → Bool
  | .setLocalVar noPop v _ => noPop && v.upCount = 0
  | .setProperty noPop .. => noPop
  | .setEnvVar .. | .params _ | .codeList _ | .popValue _ => false
  | _ => true

/-- The expressions the passes before leave, with the values each one is asked for.  Two more are left out: an assignment
to a local as the second operand of an operator, and a condition whose register does not have its value. -/
inductive WellFormed : Exp → Prop where
  | const c : WellFormed (.const c)
  | getThis : WellFormed .getThis
  | getLocalVar {v} (hv : v.Valid f) : WellFormed (.getLocalVar v)
  | setLocalVar {noPop v e} (hv : v.Valid f) (he : WellFormed e) (hret : 1 ≤ e.retValues)
    (hone : noPop = true → e.retValues = 1) : WellFormed (.setLocalVar noPop v e)
  | getEnvVar name : WellFormed (.getEnvVar name)
  | setEnvVar {noPop name e} (he : WellFormed e) (hret : 1 ≤ e.retValues) (hone : noPop = true → e.retValues = 1) :
    WellFormed (.setEnvVar noPop name e)
  | getProperty {obj index} (hobj : WellFormed obj) (hindex : WellFormed index) (hobj1 : obj.retValues = 1)
    (hindex1 : index.retValues = 1) : WellFormed (.getProperty obj index)
  | setProperty {noPop value obj index} (hvalue : WellFormed value) (hobj : WellFormed obj) (hindex : WellFormed index)
    (hret : 1 ≤ value.retValues) (hone : noPop = true → value.retValues = 1) (hobj1 : obj.retValues = 1)
    (hindex1 : index.retValues = 1) : WellFormed (.setProperty noPop value obj index)
  | unary {op e} (he : WellFormed e) (he1 : e.retValues = 1) : WellFormed (.unary op e)
  | logicNot {e} (he : WellFormed e) (he1 : e.retValues = 1) : WellFormed (.logicNot e)
  | logicBool {e} (he : WellFormed e) (he1 : e.retValues = 1) : WellFormed (.logicBool e)
  | binary {op l r} (hl : WellFormed l) (hr : WellFormed r) (hl1 : l.retValues = 1) (hr1 : r.retValues = 1)
    (hkept : r.assignsLocal = false) : WellFormed (.binary op l r)
  | logic {op l r} (hl : WellFormed l) (hr : WellFormed r) (hl1 : l.retValues = 1) (hr1 : r.retValues = 1) :
    WellFormed (.logic op l r)
  | logicAnd {l r} (hl : WellFormed l) (hr : WellFormed r) (hl1 : l.retValues = 1) (hr1 : r.retValues = 1) :
    WellFormed (.logicAnd l r)
  | logicOr {l r} (hl : WellFormed l) (hr : WellFormed r) (hl1 : l.retValues = 1) (hr1 : r.retValues = 1) :
    WellFormed (.logicOr l r)
  | question {c l r} (hc : WellFormed c) (hl : WellFormed l) (hr : WellFormed r) (hc1 : c.retValues = 1)
    (hl1 : l.retValues = 1) (hr1 : r.retValues = 1) (htested : c.tested = true) : WellFormed (.question c l r)
  | incDecLocal {kind one ret v} (hv : v.Valid f) : WellFormed (.incDec kind one ret (.getLocalVar v))
  | incDecEnv {kind one ret name} : WellFormed (.incDec kind one ret (.getEnvVar name))
  | incDecMember {kind one ret obj index} (hobj : WellFormed obj) (hindex : WellFormed index) (hobj1 : obj.retValues = 1)
    (hindex1 : index.retValues = 1) : WellFormed (.incDec kind one ret (.getProperty obj index))
  | opAssignLocal {op noPop v e} (hv : v.Valid f) (he : WellFormed e) (he1 : e.retValues = 1) :
    WellFormed (.opAssign op (.setLocalVar noPop v e))
  | opAssignEnv {op noPop name e} (he : WellFormed e) (he1 : e.retValues = 1) :
    WellFormed (.opAssign op (.setEnvVar noPop name e))
  | opAssignMember {op noPop value obj index} (hvalue : WellFormed value) (hobj : WellFormed obj) (hindex : WellFormed index)
    (hvalue1 : value.retValues = 1) (hobj1 : obj.retValues = 1) (hindex1 : index.retValues = 1) :
    WellFormed (.opAssign op (.setProperty noPop value obj index))
  | call {kind e ps ret} (he : WellFormed e) (hps : ∀ p ∈ ps, WellFormed p) : WellFormed (.call kind e ps ret)
  | concat {name l r} (hl : WellFormed l) (hr : WellFormed r) (hl1 : l.retValues = 1) (hr1 : r.retValues = 1) :
    WellFormed (.concat name l r)
  | methodOp {name l r ret} (hl : WellFormed l) (hr : WellFormed r) (hl1 : l.retValues = 1) (hr1 : r.retValues = 1) :
    WellFormed (.methodOp name l r ret)
  | length {name e} (he : WellFormed e) (he1 : e.retValues = 1) : WellFormed (.length name e)
  | params {es} (hes : ∀ e ∈ es, WellFormed e) : WellFormed (.params es)
  | codeList {es} (hes : ∀ e ∈ es, WellFormed e) (hempty : ∀ e ∈ es.dropLast, e.retValues = 0) : WellFormed (.codeList es)
  | popValue {e} (he : WellFormed e) (hret : 1 ≤ e.retValues) : WellFormed (.popValue e)

end

end NewVM
end Compiler
end ObjectScript
