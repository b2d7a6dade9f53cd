import Mathlib.Tactic.Common
import Mathlib.Logic.Function.Basic
import ObjectScript.Core.Value
/-!
# Calls

`callFT` calls what is on the stack at `start` with the arguments behind it and leaves the results in its place.  A
function of the script runs in a frame over its arguments, a native one behind them; both may push, call and write
variables that closures have captured from frames below.

`Runs` follows the code along a call, with all calls inside it.  What is written at or above the capacity of the stack
sets `overrun`, and a native function that is asked for more results than the stack has room for sets `crowded`, as
nothing is reserved for the ones that are missing.
-/
namespace ObjectScript
namespace Vm
namespace Calls

open ObjectScript.Core

variable {N : Type*}

structure Stack (N : Type*) where
  values : Nat → Value N
  count : Nat
  capacity : Nat
  overrun : Bool
  crowded : Bool

namespace Stack

variable (s : Stack N)

/-- `growStackValues` keeps the values below the count; what is above is whatever `malloc` gives. -/
def grow (junk : Nat → Value N) (newCapacity : Nat) : Stack N :=
  let capacity := (s.capacity * 2 + 16) / 16 * 16
  { s with
    values := fun i => if i < s.count then s.values i else junk i
    capacity := if capacity < newCapacity then (newCapacity + 16) / 16 * 16 else capacity }

def reserveStackValues (junk : Nat → Value N) (newCapacity : Nat) : Stack N :=
  if s.capacity < newCapacity then s.grow junk newCapacity else s

/-- `n` values are written from `pos` on. -/
def write (pos n : Nat) (f : Nat → Value N) : Stack N :=
  { s with
    values := fun i => if pos ≤ i ∧ i < pos + n then f i else s.values i
    overrun := s.overrun || (decide (0 < n) && decide (s.capacity < pos + n)) }

def set (i : Nat) (v : Value N) : Stack N := s.write i 1 fun _ => v

/-- `OS_SET_NULL_VALUES` -/
def setNullValues (pos n : Nat) : Stack N := s.write pos n fun _ => .null

/-- `OS_MEMMOVE` -/
def move (dst src n : Nat) : Stack N := s.write dst n fun i => s.values (src + (i - dst))

def setCount (n : Nat) : Stack N := { s with count := n }

/-- `pushValue` -/
def push (junk : Nat → Value N) (v : Value N) : Stack N :=
  ((s.reserveStackValues junk (s.count + 1)).set s.count v).setCount (s.count + 1)

/-- The results of a call: `OP_RETURN` and the end of a native call. -/
def putResults (start src curRetValues retValues : Nat) : Stack N :=
  if retValues = 1 then
    if 0 < curRetValues then s.set start (s.values src) else s.set start .null
  else if 0 < retValues then
    if retValues ≤ curRetValues then s.move start src retValues
    else
      ((if 0 < curRetValues then s.move start src curRetValues else s).setNullValues (start + curRetValues)
        (retValues - curRetValues))
  else s

def restore (callerStackSize : Nat) : Stack N :=
  (s.setNullValues s.count (callerStackSize - s.count)).setCount callerStackSize

end Stack

/-- What a call needs of a function: `func`, `this` and the arguments are its first locals, then `_E` and `_G`. -/
structure FunctionDecl where
  numParams : Nat
  stackSize : Nat
  two_le : 2 ≤ numParams
  size : numParams + 2 ≤ stackSize

inductive Callee (N : Type*) where
  | function (d : FunctionDecl) (self env globals : Value N)
  | cfunction (closureValues : List (Value N))
  /-- A class or an instance. -/
  | object
  /-- Null or a value that cannot be called. -/
  | other

namespace Stack

def enterFunction (s : Stack N) (junk : Nat → Value N) (d : FunctionDecl) (self env globals rest : Value N)
    (start callParams retValues : Nat) (overwriteThis : Bool) : Stack N :=
  let s := s.reserveStackValues junk (start + (if retValues < d.stackSize then d.stackSize else retValues))
  -- the extra arguments go into an array, which is on the stack for a moment
  let s := if d.numParams < callParams then (s.push junk rest).setCount s.count else s
  let params := if d.numParams < callParams then d.numParams else callParams
  let s := s.setNullValues (start + params) (d.stackSize - params)
  let s := s.setCount (start + d.stackSize)
  let s := if overwriteThis then s.set (start + 1) self else s
  (s.set (start + d.numParams) env).set (start + d.numParams + 1) globals

/-- The closure values of a native function go behind its arguments. -/
def enterCFunction (s : Stack N) (junk : Nat → Value N) (closureValues : List (Value N)) (start callParams : Nat) : Stack N :=
  let s := if closureValues = [] then s
    else (s.reserveStackValues junk (start + callParams + closureValues.length)).write (start + callParams) closureValues.length
      fun i => (closureValues[i - (start + callParams)]?).getD .null
  s.setCount (start + callParams + closureValues.length)

/-- `n` values from `pos` on. -/
def slice (s : Stack N) (pos n : Nat) : List (Value N) := (List.range n).map fun i => s.values (pos + i)

end Stack

inductive Task (N : Type*) where
  /-- What code does whose part of the stack begins at `base`. -/
  | code (base : Nat)
  /-- `callFT`, with the values that the callee returns. -/
  | callFT (start callParams retValues : Nat) (returned : List (Value N))

/-- **The runs of code and of calls.**  `callee` says what a value is, and `captured` which places belong to variables that
closures of functions below may write. -/
inductive Runs (callee : Value N → Callee N) (captured : Nat → Prop) : Task N → Stack N → Stack N → Prop where
  | done {base s} : Runs callee captured (.code base) s s
  | write {base s t i v} (hb : base ≤ i) (hi : i < s.count) (h : Runs callee captured (.code base) (s.set i v) t) :
      Runs callee captured (.code base) s t
  | setUpvalue {base s t i v} (hc : captured i) (hi : i < s.count) (h : Runs callee captured (.code base) (s.set i v) t) :
      Runs callee captured (.code base) s t
  | push {base s t junk v} (h : Runs callee captured (.code base) (s.push junk v) t) : Runs callee captured (.code base) s t
  | pop {base s t n} (hb : base ≤ n) (hn : n ≤ s.count) (h : Runs callee captured (.code base) (s.setCount n) t) :
      Runs callee captured (.code base) s t
  /-- A call by an instruction, whose results are in the frame. -/
  | call {base s u t start callParams retValues returned} (hb : base ≤ start) (hp : 2 ≤ callParams)
      (hn : start + callParams ≤ s.count) (h : Runs callee captured (.callFT start callParams retValues returned) s u)
      (ht : Runs callee captured (.code base) u t) : Runs callee captured (.code base) s t
  /-- A call of native code, with its results on top. -/
  | nativeCall {base s u t start callParams retValues returned} (hb : base ≤ start) (hp : 2 ≤ callParams)
      (hn : start + callParams = s.count) (h : Runs callee captured (.callFT start callParams retValues returned) s u)
      (ht : Runs callee captured (.code base) (u.setCount (start + retValues)) t) :
      Runs callee captured (.code base) s t
  /-- Nothing is called: the core is terminated, the call stack is full, or the value cannot be called.  Before a full call
  stack is noticed there is room reserved for the frame.  Setting the exception runs code behind what is on the stack. -/
  | none {start callParams retValues s u junk reserved junk'}
      (h : Runs callee captured (.code s.count) (s.reserveStackValues junk reserved) u) (hu : u.count = s.count) :
      Runs callee captured (.callFT start callParams retValues []) s
        ((u.reserveStackValues junk' (start + retValues)).setNullValues start retValues)
  /-- A function that returns `b` values from its register `a` on; none when an exception leaves it. -/
  | function {start callParams retValues s u junk d self env globals rest overwriteThis a b}
      (hc : callee (s.values start) = .function d self env globals)
      (h : Runs callee captured (.code start) (s.enterFunction junk d self env globals rest start callParams retValues overwriteThis) u)
      (hu : u.count = start + d.stackSize) (hab : a + b ≤ d.stackSize) :
      Runs callee captured (.callFT start callParams retValues (u.slice (start + a) b)) s
        ((u.putResults start (start + a) b retValues).restore s.count)
  | cfunction {start callParams retValues s u junk closureValues k} (hc : callee (s.values start) = .cfunction closureValues)
      (h : Runs callee captured (.code start) (s.enterCFunction junk closureValues start callParams) u) (hk : start + k ≤ u.count) :
      Runs callee captured (.callFT start callParams retValues (u.slice (u.count - k) k)) s
        { (u.putResults start (u.count - k) k retValues).restore s.count with
          crowded := u.crowded || decide (u.capacity < start + retValues) }
  /-- `__newinstance` of a class, or `__callinstance` of an instance, is called with the object as `this`. -/
  | object {start callParams retValues s u t method object returned} (hc : callee (s.values start) = .object)
      (h : Runs callee captured (.code s.count) s u) (hu : u.count = s.count)
      (ht : Runs callee captured (.callFT start callParams retValues returned) ((u.set start method).set (start + 1) object) t) :
      Runs callee captured (.callFT start callParams retValues returned) s t

/-! ## What a step of a call keeps -/

variable {s t u : Stack N} {captured : Nat → Prop} {below : Nat}

/-- As long as no call was crowded, the count is within the capacity, and so is everything that was written. -/
def Fine (s : Stack N) : Prop := s.crowded = false → s.count ≤ s.capacity ∧ s.overrun = false

/-- **What is below stays**, but for captured variables, and the stack does not shrink. -/
structure Kept (captured : Nat → Prop) (below : Nat) (s t : Stack N) : Prop where
  values : ∀ i, i < below → ¬ captured i → t.values i = s.values i
  capacity : s.capacity ≤ t.capacity
  crowded : t.crowded = false → s.crowded = false

theorem Kept.refl (captured : Nat → Prop) (below : Nat) (s : Stack N) : Kept captured below s s :=
  ⟨fun _ _ _ => rfl, Nat.le_refl _, id⟩

theorem Kept.trans (h : Kept captured below s t) (h' : Kept captured below t u) : Kept captured below s u :=
  ⟨fun i hi hc => (h'.values i hi hc).trans (h.values i hi hc), Nat.le_trans h.capacity h'.capacity,
    fun hu => h.crowded (h'.crowded hu)⟩

theorem Kept.mono {least : Nat} (h : Kept captured below s t) (hle : least ≤ below) : Kept captured least s t :=
  ⟨fun i hi hc => h.values i (Nat.lt_of_lt_of_le hi hle) hc, h.capacity, h.crowded⟩

theorem write_values {pos n i : Nat} {f : Nat → Value N} (hi : i < pos ∨ pos + n ≤ i) : (s.write pos n f).values i = s.values i := by
  refine if_neg fun h => ?_
  omega

theorem write_values_self {pos n i : Nat} {f : Nat → Value N} (hi : pos ≤ i ∧ i < pos + n) : (s.write pos n f).values i = f i :=
  if_pos hi

theorem Kept.write {pos n : Nat} {f : Nat → Value N} (hb : below ≤ pos) : Kept captured below s (s.write pos n f) :=
  ⟨fun _ hi _ => write_values (.inl (Nat.lt_of_lt_of_le hi hb)), Nat.le_refl _, id⟩

theorem Fine.write {pos n : Nat} {f : Nat → Value N} (h : Fine s) (hn : s.crowded = false → pos + n ≤ s.capacity) :
    Fine (s.write pos n f) := by
  intro hc
  obtain ⟨hcount, hover⟩ := h hc
  refine ⟨hcount, ?_⟩
  have hle := hn hc
  show (s.overrun || (decide (0 < n) && decide (s.capacity < pos + n))) = false
  rw [hover, decide_eq_false (Nat.not_lt_of_le hle), Bool.and_false]
  rfl

theorem Kept.setCount (n : Nat) : Kept captured below s (s.setCount n) := ⟨fun _ _ _ => rfl, Nat.le_refl _, id⟩

theorem Fine.setCount {n : Nat} (h : Fine s) (hn : s.crowded = false → n ≤ s.capacity) : Fine (s.setCount n) :=
  fun hc => ⟨hn hc, (h hc).2⟩

theorem le_grow (s : Stack N) (junk : Nat → Value N) (n : Nat) : n ≤ (s.grow junk n).capacity := by
  have hgrow : (s.grow junk n).capacity =
      if (s.capacity * 2 + 16) / 16 * 16 < n then (n + 16) / 16 * 16 else (s.capacity * 2 + 16) / 16 * 16 := rfl
  rw [hgrow]
  split <;> omega

theorem reserve_le (s : Stack N) (junk : Nat → Value N) (n : Nat) : n ≤ (s.reserveStackValues junk n).capacity := by
  unfold Stack.reserveStackValues
  split
  · exact le_grow s junk n
  · omega

theorem reserve_count (s : Stack N) (junk : Nat → Value N) (n : Nat) : (s.reserveStackValues junk n).count = s.count := by
  unfold Stack.reserveStackValues
  split <;> rfl

theorem Kept.reserve {junk : Nat → Value N} {n : Nat} (hb : below ≤ s.count) : Kept captured below s (s.reserveStackValues junk n) := by
  have hle := reserve_le s junk n
  unfold Stack.reserveStackValues at hle ⊢
  split
  · rename_i hlt
    rw [if_pos hlt] at hle
    exact ⟨fun i hi _ => if_pos (Nat.lt_of_lt_of_le hi hb), Nat.le_trans (Nat.le_of_lt hlt) hle, id⟩
  · exact .refl _ _ _

theorem Fine.reserve {junk : Nat → Value N} {n : Nat} (h : Fine s) : Fine (s.reserveStackValues junk n) := by
  intro hc
  have hk : Kept (fun _ => False) 0 s (s.reserveStackValues junk n) := .reserve (Nat.zero_le _)
  obtain ⟨hcount, hover⟩ := h (hk.crowded hc)
  refine ⟨?_, ?_⟩
  · rw [reserve_count]
    exact Nat.le_trans hcount hk.capacity
  · unfold Stack.reserveStackValues
    split
    · exact hover
    · exact hover

theorem Kept.push {junk : Nat → Value N} {v : Value N} (hb : below ≤ s.count) : Kept captured below s (s.push junk v) :=
  ((Kept.reserve hb).trans (.write hb)).trans (.setCount _)

theorem Fine.push {junk : Nat → Value N} {v : Value N} (h : Fine s) : Fine (s.push junk v) :=
  (h.reserve.write fun _ => reserve_le s junk (s.count + 1)).setCount
    fun _ => reserve_le s junk (s.count + 1)

/-! ## Results -/

theorem putResults_values {start src cur ret i : Nat} (hi : i < ret) :
    (s.putResults start src cur ret).values (start + i) = if i < cur then s.values (src + i) else .null := by
  unfold Stack.putResults
  split
  · have hzero : i = 0 := by omega
    rw [hzero]
    split
    · exact write_values_self ⟨Nat.le_refl _, Nat.lt_succ_self _⟩
    · exact write_values_self ⟨Nat.le_refl _, Nat.lt_succ_self _⟩
  · rw [if_pos (by omega)]
    have hsub : src + (start + i - start) = src + i := by omega
    split
    · rw [if_pos (by omega)]
      refine (write_values_self ⟨by omega, by omega⟩).trans ?_
      rw [hsub]
    · by_cases hcur : i < cur
      · rw [if_pos hcur, if_pos (by omega)]
        refine (write_values (.inl (by omega))).trans ((write_values_self ⟨by omega, by omega⟩).trans ?_)
        rw [hsub]
      · rw [if_neg hcur]
        exact write_values_self ⟨by omega, by omega⟩

theorem Kept.putResults {start src cur ret : Nat} (hb : below ≤ start) : Kept captured below s (s.putResults start src cur ret) := by
  unfold Stack.putResults
  split
  · split
    · exact .write hb
    · exact .write hb
  · split
    · split
      · exact .write hb
      · split
        · exact (Kept.write hb).trans (.write (by omega))
        · exact .write (by omega)
    · exact .refl _ _ _

theorem putResults_frame (s : Stack N) (start src cur ret : Nat) : (s.putResults start src cur ret).count = s.count ∧
    (s.putResults start src cur ret).capacity = s.capacity ∧ (s.putResults start src cur ret).crowded = s.crowded := by
  unfold Stack.putResults
  split
  · split
    · exact ⟨rfl, rfl, rfl⟩
    · exact ⟨rfl, rfl, rfl⟩
  · split
    · split
      · exact ⟨rfl, rfl, rfl⟩
      · split
        · exact ⟨rfl, rfl, rfl⟩
        · exact ⟨rfl, rfl, rfl⟩
    · exact ⟨rfl, rfl, rfl⟩

theorem Fine.putResults {start src cur ret : Nat} (h : Fine s) (hn : s.crowded = false → start + ret ≤ s.capacity) :
    Fine (s.putResults start src cur ret) := by
  unfold Stack.putResults
  split
  · rename_i hone
    rw [hone] at hn
    split
    · exact h.write hn
    · exact h.write hn
  · split
    · split
      · exact h.write hn
      · rename_i hlt
        have hlast : s.crowded = false → start + cur + (ret - cur) ≤ s.capacity := fun hc => by
          have hle := hn hc
          omega
        have hfirst : s.crowded = false → start + cur ≤ s.capacity := fun hc => by
          have hle := hn hc
          omega
        split
        · exact (h.write hfirst).write hlast
        · exact h.write hlast
    · exact h

theorem slice_getD {pos n i : Nat} : ((s.slice pos n)[i]?).getD .null = if i < n then s.values (pos + i) else .null := by
  unfold Stack.slice
  by_cases hi : i < n
  · rw [List.getElem?_map, List.getElem?_range hi, if_pos hi]
    rfl
  · rw [if_neg hi, List.getElem?_eq_none (by rw [List.length_map, List.length_range]; omega)]
    rfl

/-! ## Frames -/

theorem push_setCount {junk : Nat → Value N} {v : Value N} (hb : below ≤ s.count) :
    Kept captured below s ((s.push junk v).setCount s.count) ∧ (Fine s → Fine ((s.push junk v).setCount s.count)) := by
  refine ⟨(Kept.push hb).trans (.setCount _), fun h => h.push.setCount fun hc => ?_⟩
  have hle := (h.push hc).1
  have hcount : (s.push junk v).count = s.count + 1 := rfl
  omega

theorem enterFunction_spec {junk : Nat → Value N} {d : FunctionDecl} {self env globals rest : Value N}
    {start callParams retValues : Nat} {overwriteThis : Bool} (hn : start ≤ s.count) :
    Kept captured start s (s.enterFunction junk d self env globals rest start callParams retValues overwriteThis) ∧
      (s.enterFunction junk d self env globals rest start callParams retValues overwriteThis).count = start + d.stackSize ∧
      (Fine s → Fine (s.enterFunction junk d self env globals rest start callParams retValues overwriteThis)) ∧
      start + retValues ≤ (s.enterFunction junk d self env globals rest start callParams retValues overwriteThis).capacity := by
  have htwo := d.two_le
  have hsize := d.size
  unfold Stack.enterFunction
  dsimp only
  have hk₁ : Kept captured start s
      (s.reserveStackValues junk (start + (if retValues < d.stackSize then d.stackSize else retValues))) := .reserve hn
  have hf₁ : Fine s → Fine (s.reserveStackValues junk (start + (if retValues < d.stackSize then d.stackSize else retValues))) :=
    Fine.reserve
  have hcap₁ := reserve_le s junk (start + (if retValues < d.stackSize then d.stackSize else retValues))
  have hcount₁ := reserve_count s junk (start + (if retValues < d.stackSize then d.stackSize else retValues))
  generalize s.reserveStackValues junk (start + (if retValues < d.stackSize then d.stackSize else retValues)) = s₁
    at hk₁ hf₁ hcap₁ hcount₁ ⊢
  have hframe : start + d.stackSize ≤ s₁.capacity ∧ start + retValues ≤ s₁.capacity := by
    split at hcap₁ <;> omega
  have hpush : Kept captured start s₁ (if d.numParams < callParams then (s₁.push junk rest).setCount s₁.count else s₁) ∧
      (Fine s₁ → Fine (if d.numParams < callParams then (s₁.push junk rest).setCount s₁.count else s₁)) := by
    split
    · exact push_setCount (by omega)
    · exact ⟨.refl _ _ _, id⟩
  generalize (if d.numParams < callParams then (s₁.push junk rest).setCount s₁.count else s₁) = s₂ at hpush ⊢
  obtain ⟨hk₂, hf₂⟩ := hpush
  have hcap₂ := hk₂.capacity
  have hparams : (if d.numParams < callParams then d.numParams else callParams) ≤ d.numParams := by
    split <;> omega
  generalize (if d.numParams < callParams then d.numParams else callParams) = params at hparams ⊢
  have hk₃ : Kept captured start s₂ ((s₂.setNullValues (start + params) (d.stackSize - params)).setCount (start + d.stackSize)) :=
    (Kept.write (Nat.le_add_right _ _)).trans (.setCount _)
  have hf₃ : Fine s₂ → Fine ((s₂.setNullValues (start + params) (d.stackSize - params)).setCount (start + d.stackSize)) := by
    refine fun h => Fine.setCount (h.write fun _ => ?_) fun _ => ?_
    · omega
    · show start + d.stackSize ≤ s₂.capacity
      omega
  have hcap₃ : ((s₂.setNullValues (start + params) (d.stackSize - params)).setCount (start + d.stackSize)).capacity = s₂.capacity := rfl
  have hcount₃ : ((s₂.setNullValues (start + params) (d.stackSize - params)).setCount (start + d.stackSize)).count =
      start + d.stackSize := rfl
  generalize (s₂.setNullValues (start + params) (d.stackSize - params)).setCount (start + d.stackSize) = s₃ at hk₃ hf₃ hcap₃ hcount₃ ⊢
  have hthis : Kept captured start s₃ (if overwriteThis then s₃.set (start + 1) self else s₃) ∧
      (Fine s₃ → Fine (if overwriteThis then s₃.set (start + 1) self else s₃)) ∧
      (if overwriteThis then s₃.set (start + 1) self else s₃).capacity = s₃.capacity ∧
      (if overwriteThis then s₃.set (start + 1) self else s₃).count = s₃.count := by
    split
    · exact ⟨.write (by omega), fun h => h.write fun _ => by omega, rfl, rfl⟩
    · exact ⟨.refl _ _ _, id, rfl, rfl⟩
  generalize (if overwriteThis then s₃.set (start + 1) self else s₃) = s₄ at hthis ⊢
  obtain ⟨hk₄, hf₄, hcap₄, hcount₄⟩ := hthis
  have hk₅ : Kept captured start s₄ ((s₄.set (start + d.numParams) env).set (start + d.numParams + 1) globals) :=
    (Kept.write (by omega)).trans (.write (by omega))
  have hf₅ : Fine s₄ → Fine ((s₄.set (start + d.numParams) env).set (start + d.numParams + 1) globals) := by
    refine fun h => Fine.write (h.write fun _ => ?_) fun _ => ?_
    · omega
    · show start + d.numParams + 1 + 1 ≤ s₄.capacity
      omega
  refine ⟨hk₁.trans (hk₂.trans (hk₃.trans (hk₄.trans hk₅))), ?_, fun h => hf₅ (hf₄ (hf₃ (hf₂ (hf₁ h)))), ?_⟩
  · exact hcount₄.trans hcount₃
  · show start + retValues ≤ s₄.capacity
    omega

theorem enterCFunction_spec {junk : Nat → Value N} {closureValues : List (Value N)} {start callParams : Nat}
    (hn : start + callParams ≤ s.count) :
    Kept captured start s (s.enterCFunction junk closureValues start callParams) ∧
      start ≤ (s.enterCFunction junk closureValues start callParams).count ∧
      (Fine s → Fine (s.enterCFunction junk closureValues start callParams)) := by
  unfold Stack.enterCFunction
  dsimp only
  split
  · rename_i hnil
    refine ⟨.setCount _, ?_, fun h => h.setCount fun hc => ?_⟩
    · show start ≤ start + callParams + closureValues.length
      omega
    · have hle := (h hc).1
      rw [hnil, List.length_nil]
      omega
  · have hcap := reserve_le s junk (start + callParams + closureValues.length)
    refine ⟨((Kept.reserve (by omega)).trans (.write (by omega))).trans (.setCount _), ?_, fun h => ?_⟩
    · show start ≤ start + callParams + closureValues.length
      omega
    · exact (h.reserve.write fun _ => hcap).setCount fun _ => hcap

theorem Kept.restore {n : Nat} (hb : below ≤ s.count) : Kept captured below s (s.restore n) := (Kept.write hb).trans (.setCount _)

theorem Fine.restore {n : Nat} (h : Fine s) (hn : s.crowded = false → n ≤ s.capacity) : Fine (s.restore n) := by
  refine Fine.setCount (h.write fun hc => ?_) hn
  have h1 := hn hc
  have h2 := (h hc).1
  omega

/-- What a callee has returned stays when its caller gets the stack back. -/
theorem results {start src cur ret n i : Nat} (hi : i < ret) (hcur : start + cur ≤ s.count) :
    ((s.putResults start src cur ret).restore n).values (start + i) = if i < cur then s.values (src + i) else .null := by
  obtain ⟨hcount, -, -⟩ := putResults_frame s start src cur ret
  have hput : (s.putResults start src cur ret).values (start + i) = if i < cur then s.values (src + i) else .null :=
    putResults_values hi
  show ((s.putResults start src cur ret).write (s.putResults start src cur ret).count
    (n - (s.putResults start src cur ret).count) fun _ => .null).values (start + i) = _
  rw [hcount]
  by_cases hin : s.count ≤ start + i ∧ start + i < s.count + (n - s.count)
  · rw [if_neg (by omega)]
    exact write_values_self hin
  · exact (write_values (by omega)).trans hput

/-! ## Calls -/

def Task.Spec (captured : Nat → Prop) : Task N → Stack N → Stack N → Prop
  | .code base, s, t => base ≤ s.count → Kept captured base s t ∧ base ≤ t.count ∧ (Fine s → Fine t)
  | .callFT start callParams ret returned, s, t => 2 ≤ callParams → start + callParams ≤ s.count →
    Kept captured start s t ∧ t.count = s.count ∧ (Fine s → Fine t) ∧
      (∀ i, i < ret → t.values (start + i) = (returned[i]?).getD .null) ∧ (t.crowded = false → start + ret ≤ t.capacity)

theorem Runs.spec {callee : Value N → Callee N} {task : Task N} (h : Runs callee captured task s t) : task.Spec captured s t := by
  induction h with
  | done => exact fun hb => ⟨.refl _ _ _, hb, id⟩
  | @write base s t i v hb hi h ih =>
    intro hbase
    obtain ⟨hk, hcount, hf⟩ := ih hbase
    exact ⟨(Kept.write hb).trans hk, hcount, fun hs => hf (hs.write fun hc => Nat.le_trans hi (hs hc).1)⟩
  | @setUpvalue base s t i v hc hi h ih =>
    intro hbase
    obtain ⟨hk, hcount, hf⟩ := ih hbase
    have hset : Kept captured base s (s.set i v) := by
      refine ⟨fun j _ hj => write_values ?_, Nat.le_refl _, id⟩
      have hne : j ≠ i := by
        rintro rfl
        exact hj hc
      omega
    exact ⟨hset.trans hk, hcount, fun hs => hf (hs.write fun hcr => Nat.le_trans hi (hs hcr).1)⟩
  | @push base s t junk v h ih =>
    intro hbase
    obtain ⟨hk, hcount, hf⟩ := ih (Nat.le_succ_of_le hbase)
    exact ⟨(Kept.push hbase).trans hk, hcount, fun hs => hf hs.push⟩
  | @pop base s t n hb hn h ih =>
    intro _
    obtain ⟨hk, hcount, hf⟩ := ih hb
    exact ⟨(Kept.setCount n).trans hk, hcount, fun hs => hf (hs.setCount fun hc => Nat.le_trans hn (hs hc).1)⟩
  | @call base s u t start callParams retValues returned hb hp hn h ht ih iht =>
    intro hbase
    obtain ⟨hk, hcount, hf, -, -⟩ := ih hp hn
    obtain ⟨hk', hcount', hf'⟩ := iht (hcount ▸ hbase)
    exact ⟨(hk.mono hb).trans hk', hcount', fun hs => hf' (hf hs)⟩
  | @nativeCall base s u t start callParams retValues returned hb hp hn h ht ih iht =>
    intro hbase
    obtain ⟨hk, hcount, hf, -, hcap⟩ := ih hp (Nat.le_of_eq hn)
    obtain ⟨hk', hcount', hf'⟩ := iht (Nat.le_trans hb (Nat.le_add_right _ _))
    exact ⟨((hk.mono hb).trans (.setCount _)).trans hk', hcount', fun hs => hf' ((hf hs).setCount hcap)⟩
  | @none start callParams retValues s u junk reserved junk' h hu ih =>
    intro hp hn
    obtain ⟨hk, -, hf⟩ := ih (Nat.le_of_eq (reserve_count s junk reserved).symm)
    have hcap := reserve_le u junk' (start + retValues)
    have hstart : start ≤ s.count := by omega
    have hbelow : Kept captured start s u := (Kept.reserve hstart).trans (hk.mono hstart)
    refine ⟨hbelow.trans ((Kept.reserve (by omega)).trans (.write (Nat.le_refl _))), ?_, fun hs => ?_, fun i hi => ?_, fun _ => hcap⟩
    · show (u.reserveStackValues junk' _).count = s.count
      rw [reserve_count, hu]
    · exact (hf hs.reserve).reserve.write fun _ => hcap
    · rw [List.getElem?_nil]
      exact write_values_self ⟨by omega, by omega⟩
  | @function start callParams retValues s u junk d self env globals rest overwriteThis a b hc h hu hab ih =>
    intro hp hn
    obtain ⟨hk₁, hcount₁, hf₁, hcap₁⟩ :
        Kept captured start s (s.enterFunction junk d self env globals rest start callParams retValues overwriteThis) ∧ _ ∧ _ ∧ _ :=
      enterFunction_spec (by omega)
    obtain ⟨hk₂, hcount₂, hf₂⟩ := ih (by omega)
    obtain ⟨hcount₃, hcap₃, hcrowded₃⟩ := putResults_frame u start (start + a) b retValues
    have hcap₂ := hk₂.capacity
    have hcap₀ := hk₁.capacity
    refine ⟨(hk₁.trans hk₂).trans ((Kept.putResults (Nat.le_refl _)).trans (.restore (by omega))), rfl, fun hs => ?_, fun i hi => ?_,
      fun _ => ?_⟩
    · refine Fine.restore ((hf₂ (hf₁ hs)).putResults fun _ => by omega) fun hcr => ?_
      rw [hcrowded₃] at hcr
      have hle := (hs (hk₁.crowded (hk₂.crowded hcr))).1
      omega
    · rw [slice_getD]
      exact results hi (by omega)
    · show start + retValues ≤ (u.putResults start (start + a) b retValues).capacity
      omega
  | @cfunction start callParams retValues s u junk closureValues k hc h hk ih =>
    intro hp hn
    obtain ⟨hk₁, hcount₁, hf₁⟩ : Kept captured start s (s.enterCFunction junk closureValues start callParams) ∧ _ ∧ _ :=
      enterCFunction_spec hn
    obtain ⟨hk₂, hcount₂, hf₂⟩ := ih hcount₁
    obtain ⟨hcount₃, hcap₃, hcrowded₃⟩ := putResults_frame u start (u.count - k) k retValues
    have hcap₂ := hk₂.capacity
    have hcap₀ := hk₁.capacity
    have hput : Kept captured start u ((u.putResults start (u.count - k) k retValues).restore s.count) :=
      (Kept.putResults (Nat.le_refl _)).trans (.restore (by omega))
    refine ⟨(hk₁.trans hk₂).trans ⟨hput.values, hput.capacity, fun hcr => ?_⟩, rfl, fun hs hcr => ?_, fun i hi => ?_, fun hcr => ?_⟩
    · exact (Bool.or_eq_false_iff.1 hcr).1
    · obtain ⟨hcr₁, hcr₂⟩ := Bool.or_eq_false_iff.1 hcr
      have hroom := of_decide_eq_false hcr₂
      have hfine : Fine ((u.putResults start (u.count - k) k retValues).restore s.count) := by
        refine Fine.restore ((hf₂ (hf₁ hs)).putResults fun _ => by omega) fun hcr => ?_
        rw [hcrowded₃] at hcr
        have hle := (hs (hk₁.crowded (hk₂.crowded hcr))).1
        omega
      exact hfine (hcrowded₃.trans hcr₁)
    · rw [slice_getD]
      exact results hi (by omega)
    · obtain ⟨-, hcr₂⟩ := Bool.or_eq_false_iff.1 hcr
      have hroom := of_decide_eq_false hcr₂
      show start + retValues ≤ (u.putResults start (u.count - k) k retValues).capacity
      omega
  | @object start callParams retValues s u t method object returned hc h hu ht ih iht =>
    intro hp hn
    obtain ⟨hk₁, -, hf₁⟩ := ih (Nat.le_refl _)
    have hstart : start ≤ s.count := by omega
    have hset : Kept captured start u ((u.set start method).set (start + 1) object) :=
      (Kept.write (Nat.le_refl _)).trans (.write (Nat.le_succ _))
    have hfset : Fine u → Fine ((u.set start method).set (start + 1) object) := by
      refine fun hs => Fine.write (hs.write fun hcr => ?_) fun hcr => ?_
      · have hle := (hs hcr).1
        omega
      · have hle := (hs hcr).1
        show start + 1 + 1 ≤ u.capacity
        omega
    obtain ⟨hk₂, hcount₂, hf₂, hres, hcap⟩ := iht hp (by show start + callParams ≤ u.count; omega)
    exact ⟨(hk₁.mono hstart).trans (hset.trans hk₂), hcount₂.trans hu, fun hs => hf₂ (hfset (hf₁ hs)), hres, hcap⟩

/-- How native code makes a call: the callee under `this`, `this` under the callee, or no `this`. -/
inductive CallKind where
  | callFT | callTF | callF
deriving DecidableEq, Repr

/-- Where the callee and what belongs to the call begin. -/
def CallKind.start (kind : CallKind) (s : Stack N) (params : Nat) : Nat :=
  match kind with
  | .callF => s.count - (params + 1)
  | _ => s.count - (params + 2)

def CallKind.size (kind : CallKind) (params : Nat) : Nat :=
  match kind with
  | .callF => params + 1
  | _ => params + 2

/-- The stack with the callee, `this` and the arguments as `callFT` wants them. -/
def CallKind.prepare (kind : CallKind) (s : Stack N) (junk : Nat → Value N) (params : Nat) : Stack N :=
  let start := s.count - (params + 2)
  match kind with
  | .callFT => s
  | .callTF => (s.set start (s.values (start + 1))).set (start + 1) (s.values start)
  | .callF =>
    if 0 < params then
      let offs := s.count - params
      (((s.reserveStackValues junk (s.count + 1)).setCount (s.count + 1)).move (offs + 1) offs params).set offs .null
    else s.push junk .null

theorem prepare_spec {kind : CallKind} {junk : Nat → Value N} {params : Nat} (hn : kind.size params ≤ s.count) :
    Kept captured (kind.start s params) s (kind.prepare s junk params) ∧
      (kind.prepare s junk params).count = kind.start s params + (params + 2) ∧ (Fine s → Fine (kind.prepare s junk params)) := by
  cases kind with
  | callFT =>
    have hle : params + 2 ≤ s.count := hn
    refine ⟨.refl _ _ _, ?_, id⟩
    show s.count = s.count - (params + 2) + (params + 2)
    omega
  | callTF =>
    have hle : params + 2 ≤ s.count := hn
    refine ⟨(Kept.write (Nat.le_refl _)).trans (.write (Nat.le_succ _)), ?_, fun h => Fine.write (h.write fun hc => ?_) fun hc => ?_⟩
    · show s.count = s.count - (params + 2) + (params + 2)
      omega
    · have hroom := (h hc).1
      omega
    · have hroom := (h hc).1
      show s.count - (params + 2) + 1 + 1 ≤ s.capacity
      omega
  | callF =>
    have hle : params + 1 ≤ s.count := hn
    unfold CallKind.prepare CallKind.start
    dsimp only
    split
    · have hcap := reserve_le s junk (s.count + 1)
      refine ⟨(((Kept.reserve (Nat.sub_le _ _)).trans (.setCount _)).trans (.write (by omega))).trans (.write (by omega)), ?_, fun h => ?_⟩
      · show s.count + 1 = s.count - (params + 1) + (params + 2)
        omega
      · refine Fine.write (Fine.write (h.reserve.setCount fun _ => hcap) fun _ => ?_) fun _ => ?_
        · show s.count - params + 1 + params ≤ (s.reserveStackValues junk (s.count + 1)).capacity
          omega
        · show s.count - params + 1 ≤ (s.reserveStackValues junk (s.count + 1)).capacity
          omega
    · refine ⟨Kept.push (Nat.sub_le _ _), ?_, fun h => h.push⟩
      show s.count + 1 = s.count - (params + 1) + (params + 2)
      omega

theorem slice_eq {start ret : Nat} {returned : List (Value N)}
    (h : ∀ i, i < ret → s.values (start + i) = (returned[i]?).getD .null) :
    s.slice start ret = returned.take ret ++ List.replicate (ret - returned.length) .null := by
  refine List.ext_getElem? fun i => ?_
  have hlen : (returned.take ret).length = min ret returned.length := List.length_take
  by_cases hi : i < ret
  · rw [Stack.slice, List.getElem?_map, List.getElem?_range hi, Option.map_some, h i hi]
    by_cases hin : i < returned.length
    · rw [List.getElem?_append_left (by omega), List.getElem?_take_of_lt hi, List.getElem?_eq_getElem hin]
      rfl
    · rw [List.getElem?_append_right (by omega), List.getElem?_replicate, if_pos (by omega), List.getElem?_eq_none (by omega)]
      rfl
  · rw [List.getElem?_eq_none (by rw [Stack.slice, List.length_map, List.length_range]; omega), List.getElem?_eq_none]
    rw [List.length_append, List.length_replicate, hlen]
    omega

/-- **A call takes the callee and its arguments from the stack and leaves the results**: the first of the returned values,
then null.  What is below stays but for the variables that closures have captured, and nothing is written outside the
stack, unless a native function was asked for more results than there was room for. -/
theorem call_results {callee : Value N → Callee N} {kind : CallKind} {junk : Nat → Value N} {params ret : Nat}
    {returned : List (Value N)} (hn : kind.size params ≤ s.count) (hcap : s.count ≤ s.capacity) (hover : s.overrun = false)
    (h : Runs callee captured (.callFT (kind.start s params) (params + 2) ret returned) (kind.prepare s junk params) t) :
    (∀ i, i < kind.start s params → ¬ captured i → (t.setCount (kind.start s params + ret)).values i = s.values i) ∧
      (t.setCount (kind.start s params + ret)).slice (kind.start s params) ret =
        returned.take ret ++ List.replicate (ret - returned.length) .null ∧
      (t.crowded = false → kind.start s params + ret ≤ t.capacity ∧ t.overrun = false) := by
  obtain ⟨hk₁, hcount, hf₁⟩ : Kept captured _ s (kind.prepare s junk params) ∧ _ ∧ _ := prepare_spec hn
  obtain ⟨hk₂, -, hf₂, hres, hroom⟩ := h.spec (Nat.le_add_left 2 params) (Nat.le_of_eq hcount.symm)
  exact ⟨(hk₁.trans hk₂).values, slice_eq hres, fun hc => ⟨hroom hc, (hf₂ (hf₁ fun _ => ⟨hcap, hover⟩) hc).2⟩⟩

def setter : FunctionDecl := { numParams := 2, stackSize := 4, two_le := Nat.le_refl _, size := Nat.le_refl _ }

def setterCallee (v : Value Int) : Callee Int :=
  match v with
  | .gc .function _ => .function setter .null .null .null
  | _ => .other

/-- A local variable of the caller, and the function over it. -/
def overVariable : Stack Int where
  values i := if i = 0 then .number 1 else if i = 1 then .gc .function 1 else .null
  count := 3
  capacity := 16
  overrun := false
  crowded := false

def entered : Stack Int := overVariable.enterFunction (fun _ => .null) setter .null .null .null .null 1 2 2 false

/-- The function has assigned the variable and put what it returns into its fourth register. -/
def assigned : Stack Int := (entered.set 0 (.number 2)).set 4 (.number 7)

/-- What the call leaves, of which two results are asked for. -/
def afterCall : Stack Int := (assigned.putResults 1 4 1 2).restore 3

theorem overVariable_runs : Runs setterCallee (· = 0) (.callFT 1 2 2 [.number 7]) overVariable afterCall := by
  have hbody : Runs setterCallee (· = 0) (.code 1) entered assigned := by
    refine .setUpvalue (i := 0) (v := .number 2) rfl (by decide) ?_
    exact .write (i := 4) (v := .number 7) (by decide) (by decide) .done
  have hreturned : assigned.slice (1 + 3) 1 = [.number 7] := rfl
  have h := @Runs.function Int setterCallee (· = 0) 1 2 2 overVariable assigned (fun _ => .null) setter .null .null .null .null false
    3 1 rfl hbody rfl (by decide)
  rw [hreturned] at h
  exact h

theorem call_results_overVariable :
    (∀ i, i < 1 → ¬ i = 0 → (afterCall.setCount 3).values i = overVariable.values i) ∧
      (afterCall.setCount 3).slice 1 2 = [.number 7, .null] ∧
      (afterCall.crowded = false → 1 + 2 ≤ afterCall.capacity ∧ afterCall.overrun = false) :=
  @call_results Int overVariable afterCall (· = 0) setterCallee .callFT (fun _ => .null) 0 2 [.number 7] (by decide) (by decide)
    rfl overVariable_runs

/-- **A variable of the caller is below the callee, and changes.** -/
theorem variable_changed : ∃ t, Runs setterCallee (· = 0) (.callFT 1 2 2 [.number 7]) overVariable t ∧ t.values 0 = .number 2 ∧
    overVariable.values 0 = .number 1 := ⟨_, overVariable_runs, rfl, rfl⟩

end Calls
end Vm
end ObjectScript
