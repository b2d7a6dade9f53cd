import ObjectScript.Compiler.TryBlocks
import ObjectScript.Core.Value
/-!
# Exceptions

When an instruction has set an exception, `execute` looks at the frames of its own calls, the last one first: a frame
that has a try block for its position goes on at the catch block, and one without is left.  The frames of an outer
`execute` are left alone; it finds the exception still set when the native function that called this one returns.

A core is seen here with its frames, its stack and the locals that frames share with closures.  What an instruction
computes is left open: it may write anything to the stack.  `Reachable` gives the states between the instructions of a
run, and `exception_routed` says where an exception goes from any of them.
-/
namespace ObjectScript
namespace Vm

open ObjectScript.Core Compiler

variable {N : Type*}

structure FunctionDecl where
  code : Emission
  opcodesPos : Nat
  stackSize : Nat
  /-- `locals[i].upvalue` -/
  upvalue : List Bool
deriving DecidableEq, Repr

/-- The blocks that `addTryBlock` has left when the function was written. -/
def FunctionDecl.tryBlocks (d : FunctionDecl) : List TryBlock := (d.code.writeOpcodes (d.opcodesPos, [])).2

inductive LocalValues (N : Type*) where
  /-- In the stack (`is_stack_locals`). -/
  | stack
  | heap (values : List (Value N))
  | none

structure Locals (N : Type*) where
  refCount : Nat
  values : LocalValues N

structure StackFunction where
  func : FunctionDecl
  locals : Nat
  localsStackPos : Nat
  callerStackSize : Nat
  needRetValues : Nat
  /-- The position of the next instruction. -/
  opcodes : Nat
deriving DecidableEq, Repr

structure State (N : Type*) where
  stackValues : Nat → Value N
  stackCount : Nat
  /-- The last one first. -/
  callStackFuncs : List StackFunction
  locals : Nat → Option (Locals N)
  terminated : Bool
  terminatedException : Value N
  maxCallStack : Nat
  callStackOverflow : Bool
  /-- `ret_stack_funcs` of every `execute` that runs, the last one first. -/
  executes : List Nat

/-- The instruction that the frame executes is in the body of the `try` statement of this block, and of none inside it. -/
def StackFunction.InTry (f : StackFunction) (innermost : Option TryBlock) : Prop :=
  ∃ i, f.func.code.Executes f.func.opcodesPos i f.opcodes innermost

theorem StackFunction.InTry.find {f : StackFunction} {o : Option TryBlock} (h : f.InTry o) :
    findTryBlock f.func.tryBlocks f.opcodes = o := by
  obtain ⟨i, h⟩ := h
  rw [FunctionDecl.tryBlocks, Emission.writeOpcodes_eq, List.nil_append]
  exact h.find

namespace State

variable (s : State N)

/-! ## Leaving a function -/

/-- `OS_SET_NULL_VALUES` -/
def setNullValues (values : Nat → Value N) (pos n : Nat) : Nat → Value N :=
  fun i => if pos ≤ i ∧ i < pos + n then .null else values i

/-- What the locals of a frame keep of the stack. -/
def captured (f : StackFunction) : LocalValues N :=
  if f.func.upvalue.any id then
    .heap (f.func.upvalue.zipIdx.map fun p => if p.1 then s.stackValues (f.localsStackPos + p.2) else .null)
  else .none

/-- `clearStackFunction`, as far as the locals go. -/
def clearStackFunction (f : StackFunction) : State N :=
  match s.locals f.locals with
  | none => s
  | some loc =>
    let refCount := loc.refCount - 1
    { s with
      locals := Function.update s.locals f.locals
        (if 0 < refCount then some { refCount := refCount, values := s.captured f } else none) }

/-- A frame is left with null for each of its results. -/
def leaveFunction (f : StackFunction) (fs : List StackFunction) : State N :=
  let values := setNullValues s.stackValues f.localsStackPos f.needRetValues
  clearStackFunction
    { s with
      stackValues := setNullValues values s.stackCount (f.callerStackSize - s.stackCount)
      stackCount := f.callerStackSize
      callStackFuncs := fs } f

/-! ## Where an exception goes -/

def catchException (f : StackFunction) (fs : List StackFunction) (t : TryBlock) : State N :=
  { s with
    callStackFuncs := { f with opcodes := t.endCodePos } :: fs
    stackValues := Function.update s.stackValues (f.localsStackPos + t.catchVarIndex) s.terminatedException
    terminated := false
    terminatedException := .null }

/-- The loop over the frames of one `execute`. -/
def unwind (ret : Nat) : List StackFunction → State N → State N
  | [], s => s
  | f :: fs, s =>
    match findTryBlock f.func.tryBlocks f.opcodes with
    | some t => s.catchException f fs t
    | none => if fs.length ≤ ret then s.leaveFunction f fs else unwind ret fs (s.leaveFunction f fs)

/-- All frames of one `execute` are left. -/
def leaveAll (ret : Nat) : List StackFunction → State N → State N
  | [], s => s
  | f :: fs, s => if fs.length ≤ ret then s.leaveFunction f fs else leaveAll ret fs (s.leaveFunction f fs)

/-- What `execute` does before the next instruction. -/
def dispatch (ret : Nat) : State N :=
  if s.terminated then
    match s.terminatedException, s.callStackOverflow with
    | .null, _ => leaveAll ret s.callStackFuncs s
    | _, true => leaveAll ret s.callStackFuncs s
    | _, false => unwind ret s.callStackFuncs s
  else s

/-! ## Runs -/

/-- `setExceptionValue`, for the value that is not an `Exception` with the one that `Exception(toString(val))` gives. -/
def setExceptionValue (isException : Value N → Bool) (newException : Value N → Value N) (val : Value N) : State N :=
  match val with
  | .null => { s with callStackOverflow := false, terminated := false, terminatedException := .null }
  | val =>
    match (if isException val then val else newException val) with
    | .null => { s with callStackOverflow := false, terminated := false, terminatedException := .null }
    | exception => { s with terminated := true, terminatedException := exception }

/-- `callFT` of a function when there are as many frames as are allowed. -/
def overflowCallStack (isException : Value N → Bool) (newException : Value N → Value N) (message : Value N) : State N :=
  if s.maxCallStack ≤ s.callStackFuncs.length ∧ s.callStackOverflow = false then
    { s with callStackOverflow := true }.setExceptionValue isException newException message
  else s

/-- `callFT` of a function with the callee at `startPos`. -/
def enterFunction (d : FunctionDecl) (startPos retValues locals : Nat) : State N :=
  { s with
    callStackFuncs := { func := d, locals := locals, localsStackPos := startPos, callerStackSize := s.stackCount,
                        needRetValues := retValues, opcodes := d.opcodesPos } :: s.callStackFuncs
    stackCount := startPos + d.stackSize }

/-- **One step of a run**: an instruction, or the native code it calls, with whatever it computes; a call; a return; or
what `execute` does when an exception is set. -/
inductive Step : State N → State N → Prop where
  | host {s t : State N} (hs : s.callStackFuncs = []) (ht : t.callStackFuncs = []) (he : t.executes = s.executes) : Step s t
  | instruction {s t : State N} {f : StackFunction} {fs : List StackFunction} {next : Nat} {o : Option TryBlock}
      (hs : s.callStackFuncs = f :: fs) (hf : ({ f with opcodes := next } : StackFunction).InTry o)
      (ht : t.callStackFuncs = { f with opcodes := next } :: fs) (hn : f.localsStackPos ≤ t.stackCount)
      (he : t.executes = s.executes) : Step s t
  /-- `callFT`, by an instruction or by native code, which runs an `execute` of its own. -/
  | enter {s t : State N} {d : FunctionDecl} {startPos retValues locals : Nat} {native : Bool}
      (hs : ∀ f ∈ s.callStackFuncs.head?, ∃ o, f.InTry o) (ht : t.terminated = false)
      (hc : t.callStackFuncs = (s.enterFunction d startPos retValues locals).callStackFuncs)
      (hn : t.stackCount = startPos + d.stackSize)
      (he : t.executes = if native then s.callStackFuncs.length :: s.executes else s.executes) : Step s t
  /-- `OP_RETURN` -/
  | ret {s t : State N} {f : StackFunction} {fs : List StackFunction} {ret : Nat} {rets : List Nat}
      (hs : s.callStackFuncs = f :: fs) (hr : s.executes = ret :: rets) (ht : t.callStackFuncs = fs)
      (hn : t.stackCount = f.callerStackSize) (he : t.executes = if fs.length ≤ ret then rets else ret :: rets) : Step s t
  | dispatch {s : State N} {ret : Nat} {rets : List Nat} (hr : s.executes = ret :: rets) (ht : s.terminated = true) :
      Step s { s.dispatch ret with executes := if (s.dispatch ret).callStackFuncs.length ≤ ret then rets else ret :: rets }

/-- The states of the runs of a core that no function runs in at first. -/
inductive Reachable : State N → Prop where
  | start {s : State N} (hs : s.callStackFuncs = []) (he : s.executes = []) : Reachable s
  | step {s t : State N} (hs : Reachable s) (ht : Step s t) : Reachable t

end State

/-! ## What leaving a function keeps -/

open State

variable {s t u : State N} {f g : StackFunction} {fs : List StackFunction} {ret : Nat}

/-- The locals of the frame are not in the stack any more: they are released, or in the heap. -/
def State.Left (s : State N) (f : StackFunction) : Prop :=
  ∀ loc, s.locals f.locals = some loc → loc.values = .none ∨ ∃ values, loc.values = .heap values

theorem captured_ne_stack (s : State N) (f : StackFunction) : s.captured f = .none ∨ ∃ values, s.captured f = .heap values := by
  unfold captured
  split
  · exact .inr ⟨_, rfl⟩
  · exact .inl rfl

/-- What `clearStackFunction` does to locals. -/
theorem clearStackFunction_locals (s : State N) (f : StackFunction) {l : Nat} {loc : Locals N}
    (h : (s.clearStackFunction f).locals l = some loc) : s.locals l = some loc ∧ l ≠ f.locals ∨ loc.values = .none ∨
      ∃ values, loc.values = .heap values := by
  unfold clearStackFunction at h
  cases hl : s.locals f.locals with
  | none =>
    rw [hl] at h
    refine .inl ⟨h, ?_⟩
    rintro rfl
    rw [hl] at h
    cases h
  | some loc' =>
    rw [hl] at h
    dsimp only at h
    by_cases he : l = f.locals
    · rw [he, Function.update_self] at h
      split at h
      · obtain rfl := Option.some.inj h
        exact .inr (captured_ne_stack s f)
      · cases h
    · rw [Function.update_of_ne he] at h
      exact .inl ⟨h, he⟩

theorem clearStackFunction_frame (s : State N) (f : StackFunction) :
    s.clearStackFunction f = { s with locals := (s.clearStackFunction f).locals } := by
  unfold clearStackFunction
  cases s.locals f.locals <;> rfl

theorem leaveFunction_callStackFuncs (s : State N) (f : StackFunction) (fs : List StackFunction) :
    (s.leaveFunction f fs).callStackFuncs = fs := by
  rw [leaveFunction, clearStackFunction_frame]

theorem leaveFunction_stackCount (s : State N) (f : StackFunction) (fs : List StackFunction) :
    (s.leaveFunction f fs).stackCount = f.callerStackSize := by
  rw [leaveFunction, clearStackFunction_frame]

theorem leaveFunction_terminated (s : State N) (f : StackFunction) (fs : List StackFunction) :
    (s.leaveFunction f fs).terminated = s.terminated ∧
      (s.leaveFunction f fs).terminatedException = s.terminatedException := by
  rw [leaveFunction, clearStackFunction_frame]
  exact ⟨rfl, rfl⟩

theorem leaveFunction_stackValues {j : Nat} (hj : j < f.localsStackPos) (hn : f.localsStackPos ≤ s.stackCount) :
    (s.leaveFunction f fs).stackValues j = s.stackValues j := by
  rw [leaveFunction, clearStackFunction_frame]
  show setNullValues _ _ _ j = _
  rw [setNullValues, if_neg (by omega), setNullValues, if_neg (by omega)]

theorem leaveFunction_left (s : State N) (f : StackFunction) (fs : List StackFunction) : (s.leaveFunction f fs).Left f := by
  intro loc h
  rcases clearStackFunction_locals _ f h with ⟨-, hne⟩ | h
  · exact absurd rfl hne
  · exact h

/-- **The variables that closures have captured keep their values**, but those in the places of the results: these are set
to null before the locals are copied to the heap. -/
theorem leaveFunction_captured {loc : Locals N} (hloc : s.locals f.locals = some loc) (href : 1 < loc.refCount)
    (hup : f.func.upvalue.any id = true) (hin : f.localsStackPos + f.func.upvalue.length ≤ s.stackCount) :
    (s.leaveFunction f fs).locals f.locals = some
      { refCount := loc.refCount - 1
        values := .heap (f.func.upvalue.zipIdx.map fun p =>
          if p.1 = true ∧ f.needRetValues ≤ p.2 then s.stackValues (f.localsStackPos + p.2) else .null) } := by
  unfold leaveFunction clearStackFunction
  dsimp only
  rw [hloc]
  dsimp only
  rw [Function.update_self, if_pos (by omega), captured, if_pos hup]
  congr 3
  refine List.map_congr_left fun p hp => ?_
  have hlt : p.2 < f.func.upvalue.length := by
    have := (List.mem_zipIdx hp).2.1
    omega
  -- beyond the count of the stack nothing of the frame is set to null
  have hrest : ¬(s.stackCount ≤ f.localsStackPos + p.2 ∧
      f.localsStackPos + p.2 < s.stackCount + (f.callerStackSize - s.stackCount)) := by omega
  by_cases hp1 : p.1 = true
  · rw [if_pos hp1]
    dsimp only
    rw [setNullValues, if_neg hrest, setNullValues]
    by_cases hret : f.needRetValues ≤ p.2
    · rw [if_neg (by omega), if_pos ⟨hp1, hret⟩]
    · rw [if_pos (by omega), if_neg fun h => hret h.2]
  · rw [if_neg hp1, if_neg fun h => hp1 h.1]

theorem Left.leaveFunction (h : s.Left g) : (s.leaveFunction f fs).Left g := by
  intro loc hl
  rcases clearStackFunction_locals _ f hl with ⟨hs, -⟩ | hl
  · exact h loc hs
  · exact hl

theorem Left.unwind : ∀ {fs : List StackFunction} {s : State N}, s.Left g → (unwind ret fs s).Left g
  | [], _, h => h
  | f :: fs, s, h => by
    unfold State.unwind
    split
    · exact h
    · split
      · exact Left.leaveFunction h
      · exact Left.unwind (Left.leaveFunction h)

/-! ## Frames in the stack -/

/-- Every frame begins at or below what the stack had when it made its call. -/
def Stacked : List StackFunction → Nat → Prop
  | [], _ => True
  | f :: fs, n => f.localsStackPos ≤ n ∧ Stacked fs f.callerStackSize

/-- Every `execute` has a frame, and those of the outer ones are below. -/
def Nested : List Nat → Nat → Prop
  | [], _ => True
  | ret :: rets, n => ret < n ∧ Nested rets ret

/-- **What holds between two instructions.** -/
structure Framed (s : State N) : Prop where
  callers : ∀ f ∈ s.callStackFuncs.tail, ∃ o, f.InTry o
  raising : s.terminated = true → ∀ f ∈ s.callStackFuncs, ∃ o, f.InTry o
  stacked : Stacked s.callStackFuncs s.stackCount
  nested : Nested s.executes s.callStackFuncs.length

/-! ## Unwinding -/

/-- **The exception is caught** by the frame `f`, in the block `t`. -/
structure Caught (s u : State N) (ret : Nat) (left : List StackFunction) (f : StackFunction) (below : List StackFunction)
    (t : TryBlock) : Prop where
  running : ret ≤ below.length
  inTry : f.InTry (some t)
  goesOn : u.callStackFuncs = { f with opcodes := t.endCodePos } :: below
  catchVar : u.stackValues (f.localsStackPos + t.catchVarIndex) = s.terminatedException
  intact : ∀ j, j ≠ f.localsStackPos + t.catchVarIndex → (∀ g ∈ left, j < g.localsStackPos) → u.stackValues j = s.stackValues j
  cleared : u.terminated = false ∧ u.terminatedException = .null

/-- **The exception stays set**, and all frames of the `execute` are left. -/
structure Reported (s u : State N) (ret : Nat) (left below : List StackFunction) : Prop where
  running : below.length = ret
  frames : u.callStackFuncs = below
  intact : ∀ j, (∀ g ∈ left, j < g.localsStackPos) → u.stackValues j = s.stackValues j
  set : u.terminated = s.terminated ∧ u.terminatedException = s.terminatedException

theorem unwind_cases : ∀ {fs : List StackFunction} {s : State N}, ret < fs.length → s.callStackFuncs = fs →
    Stacked fs s.stackCount → (∀ f ∈ fs, ∃ o, f.InTry o) → ∃ left rest, fs = left ++ rest ∧
      (∀ g ∈ left, g.InTry none ∧ (unwind ret fs s).Left g) ∧
      ((∃ f below t, rest = f :: below ∧ Caught s (unwind ret fs s) ret left f below t) ∨ Reported s (unwind ret fs s) ret left rest)
  | [], _, h, _, _, _ => by cases h
  | f :: fs, s, hret, hs, hstacked, htry => by
    obtain ⟨o, ho⟩ := htry f List.mem_cons_self
    have hlt : ret < fs.length + 1 := hret
    unfold unwind
    rw [ho.find]
    cases o with
    | some t =>
      refine ⟨[], f :: fs, rfl, by rintro g ⟨⟩, .inl ⟨f, fs, t, rfl, by omega, ho, rfl, ?_, fun j hj _ => ?_, rfl, rfl⟩⟩
      · exact Function.update_self ..
      · exact Function.update_of_ne hj _ _
    | none =>
      dsimp only
      have hleft := leaveFunction_left s f fs
      have hvalues : ∀ j, j < f.localsStackPos → (s.leaveFunction f fs).stackValues j = s.stackValues j :=
        fun j hj => leaveFunction_stackValues hj hstacked.1
      obtain ⟨hterm, hexc⟩ := leaveFunction_terminated s f fs
      split
      · rename_i hle
        refine ⟨[f], fs, rfl, fun g hg => ?_, .inr ⟨by omega, leaveFunction_callStackFuncs s f fs, fun j hj => ?_, hterm, hexc⟩⟩
        · rw [List.mem_singleton.1 hg]
          exact ⟨ho, hleft⟩
        · exact hvalues j (hj f (List.mem_singleton_self f))
      · rename_i hle
        obtain ⟨left, rest, rfl, hnone, hcase⟩ := unwind_cases (s := s.leaveFunction f fs) (Nat.lt_of_not_le hle)
          (leaveFunction_callStackFuncs s f fs) (by rw [leaveFunction_stackCount]; exact hstacked.2)
          fun g hg => htry g (List.mem_cons_of_mem _ hg)
        have hintact : ∀ j, (∀ g ∈ f :: left, j < g.localsStackPos) →
            (s.leaveFunction f (left ++ rest)).stackValues j = s.stackValues j ∧ ∀ g ∈ left, j < g.localsStackPos :=
          fun j hj => ⟨hvalues j (hj f List.mem_cons_self), fun g hg => hj g (List.mem_cons_of_mem _ hg)⟩
        refine ⟨f :: left, rest, rfl, fun g hg => ?_, ?_⟩
        · rcases List.mem_cons.1 hg with rfl | hg
          · exact ⟨ho, Left.unwind hleft⟩
          · exact hnone g hg
        · rcases hcase with ⟨g, below, t, hrest, hc⟩ | hr
          · refine .inl ⟨g, below, t, hrest, hc.running, hc.inTry, hc.goesOn, hc.catchVar.trans hexc, fun j hne hj => ?_, hc.cleared⟩
            obtain ⟨h1, h2⟩ := hintact j hj
            rw [hc.intact j hne h2, h1]
          · refine .inr ⟨hr.running, hr.frames, fun j hj => ?_, hr.set.1.trans hterm, hr.set.2.trans hexc⟩
            obtain ⟨h1, h2⟩ := hintact j hj
            rw [hr.intact j h2, h1]

theorem unwind_stacked : ∀ {fs : List StackFunction} {s : State N}, s.callStackFuncs = fs → Stacked fs s.stackCount →
    Stacked (unwind ret fs s).callStackFuncs (unwind ret fs s).stackCount
  | [], s, hs, _ => by
    unfold unwind
    rw [hs]
    trivial
  | f :: fs, s, hs, h => by
    unfold unwind
    split
    · exact h
    · have hleft : Stacked fs (s.leaveFunction f fs).stackCount := by
        rw [leaveFunction_stackCount]
        exact h.2
      split
      · rw [leaveFunction_callStackFuncs]
        exact hleft
      · exact unwind_stacked (leaveFunction_callStackFuncs s f fs) hleft

/-- **Every frame of the `execute` is left**, and what was set stays set. -/
theorem leaveAll_spec : ∀ {fs : List StackFunction} {s : State N}, ret < fs.length → s.callStackFuncs = fs → Stacked fs s.stackCount →
    ∃ left below, fs = left ++ below ∧ below.length = ret ∧ (leaveAll ret fs s).callStackFuncs = below ∧
      Stacked below (leaveAll ret fs s).stackCount
  | [], _, h, _, _ => by cases h
  | f :: fs, s, hret, hs, h => by
    have hlt : ret < fs.length + 1 := hret
    have hleft : Stacked fs (s.leaveFunction f fs).stackCount := by
      rw [leaveFunction_stackCount]
      exact h.2
    unfold leaveAll
    split
    · rename_i hle
      exact ⟨[f], fs, rfl, by omega, leaveFunction_callStackFuncs s f fs, hleft⟩
    · rename_i hle
      obtain ⟨left, below, hfs, hrest⟩ := leaveAll_spec (Nat.lt_of_not_le hle) (leaveFunction_callStackFuncs s f fs) hleft
      exact ⟨f :: left, below, congrArg (f :: ·) hfs, hrest⟩

/-! ## Runs -/

theorem Nested.mono : ∀ {rets : List Nat} {m n : Nat}, Nested rets m → m ≤ n → Nested rets n
  | [], _, _, _, _ => trivial
  | _ :: _, _, _, h, hle => ⟨Nat.lt_of_lt_of_le h.1 hle, h.2⟩

theorem dispatch_unwind (ht : s.terminated = true) (he : s.terminatedException ≠ .null) (ho : s.callStackOverflow = false) :
    s.dispatch ret = unwind ret s.callStackFuncs s := by
  unfold dispatch
  rw [if_pos ht, ho]
  cases hx : s.terminatedException with
  | null => exact absurd hx he
  | _ => rfl

theorem dispatch_leaveAll (ht : s.terminated = true) (ho : s.terminatedException = .null ∨ s.callStackOverflow = true) :
    s.dispatch ret = leaveAll ret s.callStackFuncs s := by
  unfold dispatch
  rw [if_pos ht]
  rcases ho with ho | ho
  · rw [ho]
  · rw [ho]
    cases s.terminatedException <;> rfl

theorem Framed.dispatch {rets : List Nat} (h : Framed s) (hr : s.executes = ret :: rets) (ht : s.terminated = true) :
    Framed { s.dispatch ret with executes := if (s.dispatch ret).callStackFuncs.length ≤ ret then rets else ret :: rets } := by
  have hnested := h.nested
  rw [hr] at hnested
  have htry := h.raising ht
  by_cases hall : s.terminatedException = .null ∨ s.callStackOverflow = true
  · obtain ⟨left, below, hfs, hlen, hframes, hstacked⟩ := leaveAll_spec hnested.1 rfl h.stacked
    have hmem : ∀ f ∈ below, ∃ o, f.InTry o := fun f hf => htry f (by rw [hfs]; exact List.mem_append_right _ hf)
    rw [dispatch_leaveAll ht hall]
    refine ⟨fun f hf => hmem f ?_, fun _ f hf => hmem f ?_, ?_, ?_⟩
    · rw [hframes] at hf
      exact List.mem_of_mem_tail hf
    · rw [hframes] at hf
      exact hf
    · rw [hframes]
      exact hstacked
    · rw [hframes, if_pos (Nat.le_of_eq hlen), hlen]
      exact hnested.2
  · obtain ⟨he, ho⟩ := not_or.1 hall
    have hstacked : Stacked (unwind ret s.callStackFuncs s).callStackFuncs (unwind ret s.callStackFuncs s).stackCount :=
      unwind_stacked rfl h.stacked
    obtain ⟨left, rest, hfs, -, hcase⟩ := unwind_cases hnested.1 rfl h.stacked htry
    have hmem : ∀ f ∈ rest, ∃ o, f.InTry o := fun f hf => htry f (by rw [hfs]; exact List.mem_append_right _ hf)
    rw [dispatch_unwind ht he (Bool.not_eq_true _ ▸ ho)]
    rcases hcase with ⟨f, below, t, rfl, hc⟩ | hc
    · refine ⟨fun g hg => hmem g ?_, fun hterm => ?_, hstacked, ?_⟩
      · rw [hc.goesOn] at hg
        exact List.mem_cons_of_mem _ hg
      · rw [hc.cleared.1] at hterm
        cases hterm
      · have hlen := hc.running
        rw [hc.goesOn, List.length_cons, if_neg (by omega)]
        exact ⟨Nat.lt_succ_of_le hlen, hnested.2⟩
    · refine ⟨fun g hg => hmem g ?_, fun _ g hg => hmem g ?_, hstacked, ?_⟩
      · rw [hc.frames] at hg
        exact List.mem_of_mem_tail hg
      · rw [hc.frames] at hg
        exact hg
      · rw [hc.frames, if_pos (Nat.le_of_eq hc.running), hc.running]
        exact hnested.2

theorem Framed.step (h : Framed s) (ht : Step s t) : Framed t := by
  cases ht with
  | host hs ht he =>
    have hnested := h.nested
    rw [hs] at hnested
    refine ⟨?_, fun _ => ?_, ?_, ?_⟩
    · rw [ht]
      rintro f ⟨⟩
    · rw [ht]
      rintro f ⟨⟩
    · rw [ht]
      trivial
    · rw [ht, he]
      exact hnested
  | @instruction _ f fs next o hs hf ht hn he =>
    have hcallers := h.callers
    have hstacked := h.stacked
    have hnested := h.nested
    rw [hs] at hcallers hstacked hnested
    refine ⟨?_, fun _ => ?_, ?_, ?_⟩
    · rw [ht]
      exact hcallers
    · rw [ht]
      intro g hg
      rcases List.mem_cons.1 hg with rfl | hg
      · exact ⟨o, hf⟩
      · exact hcallers g hg
    · rw [ht]
      exact ⟨hn, hstacked.2⟩
    · rw [ht, he]
      exact hnested
  | @enter _ d startPos retValues locals native hs ht hc hn he =>
    have hall : ∀ f ∈ s.callStackFuncs, ∃ o, f.InTry o := by
      intro f hf
      have hcallers := h.callers
      cases hfs : s.callStackFuncs with
      | nil =>
        rw [hfs] at hf
        cases hf
      | cons g gs =>
        rw [hfs] at hf hs hcallers
        rcases List.mem_cons.1 hf with rfl | hf
        · exact hs _ rfl
        · exact hcallers f hf
    refine ⟨?_, fun hterm => ?_, ?_, ?_⟩
    · rw [hc]
      exact hall
    · rw [ht] at hterm
      cases hterm
    · rw [hc, hn]
      exact ⟨Nat.le_add_right _ _, h.stacked⟩
    · have hlen : t.callStackFuncs.length = s.callStackFuncs.length + 1 := by
        rw [hc]
        rfl
      rw [he, hlen]
      cases native with
      | true => exact ⟨Nat.lt_succ_self _, h.nested⟩
      | false => exact h.nested.mono (Nat.le_succ _)
  | @ret _ f fs r rets hs hr ht hn he =>
    have hcallers := h.callers
    have hstacked := h.stacked
    have hnested := h.nested
    rw [hs] at hcallers hstacked hnested
    rw [hr] at hnested
    have hlt : r < fs.length + 1 := hnested.1
    refine ⟨?_, fun _ => ?_, ?_, ?_⟩
    · rw [ht]
      exact fun g hg => hcallers g (List.mem_of_mem_tail hg)
    · rw [ht]
      exact hcallers
    · rw [ht, hn]
      exact hstacked.2
    · rw [ht, he]
      split
      · rename_i hle
        have heq : fs.length = r := by omega
        rw [heq]
        exact hnested.2
      · rename_i hle
        exact ⟨Nat.lt_of_not_le hle, hnested.2⟩
  | dispatch hr ht => exact h.dispatch hr ht

theorem Reachable.framed (h : s.Reachable) : Framed s := by
  induction h with
  | start hs he =>
    refine ⟨?_, fun _ => ?_, ?_, ?_⟩
    · rw [hs]
      rintro f ⟨⟩
    · rw [hs]
      rintro f ⟨⟩
    · rw [hs]
      trivial
    · rw [hs, he]
      trivial
  | step hs ht ih => exact ih.step ht

/-- **An exception goes to the catch block of the innermost `try` statement around the instruction of the nearest frame
that has one**, among the frames of the `execute` that runs, when the call stack has not overflowed; those above are left.
Without such a frame it stays set, and all of them are left. -/
theorem exception_routed {rets : List Nat} (h : s.Reachable) (hr : s.executes = ret :: rets) (ht : s.terminated = true)
    (he : s.terminatedException ≠ .null) (ho : s.callStackOverflow = false) :
    ∃ left rest, s.callStackFuncs = left ++ rest ∧ (∀ g ∈ left, g.InTry none ∧ (s.dispatch ret).Left g) ∧
      ((∃ f below t, rest = f :: below ∧ Caught s (s.dispatch ret) ret left f below t) ∨
        Reported s (s.dispatch ret) ret left rest) := by
  have hf := Reachable.framed h
  have hnested := hf.nested
  rw [hr] at hnested
  rw [dispatch_unwind ht he ho]
  exact unwind_cases hnested.1 rfl hf.stacked (hf.raising ht)

/-- A function with one `try` statement, in its body. -/
def tried : FunctionDecl := { code := .tryCatch .opcode 2 .opcode, opcodesPos := 0, stackSize := 3, upvalue := [false, false, false] }

/-- The body of the statement runs, and no other call is allowed. -/
def trying : State Int where
  stackValues _ := .null
  stackCount := 3
  callStackFuncs :=
    [{ func := tried, locals := 0, localsStackPos := 0, callerStackSize := 0, needRetValues := 0, opcodes := 1 }]
  locals _ := none
  terminated := false
  terminatedException := .null
  maxCallStack := 1
  callStackOverflow := false
  executes := [0]

def overflowed : State Int := trying.overflowCallStack (fun _ => true) id (.gc .object 1)

theorem trying_inTry : ∀ f ∈ trying.callStackFuncs, f.InTry (some ⟨0, 2, 2⟩) := by
  intro f hf
  rw [List.mem_singleton.1 hf]
  exact ⟨0, .tryBody .opcode⟩

theorem trying_reachable {t : State Int} (hc : t.callStackFuncs = trying.callStackFuncs) (he : t.executes = [0]) : t.Reachable := by
  have hstart : ({ trying with callStackFuncs := [], stackCount := 0, executes := [] } : State Int).Reachable := .start rfl rfl
  have henter : ({ trying with
      callStackFuncs := [{ func := tried, locals := 0, localsStackPos := 0, callerStackSize := 0, needRetValues := 0, opcodes := 0 }] } :
      State Int).Reachable := .step hstart (@Step.enter _ _ _ tried 0 0 0 true (by rintro f ⟨⟩) rfl rfl rfl rfl)
  exact .step henter (.instruction rfl (trying_inTry _ (List.mem_singleton_self _)) hc (Nat.zero_le _) he)

/-- A function without a `try` statement, with a variable that a closure has captured. -/
def plain : FunctionDecl := { code := .opcode, opcodesPos := 10, stackSize := 4, upvalue := [false, false, false, true] }

def plainFrame (opcodes : Nat) : StackFunction :=
  { func := plain, locals := 1, localsStackPos := 3, callerStackSize := 3, needRetValues := 1, opcodes := opcodes }

theorem plainFrame_inTry : (plainFrame 11).InTry none := ⟨10, .opcode⟩

/-- The body of the statement has called this function, and an instruction of it throws. -/
def calling : State Int where
  stackValues i := if i = 6 then .number 5 else .null
  stackCount := 7
  callStackFuncs := plainFrame 11 :: trying.callStackFuncs
  locals l := if l = 1 then some { refCount := 2, values := .stack } else none
  terminated := true
  terminatedException := .gc .object 1
  maxCallStack := 2
  callStackOverflow := false
  executes := [0]

theorem calling_reachable : calling.Reachable := by
  have htrying : trying.Reachable := trying_reachable rfl rfl
  have henter : ({ calling with callStackFuncs := plainFrame 10 :: trying.callStackFuncs, terminated := false } :
      State Int).Reachable := by
    refine .step htrying (@Step.enter _ _ _ plain 3 1 1 false (fun f hf => ⟨_, trying_inTry f ?_⟩) rfl rfl rfl rfl)
    exact List.mem_of_mem_head? hf
  exact .step henter (@Step.instruction _ _ _ (plainFrame 10) _ 11 none rfl plainFrame_inTry rfl (by decide) rfl)

theorem exception_routed_thrown : (∃ left rest, calling.callStackFuncs = left ++ rest ∧
    (∀ g ∈ left, g.InTry none ∧ (calling.dispatch 0).Left g) ∧
      ((∃ f below t, rest = f :: below ∧ Caught calling (calling.dispatch 0) 0 left f below t) ∨
        Reported calling (calling.dispatch 0) 0 left rest)) ∧
    (calling.dispatch 0).callStackFuncs.map (·.opcodes) = [2] ∧ (calling.dispatch 0).stackValues 2 = .gc .object 1 :=
  ⟨exception_routed calling_reachable rfl rfl (by rintro ⟨⟩) rfl, rfl, rfl⟩

/-- **When the call stack overflows no `try` statement catches the exception.** -/
theorem overflow_not_caught : overflowed.Reachable ∧ overflowed.terminated = true ∧
    overflowed.terminatedException = .gc .object 1 ∧ (∀ f ∈ overflowed.callStackFuncs, f.InTry (some ⟨0, 2, 2⟩)) ∧
      (overflowed.dispatch 0).callStackFuncs = [] ∧ (overflowed.dispatch 0).terminated = true :=
  ⟨trying_reachable rfl rfl, rfl, rfl, trying_inTry, rfl, rfl⟩

end Vm
end ObjectScript
