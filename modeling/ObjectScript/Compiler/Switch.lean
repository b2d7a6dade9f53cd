import Mathlib.Logic.Relation
import Mathlib.Data.List.Perm.Basic
import Mathlib.Tactic.Common
/-!
# Switch statements

A switch is compiled to a header and its body: the header stores the switch value, compares it with the value of one case
expression after the other, and jumps to the label of the first that is identical, and behind them to that of `default`.  The
labels are known when the body is written, so the jumps of the header are fixed then, as those of `break` and `continue` are
when their loop or switch is closed.  The switch value is kept in a variable that no scope was given (`addLocalVar` is
commented out), whose index is therefore 0: the local variable that holds the running function.

Expressions and straight-line code are parameters.  `return` and `throw`, which leave the function from inside of a switch,
are left out.
-/
namespace ObjectScript
namespace Compiler
namespace Switch

mutual
inductive Stmt (α : Type) where
  | nop
  /-- Code that control leaves at its end. -/
  | exec (a : α)
  | seq (s t : Stmt α)
  | ifThen (a : α) (s : Stmt α)
  /-- A loop scope, with what `continue` goes on with at the end: the step of `for`, the test of `do`. -/
  | loop (body post : Stmt α)
  | breakStmt
  | continueStmt
  | switch (e : α) (body : Body α)

/-- The body of a switch: statements and labels, of which that without an expression is `default`. -/
inductive Body (α : Type) where
  | nil
  | label (e : Option α) (rest : Body α)
  | stmt (s : Stmt α) (rest : Body α)
end

inductive Instr (α : Type) where
  | exec (a : α)
  /-- The value of an expression into local variable 0. -/
  | store (a : α)
  /-- A test that jumps over the next instruction where it holds. -/
  | test (a : α)
  /-- `OP_LOGIC_PTR_EQ` of local variable 0 and the value of an expression, as such a test. -/
  | compare (a : α)
  | jump (offs : Int)
deriving DecidableEq

variable {α V σ : Type}

/-! ## `writeOpcodes` -/

structure CaseLabel (α : Type) where
  exp : Option α
  from_pos : Nat
  to_pos : Nat

/-- The opcodes that were written, with a place left for every jump whose target was not known; what `fixJumpOpcode` was
called with, the position of the jump and its target; and the loop breaks of the scopes outside. -/
structure Emission (α : Type) where
  code : List (Option (Instr α))
  fixes : List (Nat × Nat)
  breaks : List Nat
  continues : List Nat

def Emission.empty : Emission α := { code := [], fixes := [], breaks := [], continues := [] }

def Emission.append (e e' : Emission α) : Emission α where
  code := e.code ++ e'.code
  fixes := e.fixes ++ e'.fixes
  breaks := e.breaks ++ e'.breaks
  continues := e.continues ++ e'.continues

/-- A position of 0 is one that is not set. -/
def setCaseLabelPos (labels : List (CaseLabel α)) (key pos : Nat) : List (CaseLabel α) × List (Nat × Nat) :=
  match labels[key]? with
  | some sw =>
    (labels.set key { sw with to_pos := pos }, if pos ≠ 0 ∧ sw.from_pos ≠ 0 then [(sw.from_pos, pos)] else [])
  | none => (labels, [])

def setCaseLabelJump (labels : List (CaseLabel α)) (key pos : Nat) : List (CaseLabel α) × List (Nat × Nat) :=
  match labels[key]? with
  | some sw =>
    (labels.set key { sw with from_pos := pos }, if sw.to_pos ≠ 0 ∧ pos ≠ 0 then [(pos, sw.to_pos)] else [])
  | none => (labels, [])

/-- What `addCaseLabel` has recorded for a body. -/
def Body.caseLabels : Body α → List (Option α)
  | .nil => []
  | .label e rest => e :: rest.caseLabels
  | .stmt _ rest => rest.caseLabels

def Body.switchLabels (body : Body α) : List (Option α) :=
  if body.caseLabels.any Option.isNone then body.caseLabels else body.caseLabels ++ [none]

/-- For every case, `if(expression == local_variable) goto 0`. -/
def writeHeader : List (Option α) → (key pos : Nat) → List (CaseLabel α) → Emission α × List (CaseLabel α)
  | [], _, _, labels => (.empty, labels)
  | none :: es, key, pos, labels => writeHeader es (key + 1) pos labels
  | some e :: es, key, pos, labels =>
    let jump := setCaseLabelJump labels key (pos + 2)
    let rest := writeHeader es (key + 1) (pos + 3) jump.1
    ({ rest.1 with
        code := some (.compare e) :: none :: none :: rest.1.code
        fixes := (pos + 1, pos + 3) :: (jump.2 ++ rest.1.fixes) }, rest.2)

/-- A default label that has no position yet is at the end. -/
def closeLabels (labels : List (CaseLabel α)) (pos : Nat) : List (Nat × Nat) :=
  labels.flatMap fun sw =>
    if sw.exp.isNone ∧ sw.to_pos = 0 ∧ pos ≠ 0 ∧ sw.from_pos ≠ 0 then [(sw.from_pos, pos)] else []

mutual
def writeOpcodes : Stmt α → Nat → Emission α
  | .nop, _ => .empty
  | .exec a, _ => { code := [some (.exec a)], fixes := [], breaks := [], continues := [] }
  | .seq s t, pos =>
    let e := writeOpcodes s pos
    e.append (writeOpcodes t (pos + e.code.length))
  | .ifThen a s, pos =>
    let e := writeOpcodes s (pos + 2)
    { e with
      code := some (.test a) :: none :: e.code
      fixes := (pos + 1, pos + 2 + e.code.length) :: e.fixes }
  | .loop body post, start =>
    let e := writeOpcodes body start
    let startForPost := start + e.code.length
    let e' := writeOpcodes post startForPost
    let jumpPos := startForPost + e'.code.length
    { code := e.code ++ (e'.code ++ [some (.jump ((start : Int) - jumpPos - 1))])
      fixes := e.fixes ++ e'.fixes ++ (e.breaks ++ e'.breaks).map (·, jumpPos + 1) ++
        (e.continues ++ e'.continues).map (·, startForPost)
      breaks := []
      continues := [] }
  | .breakStmt, pos => { code := [none], fixes := [], breaks := [pos], continues := [] }
  | .continueStmt, pos => { code := [none], fixes := [], breaks := [], continues := [pos] }
  | .switch e body, pos =>
    let exps := body.switchLabels
    let header := writeHeader exps 0 (pos + 1) (exps.map fun e => { exp := e, from_pos := 0, to_pos := 0 })
    let jumpPos := pos + 1 + header.1.code.length
    let jump := setCaseLabelJump header.2 (exps.findIdx Option.isNone) jumpPos
    let b := writeBody body (jumpPos + 1) 0 jump.1
    let endPos := jumpPos + 1 + b.1.code.length
    { code := some (.store e) :: (header.1.code ++ none :: b.1.code)
      fixes := header.1.fixes ++ jump.2 ++ b.1.fixes ++ closeLabels b.2 endPos ++ b.1.breaks.map (·, endPos)
      breaks := []
      continues := b.1.continues }

def writeBody : Body α → (pos key : Nat) → List (CaseLabel α) → Emission α × List (CaseLabel α)
  | .nil, _, _, labels => (.empty, labels)
  | .label _ rest, pos, key, labels =>
    let label := setCaseLabelPos labels key pos
    let r := writeBody rest pos (key + 1) label.1
    ({ r.1 with fixes := label.2 ++ r.1.fixes }, r.2)
  | .stmt s rest, pos, key, labels =>
    let e := writeOpcodes s pos
    let r := writeBody rest (pos + e.code.length) key labels
    (e.append r.1, r.2)
end

mutual
def Stmt.oneDefault : Stmt α → Bool
  | .seq s t => s.oneDefault && t.oneDefault
  | .ifThen _ s => s.oneDefault
  | .loop body post => body.oneDefault && post.oneDefault
  | .switch _ body => body.caseLabels.countP Option.isNone ≤ 1 && body.oneDefault
  | _ => true

def Body.oneDefault : Body α → Bool
  | .nil => true
  | .label _ rest => rest.oneDefault
  | .stmt s rest => s.oneDefault && rest.oneDefault
end

def fixJumpOpcode (code : List (Instr α)) (fix : Nat × Nat) : List (Instr α) :=
  code.set fix.1 (.jump ((fix.2 : Int) - fix.1 - 1))

/-- A jump is written with offset 0.  A `break` or `continue` outside of every loop and a second default label are errors. -/
def compile (s : Stmt α) : Option (List (Instr α)) :=
  let e := writeOpcodes s 0
  if s.oneDefault ∧ e.breaks = [] ∧ e.continues = [] then
    some (e.fixes.foldl fixJumpOpcode (e.code.map fun x => x.getD (.jump 0)))
  else none

/-! ## What statements do -/

/-- What code can see: local variable 0, and everything else. -/
structure Frame (V σ : Type) where
  first : V
  rest : σ

/-- What the code between the jumps does, its tests and the values of its expressions. -/
structure Meaning (α V σ : Type) where
  exec : α → Frame V σ → Frame V σ
  test : α → Frame V σ → Bool × Frame V σ
  value : α → Frame V σ → V × Frame V σ
  /-- `===` -/
  identical : V → V → Bool

inductive Out where
  | normal
  | broke
  | continued
deriving DecidableEq

/-- Case expressions are evaluated in order until one is identical to the switch value. -/
def select (c : Meaning α V σ) (v : V) : Body α → Frame V σ → Option (Body α) × Frame V σ
  | .nil, f => (none, f)
  | .label (some e) rest, f =>
    let r := c.value e f
    if c.identical v r.1 then (some rest, r.2) else select c v rest r.2
  | .label none rest, f => select c v rest f
  | .stmt _ rest, f => select c v rest f

def Body.default : Body α → Option (Body α)
  | .nil => none
  | .label none rest => some rest
  | .label (some _) rest => rest.default
  | .stmt _ rest => rest.default

def Out.leaveSwitch : Out → Out
  | .broke => .normal
  | out => out

mutual
/-- **What a statement does**, with as many steps as `fuel`. -/
def run (c : Meaning α V σ) : Nat → Stmt α → Frame V σ → Option (Out × Frame V σ)
  | 0, _, _ => none
  | _ + 1, .nop, f => some (.normal, f)
  | _ + 1, .exec a, f => some (.normal, c.exec a f)
  | n + 1, .seq s t, f =>
    (run c n s f).bind fun r => if r.1 = .normal then run c n t r.2 else some r
  | n + 1, .ifThen a s, f => if (c.test a f).1 then run c n s (c.test a f).2 else some (.normal, (c.test a f).2)
  | n + 1, .loop body post, f =>
    (run c n body f).bind fun r =>
      if r.1 = .broke then some (.normal, r.2)
      else (run c n post r.2).bind fun r =>
        match r.1 with
        | .normal => run c n (.loop body post) r.2
        | .broke => some (.normal, r.2)
        | .continued => none
  | _ + 1, .breakStmt, f => some (.broke, f)
  | _ + 1, .continueStmt, f => some (.continued, f)
  | n + 1, .switch e body, f =>
    match select c (c.value e f).1 body (c.value e f).2 with
    | (some b, f) => (runBody c n b f).map fun r => (r.1.leaveSwitch, r.2)
    | (none, f) =>
      match body.default with
      | some b => (runBody c n b f).map fun r => (r.1.leaveSwitch, r.2)
      | none => some (.normal, f)

def runBody (c : Meaning α V σ) : Nat → Body α → Frame V σ → Option (Out × Frame V σ)
  | 0, _, _ => none
  | _ + 1, .nil, f => some (.normal, f)
  | n + 1, .label _ rest, f => runBody c n rest f
  | n + 1, .stmt s rest, f => (run c n s f).bind fun r => if r.1 = .normal then runBody c n rest r.2 else some r
end

/-! ## What code does -/

def step (c : Meaning α V σ) (code : List (Instr α)) (s : Nat × Frame V σ) : Option (Nat × Frame V σ) :=
  code[s.1]?.map fun
    | .exec a => (s.1 + 1, c.exec a s.2)
    | .store a => (s.1 + 1, { (c.value a s.2).2 with first := (c.value a s.2).1 })
    | .test a => (if (c.test a s.2).1 then s.1 + 2 else s.1 + 1, (c.test a s.2).2)
    | .compare a => (if c.identical s.2.first (c.value a s.2).1 then s.1 + 2 else s.1 + 1, (c.value a s.2).2)
    | .jump offs => (((s.1 : Int) + 1 + offs).toNat, s.2)

def Reaches (c : Meaning α V σ) (code : List (Instr α)) : Nat × Frame V σ → Nat × Frame V σ → Prop :=
  Relation.ReflTransGen fun s t => step c code s = some t

/-- **Local variable 0 is not read** by any expression, and not written where an expression is a case or a switch value. -/
structure Meaning.Blind (c : Meaning α V σ) : Prop where
  exec : ∀ a {f g : Frame V σ}, f.rest = g.rest → (c.exec a f).rest = (c.exec a g).rest
  test : ∀ a {f g : Frame V σ}, f.rest = g.rest → (c.test a f).1 = (c.test a g).1 ∧ (c.test a f).2.rest = (c.test a g).2.rest
  value : ∀ a {f g : Frame V σ}, f.rest = g.rest → (c.value a f).1 = (c.value a g).1 ∧ (c.value a f).2.rest = (c.value a g).2.rest
  keeps : ∀ a (f : Frame V σ), (c.value a f).2.first = f.first

end Switch
end Compiler
end ObjectScript
