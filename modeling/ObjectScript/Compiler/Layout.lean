import ObjectScript.Compiler.WriteOpcodes
/-!
# Layout of code

Jumps are relative, so the instructions of a node do not depend on where they stand: `writeOpcodes` puts the same ones behind
whatever is there (`writeOpcodes_eq`).  A layout also says where the jumps of a node land.  Two moves that become one leave
the code behind them one place nearer; a jump that lands behind the first of the two then lands a place too far.
-/
namespace ObjectScript
namespace Compiler
namespace NewVM

/-- Instructions, counted from the first one: how far `prog_optimize_offs` is, where jumps land, whether a jump lands behind
the first of two moves that became one, and what was written before moves became one. -/
structure Layout where
  code : List Operands
  optimizeOffs : Nat
  landings : List Nat
  crossed : Bool
  written : List Operands

namespace Layout

def empty : Layout := ⟨[], 0, [], false, []⟩

def append (x y : Layout) : Layout where
  code := x.code ++ y.code
  optimizeOffs := x.code.length + y.optimizeOffs
  landings := x.landings ++ y.landings.map (x.code.length + ·)
  crossed := x.crossed || y.crossed
  written := x.written ++ y.written

def write (x : Layout) (is : List Operands) : Layout := { x with code := x.code ++ is, written := x.written ++ is }

def land (x : Layout) : Layout := { x with landings := x.landings ++ [x.code.length] }

def optimizeFromHere (x : Layout) : Layout := { x with optimizeOffs := x.code.length }

/-- The last two instructions as one, where they may become one. -/
def fused (x : Layout) : Option (List Operands) := if 2 ≤ x.code.length - x.optimizeOffs then fuseLast x.code else none

def optimize (x : Layout) : Layout :=
  match x.fused with
  | some code => ⟨code, code.length, x.landings, x.crossed || x.landings.any (code.length ≤ ·), x.written⟩
  | none => x

end Layout

mutual

def layout : Node → Layout
  | ⟨.logicAnd, a, _, _, [l, r]⟩ =>
    let r := layout r
    (((layout l).write [.abc .logicBool a 0 1, .jump r.code.length]).append r).land
  | ⟨.logicOr, a, _, _, [l, r]⟩ =>
    let r := layout r
    (((layout l).write [.abc .logicBool a 1 1, .jump r.code.length]).append r).land
  | ⟨.question, _, _, _, [⟨type, a, b, c, list⟩, l, r]⟩ =>
    let x := if type.isTest then layoutList type.optimized list else layout ⟨type, a, b, c, list⟩
    let l := layout l
    let r := layout r
    let then' := (x.write [testOpcode type a, .jump (l.code.length + 1)]).append (l.write [.jump r.code.length])
    (then'.land.append r).land.optimizeFromHere
  | ⟨type, a, b, c, list⟩ => (layoutList type.optimized list).write (instructions type a b c)

def layoutList (optimizationEnabled : Bool) : List Node → Layout
  | [] => Layout.empty
  | n :: ns =>
    let x := layout n
    let x := if optimizationEnabled then x.optimize else x
    match ns with
    | [] => x
    | _ => x.append (layoutList optimizationEnabled ns)

end

section

attribute [local simp] layout layoutList

@[simp] theorem layoutList_nil (optimizationEnabled : Bool) : layoutList optimizationEnabled [] = Layout.empty := by simp

end

namespace Prog

def add (p : Prog) (x : Layout) : Prog := ⟨p.opcodes ++ x.code, p.opcodes.length + x.optimizeOffs⟩

theorem add_append (p : Prog) (x y : Layout) : p.add (x.append y) = (p.add x).add y := by
  simp [add, Layout.append, Nat.add_assoc]

theorem add_write (p : Prog) (x : Layout) (is : List Operands) :
    p.add (x.write is) = is.foldl writeOpcode (p.add x) := by
  have h : ∀ (is : List Operands) (q : Prog), is.foldl writeOpcode q = ⟨q.opcodes ++ is, q.optimizeOffs⟩ := by
    intro is
    induction is with
    | nil => intro q; simp
    | cons i is ih => intro q; rw [List.foldl_cons, ih]; simp [writeOpcode]
  rw [h]
  simp [add, Layout.write]

end Prog

theorem fuseLast_append (pre : List Operands) {code : List Operands} (h : 2 ≤ code.length) :
    fuseLast (pre ++ code) = (fuseLast code).map (pre ++ ·) := by
  unfold fuseLast
  rw [List.reverse_append]
  have hlen : code.reverse.length = code.length := List.length_reverse
  cases hrev : code.reverse with
  | nil =>
    rw [hrev, List.length_nil] at hlen
    omega
  | cons cur rest =>
    cases rest with
    | nil =>
      rw [hrev, List.length_singleton] at hlen
      omega
    | cons prev rest =>
      simp only [List.cons_append, Option.map_map]
      cases fuse prev cur <;> simp

theorem Prog.optimize_add (p : Prog) (x : Layout) : (p.add x).optimize = p.add x.optimize := by
  have hpos : (p.add x).getOpcodePos - (p.add x).optimizeOffs = x.code.length - x.optimizeOffs := by
    simp only [Prog.getOpcodePos, Prog.add, List.length_append]
    omega
  unfold Prog.optimize Layout.optimize Layout.fused
  rw [hpos]
  by_cases h : 2 ≤ x.code.length - x.optimizeOffs
  · rw [if_pos h, if_pos h]
    have hfuse : fuseLast (p.add x).opcodes = (fuseLast x.code).map (p.opcodes ++ ·) := fuseLast_append p.opcodes (by omega)
    rw [hfuse]
    cases fuseLast x.code with
    | none => rfl
    | some code => simp [Prog.add]
  · rw [if_neg h, if_neg h]

namespace Prog

theorem fixJump_add (q : Prog) (x : Layout) (offs : Int) :
    (q.writeJump.add x).fixJumpOpcode offs q.getOpcodePos = (q.writeOpcode (.jump offs)).add x := by
  simp [fixJumpOpcode, add, writeJump, writeOpcode, getOpcodePos]

theorem getOpcodePos_add (p : Prog) (x : Layout) : (p.add x).getOpcodePos = p.getOpcodePos + x.code.length := by
  simp [add, getOpcodePos]

theorem getOpcodePos_writeOpcode (p : Prog) (x : Operands) : (p.writeOpcode x).getOpcodePos = p.getOpcodePos + 1 := by
  simp [writeOpcode, getOpcodePos]

theorem fixJump_optimizeFromHere (p : Prog) (offs : Int) (pos : Nat) :
    p.optimizeFromHere.fixJumpOpcode offs pos = (p.fixJumpOpcode offs pos).optimizeFromHere := by
  simp [fixJumpOpcode, optimizeFromHere, getOpcodePos]

theorem add_optimizeFromHere (p : Prog) (x : Layout) : (p.add x).optimizeFromHere = p.add x.optimizeFromHere := by
  simp [add, optimizeFromHere, getOpcodePos, Layout.optimizeFromHere]

end Prog

theorem writeOpcodes_branch (p : Prog) (l r : Layout) (test : Operands) :
    let q := (p.add l).writeOpcode test
    (q.writeJump.add r).fixJumpOpcode ((q.writeJump.add r).getOpcodePos - q.getOpcodePos - 1) q.getOpcodePos =
      p.add (((l.write [test, .jump r.code.length]).append r).land) := by
  intro q
  have hoffs : ((q.writeJump.add r).getOpcodePos : Int) - q.getOpcodePos - 1 = r.code.length := by
    rw [Prog.getOpcodePos_add, Prog.writeJump, Prog.getOpcodePos_writeOpcode]
    omega
  rw [Prog.fixJump_add, hoffs]
  show _ = p.add ((l.write [test, .jump r.code.length]).append r)
  rw [Prog.add_append, Prog.add_write]
  rfl

theorem writeOpcodes_question (p : Prog) (x l r : Layout) (test : Operands) :
    let q := (p.add x).writeOpcode test
    let q1 := (q.writeJump.add l).optimizeFromHere
    let q2 := (q1.writeJump.add r).optimizeFromHere
    (q2.fixJumpOpcode (q2.getOpcodePos - q1.getOpcodePos - 1) q1.getOpcodePos).fixJumpOpcode
        (q1.writeJump.getOpcodePos - q.getOpcodePos - 1) q.getOpcodePos =
      p.add ((((x.write [test, .jump (l.code.length + 1)]).append (l.write [.jump r.code.length])).land.append
        r).land.optimizeFromHere) := by
  intro q q1 q2
  have h1 : (q2.getOpcodePos : Int) - q1.getOpcodePos - 1 = r.code.length := by
    show ((q1.writeJump.add r).getOpcodePos : Int) - _ - 1 = _
    rw [Prog.getOpcodePos_add, Prog.writeJump, Prog.getOpcodePos_writeOpcode]
    omega
  have h2 : (q1.writeJump.getOpcodePos : Int) - q.getOpcodePos - 1 = l.code.length + 1 := by
    rw [Prog.writeJump, Prog.getOpcodePos_writeOpcode]
    show (((q.writeJump.add l).getOpcodePos + 1 : Nat) : Int) - _ - 1 = _
    rw [Prog.getOpcodePos_add, Prog.writeJump, Prog.getOpcodePos_writeOpcode]
    omega
  have h3 : q2.fixJumpOpcode (q2.getOpcodePos - q1.getOpcodePos - 1) q1.getOpcodePos =
      (q.writeJump.add ((l.write [.jump r.code.length]).append r)).optimizeFromHere := by
    rw [h1, Prog.add_append, Prog.add_write, Prog.fixJump_optimizeFromHere, Prog.fixJump_add]
    rfl
  rw [h3, h2, Prog.fixJump_optimizeFromHere, Prog.fixJump_add, ← Prog.add_optimizeFromHere]
  show ((q.writeOpcode _).add _).optimizeFromHere = (p.add (((x.write _).append (l.write _)).append r)).optimizeFromHere
  simp only [Prog.add_append, Prog.add_write]
  rfl

theorem writeOpcodes_eq : (∀ (n : Node) (p : Prog), writeOpcodes n p = p.add (layout n)) ∧
    ∀ (opt : Bool) (ns : List Node) (p : Prog), ns ≠ [] ∨ p.optimizeOffs = p.opcodes.length →
      writeList opt ns p = p.add (layoutList opt ns) := by
  have hlist : ∀ (opt : Bool) (ns : List Node) (p : Prog),
      (∀ p : Prog, ns ≠ [] ∨ p.optimizeOffs = p.opcodes.length → writeList opt ns p = p.add (layoutList opt ns)) →
      writeList opt ns p.optimizeFromHere = p.add (layoutList opt ns) := by
    intro opt ns p h
    rw [h _ (.inr rfl)]
    rfl
  refine layout.mutual_induct _ _ ?and ?or ?question ?node ?nil ?single ?cons
  case and =>
    intro a b c l r hr hl p
    rw [writeOpcodes, layout, hl, ← writeOpcodes_branch]
    simp only [hr]
  case or =>
    intro a b c l r hr hl p
    rw [writeOpcodes, layout, hl, ← writeOpcodes_branch]
    simp only [hr]
  case question =>
    intro a b c type a' b' c' list l r hlist' hc hl hr p
    have hcond : (if type.isTest then writeList type.optimized list p.optimizeFromHere else
        writeOpcodes ⟨type, a', b', c', list⟩ p) =
        p.add (if type.isTest then layoutList type.optimized list else layout ⟨type, a', b', c', list⟩) := by
      by_cases ht : type.isTest = true
      · rw [if_pos ht, if_pos ht, hlist _ _ _ hlist']
      · rw [if_neg ht, if_neg ht, hc]
    rw [writeOpcodes, layout, hcond, ← writeOpcodes_question]
    simp only [hl, hr]
    rfl
  case node =>
    intro type a b c list hand hor hq h p
    rw [writeOpcodes, layout, Prog.add_write, hlist _ _ _ h]
    all_goals assumption
  case nil =>
    intro opt p hp
    rcases hp with hp | hp
    · exact (hp rfl).elim
    · simp [Prog.add, Layout.empty, ← hp]
  case single =>
    intro opt n h p hp
    cases opt with
    | true => simp [writeList, layoutList, h, Prog.optimize_add]
    | false => simp [writeList, layoutList, h]
  case cons =>
    intro opt n ns hns h hs p hp
    have hns' : ns ≠ [] := fun h => hns h
    rw [layoutList]
    · cases opt with
      | true => simp [writeList, h, hs, hns', Prog.optimize_add, Prog.add_append]
      | false => simp [writeList, h, hs, hns', Prog.add_append]
    · exact hns

theorem Layout.optimize_crossed {x : Layout} (h : x.optimize.crossed = false) : x.crossed = false := by
  unfold Layout.optimize at h
  cases hx : x.fused with
  | none =>
    rw [hx] at h
    exact h
  | some code =>
    rw [hx] at h
    exact (Bool.or_eq_false_iff.1 h).1

theorem Layout.optimize_written (x : Layout) : x.optimize.written = x.written := by
  unfold Layout.optimize
  cases x.fused <;> rfl

end NewVM
end Compiler
end ObjectScript
