import ObjectScript.Lib.Entries
/-!
# The recursion of accessors

A call of `__get` or `__set` is counted under its object and name, in one of the two objects of counters, and refused when
three of them are active.  Counters are entered and left around the call, whether or not it raises an exception.

As long as no call is refused and no name is a number that is not one, the counters are those of the active calls and the
value stack is left as it was (`counters_exact`).  A refused call leaves two values on it (`refused_leaks`).
-/
namespace ObjectScript
namespace Objects

open Entries

/-- `__get` and `__set`. -/
inductive Accessor where
  | get | set
deriving DecidableEq, Repr

abbrev ObjectRef := Nat

inductive StackValue where
  | null
  /-- The object of counters of this object. -/
  | counters (obj : ObjectRef)
  | number (i : Nat)
deriving DecidableEq, Repr

/-- The names are compared as keys of a table are. -/
structure RecursionState (κ : Type) where
  check_get_recursion : List (ObjectRef × List (κ × Nat))
  check_set_recursion : List (ObjectRef × List (κ × Nat))
  stack_values : List StackValue

structure AccessorCall (κ : Type) where
  accessor : Accessor
  obj : ObjectRef
  name : κ
deriving DecidableEq

namespace RecursionState

variable {κ : Type} [BEq κ]

def root (s : RecursionState κ) : Accessor → List (ObjectRef × List (κ × Nat))
  | .get => s.check_get_recursion
  | .set => s.check_set_recursion

def setRoot (s : RecursionState κ) (root : List (ObjectRef × List (κ × Nat))) : Accessor → RecursionState κ
  | .get => { s with check_get_recursion := root }
  | .set => { s with check_set_recursion := root }

def push (s : RecursionState κ) (v : StackValue) : RecursionState κ := { s with stack_values := v :: s.stack_values }

def pop (s : RecursionState κ) (n : Nat) : RecursionState κ := { s with stack_values := s.stack_values.drop n }

/-- `pushRecursion`; a number that was not refused is below 4. -/
def pushRecursion (s : RecursionState κ) (call : AccessorCall κ) : Bool × RecursionState κ :=
  match find (s.root call.accessor) call.obj with
  | none =>
    let s := s.push .null
    let s := s.push (.counters call.obj)
    let s := s.setRoot (put (s.root call.accessor) call.obj (put [] call.name 1)) call.accessor
    (true, s.pop 2)
  | some object =>
    let s := s.push (.counters call.obj)
    match find object call.name with
    | none =>
      let s := s.push .null
      let s := s.setRoot (put (s.root call.accessor) call.obj (put object call.name 1)) call.accessor
      (true, s.pop 2)
    | some count =>
      let s := s.push (.number count)
      let i := count + 1
      if i < 4 then
        let s := s.setRoot (put (s.root call.accessor) call.obj (put object call.name i)) call.accessor
        (true, s.pop 2)
      else (false, s)

def popRecursion (s : RecursionState κ) (call : AccessorCall κ) : RecursionState κ :=
  match find (s.root call.accessor) call.obj with
  | none => (s.push .null).pop 1
  | some object =>
    let s := s.push (.counters call.obj)
    match find object call.name with
    | none => (s.push .null).pop 2
    | some count =>
      let s := s.push (.number count)
      let i := count - 1
      let s :=
        if i ≤ 0 then
          if object.length ≤ 1 then s.setRoot (remove (s.root call.accessor) call.obj) call.accessor
          else s.setRoot (put (s.root call.accessor) call.obj (remove object call.name)) call.accessor
        else s.setRoot (put (s.root call.accessor) call.obj (put object call.name i)) call.accessor
      s.pop 2

def counter (s : RecursionState κ) (call : AccessorCall κ) : Option Nat :=
  (find (s.root call.accessor) call.obj).bind fun object => find object call.name

end RecursionState

/-- What an accessor does that matters here: it calls accessors, and comes to its end, with an exception or without. -/
inductive AccessorOp (κ : Type) where
  | enter (call : AccessorCall κ)
  /-- The call that was entered last ends. -/
  | leave

structure Accessors (κ : Type) where
  guard : RecursionState κ
  active : List (AccessorCall κ)

namespace Accessors

variable {κ : Type} [BEq κ]

def start : Accessors κ := ⟨⟨[], [], []⟩, []⟩

def step (s : Accessors κ) : AccessorOp κ → Option (Accessors κ)
  | .enter call =>
    let r := s.guard.pushRecursion call
    some (if r.1 then ⟨r.2, call :: s.active⟩ else ⟨r.2, s.active⟩)
  | .leave =>
    match s.active with
    | [] => none
    | call :: active => some ⟨s.guard.popRecursion call, active⟩

def run : Accessors κ → List (AccessorOp κ) → Option (Accessors κ)
  | s, [] => some s
  | s, op :: ops => (s.step op).bind fun s' => run s' ops

/-- The calls of this accessor for this name of this object that are active. -/
def numActive (active : List (AccessorCall κ)) (call : AccessorCall κ) : Nat :=
  active.countP fun c => decide (c.accessor = call.accessor) && decide (c.obj = call.obj) && c.name == call.name

/-- **The call is counted**: it is not the fourth one, and its name equals itself. -/
def Counted (s : Accessors κ) : AccessorOp κ → Prop
  | .enter call => numActive s.active call < 3 ∧ (call.name == call.name) = true
  | .leave => True

def CountedRun : Accessors κ → List (AccessorOp κ) → Prop
  | _, [] => True
  | s, op :: ops => s.Counted op ∧ ∀ s', s.step op = some s' → CountedRun s' ops

/-- The counter that stands for a number of calls: none for no call. -/
def ofCount (n : Nat) : Option Nat := if n = 0 then none else some n

end Accessors

namespace RecursionState

variable {κ : Type} [BEq κ] (s : RecursionState κ)

omit [BEq κ]

theorem root_setRoot (r : List (ObjectRef × List (κ × Nat))) (a b : Accessor) :
    (s.setRoot r a).root b = if a = b then r else s.root b := by
  cases a <;> cases b <;> rfl

theorem stack_setRoot (r : List (ObjectRef × List (κ × Nat))) (a : Accessor) :
    (s.setRoot r a).stack_values = s.stack_values := by
  cases a <;> rfl

/-- What is pushed before the counters are written is popped after. -/
theorem setRoot_push (v : StackValue) (r : List (ObjectRef × List (κ × Nat))) (a : Accessor) :
    (s.push v).setRoot r a = (s.setRoot r a).push v := by
  cases a <;> rfl

theorem root_push (v : StackValue) (a : Accessor) : (s.push v).root a = s.root a := by
  cases a <;> rfl

theorem pop_two (v w : StackValue) : ((s.push v).push w).pop 2 = s := rfl

variable [BEq κ] {s} {call : AccessorCall κ} {n : Nat}

/-- **A call that is not refused** adds one to its counter. -/
theorem pushRecursion_eq (h : s.counter call = Accessors.ofCount n) (hn : n < 3) :
    s.pushRecursion call = (true, s.setRoot (put (s.root call.accessor) call.obj
      (put ((find (s.root call.accessor) call.obj).getD []) call.name (n + 1))) call.accessor) := by
  rw [counter, Accessors.ofCount] at h
  cases hobj : find (s.root call.accessor) call.obj with
  | none =>
    rw [hobj] at h
    have hzero : n = 0 := by
      by_contra hne
      rw [if_neg hne] at h
      cases h
    subst hzero
    simp only [pushRecursion, hobj, root_push, setRoot_push, pop_two, Option.getD_none, Nat.zero_add]
  | some object =>
    rw [hobj, Option.bind_some] at h
    cases hname : find object call.name with
    | none =>
      have hzero : n = 0 := by
        by_contra hne
        rw [hname, if_neg hne] at h
        cases h
      subst hzero
      simp only [pushRecursion, hobj, hname, root_push, setRoot_push, pop_two, Option.getD_some, Nat.zero_add]
    | some count =>
      have heq : count = n := by
        by_cases hzero : n = 0
        · rw [hname, if_pos hzero] at h
          cases h
        · rw [hname, if_neg hzero] at h
          exact Option.some.inj h
      subst heq
      have hlt : count + 1 < 4 := by omega
      simp only [pushRecursion, hobj, hname, root_push, setRoot_push, if_pos hlt, pop_two, Option.getD_some]

/-- The end of a call takes one from its counter, and the counter away that would be zero. -/
theorem popRecursion_eq {object : List (κ × Nat)} (hobj : find (s.root call.accessor) call.obj = some object)
    (hname : find object call.name = some (n + 1)) :
    s.popRecursion call = s.setRoot
      (if n = 0 then
        if object.length ≤ 1 then remove (s.root call.accessor) call.obj
        else put (s.root call.accessor) call.obj (remove object call.name)
      else put (s.root call.accessor) call.obj (put object call.name n)) call.accessor := by
  by_cases hzero : n = 0
  · have hle : n + 1 - 1 ≤ 0 := by omega
    by_cases hlen : object.length ≤ 1
    · simp only [popRecursion, hobj, hname, if_pos hle, if_pos hzero, if_pos hlen, root_push, setRoot_push, pop_two]
    · simp only [popRecursion, hobj, hname, if_pos hle, if_pos hzero, if_neg hlen, root_push, setRoot_push, pop_two]
  · have hgt : ¬ n ≤ 0 := by omega
    simp only [popRecursion, hobj, hname, Nat.add_sub_cancel, if_neg hgt, if_neg hzero, root_push, setRoot_push, pop_two]

end RecursionState

namespace Accessors

variable {κ : Type} [BEq κ]

/-- The counters of an object: there is one, and each is of a name that equals itself. -/
structure WellCounted (object : List (κ × Nat)) : Prop where
  ne_nil : object ≠ []
  distinct : Distinct object
  names : ∀ q ∈ object, (q.1 == q.1) = true

/-- **The counters are those of the active calls**, and the value stack is as it was. -/
structure Exact (s : Accessors κ) : Prop where
  stack : s.guard.stack_values = []
  distinct : ∀ a, Distinct (s.guard.root a)
  objects : ∀ a, ∀ p ∈ s.guard.root a, WellCounted p.2
  names : ∀ c ∈ s.active, (c.name == c.name) = true
  counter_eq : ∀ call, s.guard.counter call = ofCount (numActive s.active call)

theorem start_exact : Exact (start : Accessors κ) where
  stack := rfl
  distinct a := by cases a <;> exact List.Pairwise.nil
  objects a p h := by cases a <;> cases h
  names _ h := by cases h
  counter_eq call := by
    rcases call with ⟨_ | _, obj, name⟩ <;> rfl

theorem Exact.absent {s : Accessors κ} (h : s.Exact) (hnone : s.active = []) (a : Accessor) : s.guard.root a = [] := by
  cases hroot : s.guard.root a with
  | nil => rfl
  | cons p l =>
    have hmem : p ∈ s.guard.root a := by
      rw [hroot]
      exact List.mem_cons_self
    obtain ⟨hne, hdistinct, hrefl⟩ := h.objects a p hmem
    obtain ⟨q, hq⟩ := List.exists_mem_of_ne_nil _ hne
    have hobj : find (s.guard.root a) p.1 = some p.2 := find_of_mem (h.distinct a) hmem (beq_self_eq_true _)
    have hname : find p.2 q.1 = some q.2 := find_of_mem hdistinct hq (hrefl q hq)
    have hcounter := h.counter_eq ⟨a, p.1, q.1⟩
    have hzero : numActive s.active ⟨a, p.1, q.1⟩ = 0 := by rw [hnone]; rfl
    rw [RecursionState.counter, hobj, Option.bind_some, hname, hzero] at hcounter
    cases hcounter

/-- They are calls of the same accessor for the same name. -/
def Same (c call : AccessorCall κ) : Prop := c.accessor = call.accessor ∧ c.obj = call.obj ∧ (c.name == call.name) = true

instance (c call : AccessorCall κ) : Decidable (Same c call) := inferInstanceAs (Decidable (_ ∧ _ ∧ _))

theorem numActive_cons (c : AccessorCall κ) (active : List (AccessorCall κ)) (call : AccessorCall κ) :
    numActive (c :: active) call = numActive active call + if Same c call then 1 else 0 := by
  rw [numActive, List.countP_cons]
  congr 1
  refine if_congr ?_ rfl rfl
  simp only [Same, Bool.and_eq_true, decide_eq_true_eq, and_assoc]

/-- The counter of a call after the counters of an object were written. -/
theorem counter_put [PartialEquivBEq κ] (s : RecursionState κ) (a : Accessor) (obj : ObjectRef) (object : List (κ × Nat))
    (call : AccessorCall κ) : (s.setRoot (put (s.root a) obj object) a).counter call =
      if a = call.accessor ∧ obj = call.obj then find object call.name else s.counter call := by
  rw [RecursionState.counter, RecursionState.root_setRoot]
  by_cases ha : a = call.accessor
  · by_cases hobj : obj = call.obj
    · rw [if_pos ha, if_pos ⟨ha, hobj⟩, find_put, if_pos (beq_iff_eq.2 hobj), Option.bind_some]
    · rw [if_pos ha, if_neg fun h => hobj h.2, find_put, if_neg fun h => hobj (beq_iff_eq.1 h), ha, RecursionState.counter]
  · rw [if_neg ha, if_neg fun h => ha h.1, RecursionState.counter]

theorem counter_remove [PartialEquivBEq κ] {s : RecursionState κ} {a : Accessor} (hd : Distinct (s.root a)) (obj : ObjectRef)
    (call : AccessorCall κ) : (s.setRoot (remove (s.root a) obj) a).counter call =
      if a = call.accessor ∧ obj = call.obj then none else s.counter call := by
  rw [RecursionState.counter, RecursionState.root_setRoot]
  by_cases ha : a = call.accessor
  · by_cases hobj : obj = call.obj
    · rw [if_pos ha, if_pos ⟨ha, hobj⟩, find_remove hd, if_pos (beq_iff_eq.2 hobj), Option.bind_none]
    · rw [if_pos ha, if_neg fun h => hobj h.2, find_remove hd, if_neg fun h => hobj (beq_iff_eq.1 h), ha, RecursionState.counter]
  · rw [if_neg ha, if_neg fun h => ha h.1, RecursionState.counter]

theorem Exact.object {s : Accessors κ} (h : s.Exact) {a : Accessor} {obj : ObjectRef} {object : List (κ × Nat)}
    (hobj : find (s.guard.root a) obj = some object) :
    WellCounted object := by
  obtain ⟨k, hmem, -⟩ := mem_of_find hobj
  exact h.objects a _ hmem

theorem wellCounted_put {object : List (κ × Nat)} (hdistinct : Distinct object) (hnames : ∀ q ∈ object, (q.1 == q.1) = true)
    {name : κ} (hrefl : (name == name) = true) {n : Nat} : WellCounted (put object name n) := by
  refine ⟨put_ne_nil _ _ _, hdistinct.put _ _, fun q hq => ?_⟩
  rcases mem_put hq with hq | ⟨-, hq | ⟨q', hq', hq⟩⟩
  · exact hnames q hq
  · rw [hq]
    exact hrefl
  · rw [hq]
    exact hnames q' hq'

/-- The counters there were, and those that were written for one object. -/
theorem objects_put {root : List (ObjectRef × List (κ × Nat))} {object : List (κ × Nat)} {obj : ObjectRef}
    (hroot : ∀ p ∈ root, WellCounted p.2) (hobject : WellCounted object) : ∀ p ∈ put root obj object, WellCounted p.2 := by
  intro p hp
  rcases mem_put hp with hp | ⟨heq, -⟩
  · exact hroot p hp
  · rw [heq]
    exact hobject

/-- A state whose counters of one accessor were written, with the active calls it is to have. -/
theorem Exact.write {s : Accessors κ} (h : s.Exact) {a : Accessor} {root : List (ObjectRef × List (κ × Nat))}
    {active : List (AccessorCall κ)} (hdistinct : Distinct root)
    (hobjects : ∀ p ∈ root, WellCounted p.2)
    (hnames : ∀ c ∈ active, (c.name == c.name) = true)
    (hcounter : ∀ call, (s.guard.setRoot root a).counter call = ofCount (numActive active call)) :
    Exact ⟨s.guard.setRoot root a, active⟩ := by
  refine ⟨(RecursionState.stack_setRoot _ _ _).trans h.stack, fun b => ?_, fun b p hp => ?_, hnames, hcounter⟩
  · change Distinct ((s.guard.setRoot root a).root b)
    rw [RecursionState.root_setRoot]
    split
    · exact hdistinct
    · exact h.distinct b
  · change p ∈ (s.guard.setRoot root a).root b at hp
    rw [RecursionState.root_setRoot] at hp
    split at hp
    · exact hobjects p hp
    · exact h.objects b p hp

variable [PartialEquivBEq κ]

theorem numActive_congr {c call : AccessorCall κ} (h : Same c call) (active : List (AccessorCall κ)) :
    numActive active c = numActive active call := by
  obtain ⟨ha, hobj, hname⟩ := h
  rw [numActive, numActive, ha, hobj]
  congr 1
  funext d
  rw [beq_congr_right hname d.name]

/-- **A call that is counted** and not refused. -/
theorem enter_exact {s : Accessors κ} (h : s.Exact) {call : AccessorCall κ} (hcounted : s.Counted (.enter call)) :
    ∃ s', s.step (.enter call) = some s' ∧ s'.Exact := by
  obtain ⟨hlt, hrefl⟩ := hcounted
  have hcall := h.counter_eq call
  have hpush := RecursionState.pushRecursion_eq hcall hlt
  obtain ⟨object, hobject⟩ : ∃ object, object = (find (s.guard.root call.accessor) call.obj).getD [] := ⟨_, rfl⟩
  rw [← hobject] at hpush
  have hold : Distinct object ∧ (∀ q ∈ object, (q.1 == q.1) = true) ∧
      ∀ name, find object name = s.guard.counter ⟨call.accessor, call.obj, name⟩ := by
    cases hobj : find (s.guard.root call.accessor) call.obj with
    | none =>
      rw [hobj, Option.getD_none] at hobject
      subst hobject
      exact ⟨List.Pairwise.nil, fun q hq => absurd hq List.not_mem_nil, fun name => by rw [RecursionState.counter, hobj]; rfl⟩
    | some o =>
      rw [hobj, Option.getD_some] at hobject
      subst hobject
      obtain ⟨-, hdistinct, hnames⟩ := h.object hobj
      exact ⟨hdistinct, hnames, fun name => by rw [RecursionState.counter, hobj]; rfl⟩
  obtain ⟨hdistinct, hnames, hfind⟩ := hold
  refine ⟨⟨s.guard.setRoot _ call.accessor, call :: s.active⟩, by simp only [step, hpush, if_true]; rfl,
    h.write ((h.distinct _).put _ _) ?_ ?_ fun call' => ?_⟩
  · exact objects_put (h.objects call.accessor) (wellCounted_put hdistinct hnames hrefl)
  · intro c hc
    rcases List.mem_cons.1 hc with rfl | hc
    · exact hrefl
    · exact h.names c hc
  · rw [counter_put]
    by_cases hsame : Same call call'
    · have hcons := numActive_cons call s.active call'
      have hn := numActive_congr hsame s.active
      rw [if_pos hsame] at hcons
      obtain ⟨ha, hobj, hname⟩ := hsame
      rw [hcons, if_pos ⟨ha, hobj⟩, find_put, if_pos hname, hn]
      exact (if_neg (Nat.succ_ne_zero _)).symm
    · have hcons := numActive_cons call s.active call'
      rw [if_neg hsame, Nat.add_zero] at hcons
      rw [hcons, ← h.counter_eq call']
      split
      · rename_i hkey
        have hname : ¬ (call.name == call'.name) = true := fun hn => hsame ⟨hkey.1, hkey.2, hn⟩
        rw [find_put, if_neg hname, hfind, hkey.1, hkey.2]
      · rfl

/-- **The end of a call.** -/
theorem leave_exact {s s' : Accessors κ} (h : s.Exact) (hs : s.step .leave = some s') : s'.Exact := by
  rw [step] at hs
  split at hs
  · cases hs
  · rename_i call active hactive
    obtain rfl := Option.some.inj hs
    have hrefl : (call.name == call.name) = true := h.names call (by rw [hactive]; exact List.mem_cons_self)
    have hself : Same call call := ⟨rfl, rfl, hrefl⟩
    have hcall := h.counter_eq call
    rw [hactive, numActive_cons, if_pos hself, ofCount, if_neg (Nat.succ_ne_zero _), RecursionState.counter,
      Option.bind_eq_some_iff] at hcall
    obtain ⟨object, hobj, hname⟩ := hcall
    obtain ⟨n, hn⟩ : ∃ n, n = numActive active call := ⟨_, rfl⟩
    rw [← hn] at hname
    obtain ⟨-, hdistinct, hnames⟩ := h.object hobj
    have hfind : ∀ call', call.accessor = call'.accessor ∧ call.obj = call'.obj →
        find object call'.name = s.guard.counter call' := fun call' hkey => by
      rw [RecursionState.counter, ← hkey.1, ← hkey.2, hobj, Option.bind_some]
    -- A counter that is not the one of the call is as it was; the one of the call is what is left of it.
    have hrest : ∀ call', (if Same call call' then ofCount n else s.guard.counter call') = ofCount (numActive active call') := by
      intro call'
      have hold := h.counter_eq call'
      rw [hactive, numActive_cons] at hold
      split
      · rename_i hsame
        rw [hn, numActive_congr hsame]
      · rename_i hsame
        rw [if_neg hsame, Nat.add_zero] at hold
        exact hold
    have hleft : ∀ c ∈ active, (c.name == c.name) = true :=
      fun c hc => h.names c (by rw [hactive]; exact List.mem_cons_of_mem _ hc)
    rw [RecursionState.popRecursion_eq hobj hname]
    by_cases hzero : n = 0
    · rw [if_pos hzero]
      split
      · rename_i hlen
        refine h.write ((h.distinct _).remove _) (fun p hp => h.objects _ p (remove_subset hp)) hleft fun call' => ?_
        rw [← hrest, counter_remove (h.distinct _)]
        by_cases hkey : call.accessor = call'.accessor ∧ call.obj = call'.obj
        · rw [if_pos hkey]
          split
          · rw [hzero]
            rfl
          · rename_i hsame
            rw [← hfind call' hkey]
            have hsingle := length_remove hname
            have hnil : remove object call.name = [] := List.length_eq_zero_iff.1 (by omega)
            have hgone := find_remove hdistinct call.name call'.name
            rw [hnil, if_neg fun hn => hsame ⟨hkey.1, hkey.2, hn⟩] at hgone
            exact hgone
        · rw [if_neg hkey, if_neg fun hsame => hkey ⟨hsame.1, hsame.2.1⟩]
      · rename_i hlen
        have hlength := length_remove hname
        have hne : remove object call.name ≠ [] := fun hnil => by
          rw [hnil, List.length_nil] at hlength
          omega
        have hwell : WellCounted (remove object call.name) := ⟨hne, hdistinct.remove _, fun q hq => hnames q (remove_subset hq)⟩
        refine h.write ((h.distinct _).put _ _) (objects_put (h.objects _) hwell) hleft fun call' => ?_
        rw [← hrest, counter_put]
        by_cases hkey : call.accessor = call'.accessor ∧ call.obj = call'.obj
        · rw [if_pos hkey, find_remove hdistinct, hfind call' hkey, hzero]
          by_cases hname' : (call.name == call'.name) = true
          · rw [if_pos hname', if_pos (show Same call call' from ⟨hkey.1, hkey.2, hname'⟩)]
            rfl
          · rw [if_neg hname', if_neg fun hsame => hname' hsame.2.2]
        · rw [if_neg hkey, if_neg fun hsame => hkey ⟨hsame.1, hsame.2.1⟩]
    · rw [if_neg hzero]
      refine h.write ((h.distinct _).put _ _) (objects_put (h.objects _) (wellCounted_put hdistinct hnames hrefl)) hleft
        fun call' => ?_
      rw [← hrest, counter_put]
      by_cases hkey : call.accessor = call'.accessor ∧ call.obj = call'.obj
      · rw [if_pos hkey, find_put, hfind call' hkey, ofCount, if_neg hzero]
        by_cases hname' : (call.name == call'.name) = true
        · rw [if_pos hname', if_pos (show Same call call' from ⟨hkey.1, hkey.2, hname'⟩)]
        · rw [if_neg hname', if_neg fun hsame => hname' hsame.2.2]
      · rw [if_neg hkey, if_neg fun hsame => hkey ⟨hsame.1, hsame.2.1⟩]

theorem run_exact : ∀ (ops : List (AccessorOp κ)) {s s' : Accessors κ}, s.Exact → CountedRun s ops → s.run ops = some s' →
    s'.Exact
  | [], s, s', h, _, hr => Option.some.inj hr ▸ h
  | op :: ops, s, s', h, hcounted, hr => by
    obtain ⟨s1, hs, hr⟩ := Option.bind_eq_some_iff.1 hr
    refine run_exact ops ?_ (hcounted.2 s1 hs) hr
    cases op with
    | enter call =>
      obtain ⟨s2, hs2, h2⟩ := enter_exact h hcounted.1
      rw [hs2] at hs
      exact Option.some.inj hs ▸ h2
    | leave => exact leave_exact h hs

/-- **The guard of the accessors**: in a run whose calls are counted, after every step the value stack is as it was, each
counter is the number of active calls of its object and name, and when no call is active no counter is left. -/
theorem counters_exact (ops : List (AccessorOp κ)) {s : Accessors κ} (hcounted : CountedRun start ops)
    (hr : start.run ops = some s) :
    s.guard.stack_values = [] ∧ (∀ call, s.guard.counter call = ofCount (numActive s.active call)) ∧
      (s.active = [] → s.guard.check_get_recursion = [] ∧ s.guard.check_set_recursion = []) := by
  have h := run_exact ops start_exact hcounted hr
  exact ⟨h.stack, h.counter_eq, fun hnone => ⟨h.absent hnone .get, h.absent hnone .set⟩⟩

end Accessors

/-- A name that is got while it is got, and another one that is set. -/
theorem counters_exact_nested : ∃ s : Accessors Nat,
    Accessors.run .start [.enter ⟨.get, 0, 5⟩, .enter ⟨.get, 0, 5⟩, .leave, .enter ⟨.set, 0, 6⟩, .leave, .leave] = some s ∧
      s.guard.stack_values = [] := by
  have hsome : (Accessors.run (Accessors.start : Accessors Nat)
      [.enter ⟨.get, 0, 5⟩, .enter ⟨.get, 0, 5⟩, .leave, .enter ⟨.set, 0, 6⟩, .leave, .leave]).isSome := by decide
  obtain ⟨s, hr⟩ := Option.isSome_iff_exists.1 hsome
  refine ⟨s, hr, (Accessors.counters_exact _ ?_ hr).1⟩
  refine ⟨⟨by decide, rfl⟩, fun s₁ h₁ => ?_⟩
  obtain rfl := Option.some.inj h₁
  refine ⟨⟨by decide, rfl⟩, fun s₂ h₂ => ?_⟩
  obtain rfl := Option.some.inj h₂
  refine ⟨trivial, fun s₃ h₃ => ?_⟩
  obtain rfl := Option.some.inj h₃
  refine ⟨⟨by decide, rfl⟩, fun s₄ h₄ => ?_⟩
  obtain rfl := Option.some.inj h₄
  exact ⟨trivial, fun s₅ _ => ⟨trivial, fun _ _ => trivial⟩⟩

/-- **A getter that gets its own name** is refused the fourth time, and two values stay on the stack. -/
theorem refused_leaks : ¬ ∀ (ops : List (AccessorOp Nat)) (s : Accessors Nat), Accessors.run .start ops = some s →
    s.guard.stack_values = [] := by
  intro h
  have hrefused := h [.enter ⟨.get, 0, 5⟩, .enter ⟨.get, 0, 5⟩, .enter ⟨.get, 0, 5⟩, .enter ⟨.get, 0, 5⟩] _ rfl
  exact absurd hrefused (by decide)

end Objects
end ObjectScript
