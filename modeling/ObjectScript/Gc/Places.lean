import ObjectScript.Gc.Moves
/-!
# Putting a value in a place

What is in a place is owned once, whatever the place is: when another value is put there, the one that was there is
owned once less and the new one once more (`exchanged_putPlace`).

The places are the slots of the stack, the fields of values and locals, the tables, and the roots of the core.  A place
in an object that is gone has nothing in it, so putting something there needs the object to be live.
-/
namespace ObjectScript
namespace Gc

open ObjectScript.Core (Ref)
open State

variable {s t : State} {E : Obj → Prop} {c d : Obj → Int} {cs ds : List Ref}

/-! ## Counting in lists -/

theorem count_flatMap_set {α : Type*} {f : α → List Obj} {x y : α} : ∀ {xs : List α} {i : Nat}, xs[i]? = some x → ∀ o : Obj,
    ((xs.set i y).flatMap f).count o + (f x).count o = (xs.flatMap f).count o + (f y).count o
  | [], i, h, o => by cases h
  | z :: zs, 0, h, o => by
    obtain rfl := Option.some.inj h
    simp only [List.set_cons_zero, List.flatMap_cons, List.count_append]
    omega
  | z :: zs, i + 1, h, o => by
    have ih := count_flatMap_set (y := y) (f := f) (show zs[i]? = some x from h) o
    simp only [List.set_cons_succ, List.flatMap_cons, List.count_append]
    omega

theorem count_flatMap_eraseIdx {α : Type*} {f : α → List Obj} {x : α} : ∀ {xs : List α} {i : Nat}, xs[i]? = some x → ∀ o : Obj,
    ((xs.eraseIdx i).flatMap f).count o + (f x).count o = (xs.flatMap f).count o
  | [], i, h, o => by cases h
  | z :: zs, 0, h, o => by
    obtain rfl := Option.some.inj h
    simp only [List.eraseIdx_cons_zero, List.flatMap_cons, List.count_append]
    omega
  | z :: zs, i + 1, h, o => by
    have ih := count_flatMap_eraseIdx (f := f) (show zs[i]? = some x from h) o
    simp only [List.eraseIdx_cons_succ, List.flatMap_cons, List.count_append]
    omega

theorem modify_eq_set {α : Type*} {g : α → α} {x : α} : ∀ {xs : List α} {i : Nat}, xs[i]? = some x →
    xs.modify i g = xs.set i (g x)
  | [], i, h => by cases h
  | z :: zs, 0, h => by
    obtain rfl := Option.some.inj h
    rfl
  | z :: zs, i + 1, h => by
    rw [List.modify_succ_cons, List.set_cons_succ, modify_eq_set (show zs[i]? = some x from h)]

def propertyHeld (p : Slot × Slot) : List Obj := holding p.1 ++ holding p.2

theorem count_tableHeld (table : List (Slot × Slot)) (o : Obj) :
    (tableHeld table).count o = (table.flatMap propertyHeld).count o :=
  ((List.reverse_perm table).flatMap_right _).count_eq o

/-! ## The places of a value -/

def Payload.held : Payload → List Obj
  | .function prog _ env self locals => locals.toList.map .locals ++ holding env ++ holding self ++ [.program prog]
  | .userdata strings => strings.map .external
  | .array values => holdingAll values
  | .cfunction values => holdingAll values
  | _ => []

theorem GCValue.count_held (g : GCValue) (o : Obj) : g.held.count o =
    g.payload.held.count o + (g.table.flatMap propertyHeld).count o + (holding g.name).count o +
      (holding g.prototype).count o := by
  rw [← count_tableHeld]
  unfold GCValue.held Payload.held
  cases g.payload <;> simp only [List.count_append, List.count_nil] <;> omega

theorem GCValue.count_put {g : GCValue} {f : ValueField} {out : Slot} (h : g.get f = some out) (v : Slot) (o : Obj) :
    (g.put v f).held.count o + (holding out).count o = g.held.count o + (holding v).count o := by
  rw [GCValue.count_held, GCValue.count_held]
  cases f with
  | prototype =>
    obtain rfl := Option.some.inj h
    simp only [GCValue.put]
    omega
  | name =>
    obtain rfl := Option.some.inj h
    simp only [GCValue.put]
    omega
  | index i =>
    obtain ⟨p, hp, rfl⟩ := Option.map_eq_some_iff.1 h
    have hcount := count_flatMap_set (f := propertyHeld) (y := (v, p.2)) hp o
    simp only [GCValue.put, modify_eq_set hp]
    simp only [propertyHeld, List.count_append] at hcount ⊢
    omega
  | property i =>
    obtain ⟨p, hp, rfl⟩ := Option.map_eq_some_iff.1 h
    have hcount := count_flatMap_set (f := propertyHeld) (y := (p.1, v)) hp o
    simp only [GCValue.put, modify_eq_set hp]
    simp only [propertyHeld, List.count_append] at hcount ⊢
    omega
  | element i =>
    cases hp : g.payload with
    | array values =>
      simp only [GCValue.get, hp] at h
      have hcount := count_flatMap_set (f := holding) (y := v) h o
      simp only [GCValue.put, hp, Payload.held, holdingAll]
      omega
    | _ => simp only [GCValue.get, hp, reduceCtorEq] at h
  | closureValue i =>
    cases hp : g.payload with
    | cfunction values =>
      simp only [GCValue.get, hp] at h
      have hcount := count_flatMap_set (f := holding) (y := v) h o
      simp only [GCValue.put, hp, Payload.held, holdingAll]
      omega
    | _ => simp only [GCValue.get, hp, reduceCtorEq] at h

theorem GCValue.get_put {g : GCValue} {f : ValueField} {out : Slot} (h : g.get f = some out) (v : Slot) :
    (g.put v f).get f = some v := by
  cases f with
  | prototype => rfl
  | name => rfl
  | index i =>
    obtain ⟨p, hp, rfl⟩ := Option.map_eq_some_iff.1 h
    simp only [GCValue.get, GCValue.put, List.getElem?_modify_eq, hp]
    rfl
  | property i =>
    obtain ⟨p, hp, rfl⟩ := Option.map_eq_some_iff.1 h
    simp only [GCValue.get, GCValue.put, List.getElem?_modify_eq, hp]
    rfl
  | element i =>
    cases hp : g.payload with
    | array values =>
      simp only [GCValue.get, hp] at h
      simp only [GCValue.get, GCValue.put, hp]
      exact List.getElem?_set_self (List.getElem?_eq_some_iff.1 h).1
    | _ => simp only [GCValue.get, hp, reduceCtorEq] at h
  | closureValue i =>
    cases hp : g.payload with
    | cfunction values =>
      simp only [GCValue.get, hp] at h
      simp only [GCValue.get, GCValue.put, hp]
      exact List.getElem?_set_self (List.getElem?_eq_some_iff.1 h).1
    | _ => simp only [GCValue.get, hp, reduceCtorEq] at h

/-! ## The places of locals and of frames -/

theorem Locals.count_put {l : Locals} {i : Nat} {out : Slot} (h : l.heapValues[i]? = some out) (v : Slot) (o : Obj) :
    (l.put v i).held.count o + (holding out).count o = l.held.count o + (holding v).count o := by
  have hcount := count_flatMap_set (f := holding) (y := v) h o
  have hheap : (l.put v i).heapValues = l.heapValues.set i v := rfl
  unfold Locals.held
  rw [hheap]
  simp only [holdingAll, List.count_append, List.count_cons, Locals.put]
  omega

theorem StackFunction.count_put {f : StackFunction} {k : FrameField} {out : Slot} (h : f.get k = some out) (v : Slot)
    (o : Obj) : (f.put v k).held.count o + (holding out).count o = f.held.count o + (holding v).count o := by
  unfold StackFunction.held
  cases k with
  | subFunc i =>
    have hcount := count_flatMap_set (f := holding) (y := v) (show f.subFuncs[i]? = some out from h) o
    simp only [StackFunction.put, holdingAll, List.count_append, List.count_cons]
    omega
  | _ =>
    obtain rfl := Option.some.inj h
    simp only [StackFunction.put, List.count_append, List.count_cons]
    omega

theorem StackFunction.put_func (f : StackFunction) (v : Slot) (k : FrameField) : (f.put v k).func = f.func := by
  cases k <;> rfl

theorem mem_modify {α : Type*} {g : α → α} {y : α} : ∀ {xs : List α} {i : Nat}, y ∈ xs.modify i g →
    ∃ x ∈ xs, y = x ∨ y = g x
  | [], i, h => by
    rw [List.modify_nil] at h
    cases h
  | z :: zs, 0, h => by
    rw [List.modify_zero_cons] at h
    rcases List.mem_cons.1 h with rfl | h
    · exact ⟨z, List.mem_cons_self, .inr rfl⟩
    · exact ⟨y, List.mem_cons_of_mem _ h, .inl rfl⟩
  | z :: zs, i + 1, h => by
    rw [List.modify_succ_cons] at h
    rcases List.mem_cons.1 h with rfl | h
    · exact ⟨y, List.mem_cons_self, .inl rfl⟩
    · obtain ⟨x, hx, hy⟩ := mem_modify h
      exact ⟨x, List.mem_cons_of_mem _ hx, hy⟩

/-! ## Places -/

/-- **A place owns what is in it.** -/
theorem exchanged_putPlace (h : Sound s E c cs) {place : Place} {out : Slot} (hp : s.getPlace place = some out) (v : Slot) :
    Exchanged s (s.putPlace v place) (holding out) (holding v) := by
  cases place with
  | root i =>
    obtain rfl := Option.some.inj hp
    exact exchanged_root s i v
  | value r f =>
    obtain ⟨g, hg, hf⟩ := Option.bind_eq_some_iff.1 hp
    have hlive : (s.value r).isSome := Option.isSome_of_eq_some hg
    have hx : Exchanged s (s.setValueAt r (some (g.put v f))) (holding out) (holding v) :=
      (exchanged_value hg (h.bounded r hlive)).congr fun o => by
        have hcount := GCValue.count_put hf v o
        omega
    rw [putPlace, hg, Option.map_some]
    exact hx
  | upvalue l i =>
    obtain ⟨loc, hl, hi⟩ := Option.bind_eq_some_iff.1 hp
    have hlive : (s.locals l).isSome := Option.isSome_of_eq_some hl
    have hparents : (loc.put v i).parents = loc.parents := rfl
    have hx : Exchanged s (s.setLocalsAt l (some (loc.put v i))) (holding out) (holding v) :=
      (exchanged_locals hl (h.bounded_locals l hlive) hparents).congr fun o => by
        have hcount := Locals.count_put hi v o
        omega
    rw [putPlace, hl, Option.map_some]
    exact hx
  | frame k f =>
    obtain ⟨func, hfunc, hf⟩ := Option.bind_eq_some_iff.1 hp
    rw [putPlace]
    refine (exchanged_frames fun f' hf' => ?_).congr fun o => ?_
    · obtain ⟨x, hx, rfl | rfl⟩ := mem_modify hf'
      · exact ⟨f', hx, rfl⟩
      · exact ⟨x, hx, (StackFunction.put_func x v f).symm⟩
    · have hcount := count_flatMap_set (f := StackFunction.held) (y := func.put v f) hfunc o
      have hput := StackFunction.count_put hf v o
      rw [modify_eq_set hfunc]
      omega

theorem getPlace_putPlace {place : Place} {out : Slot} (hp : s.getPlace place = some out) (v : Slot) :
    (s.putPlace v place).getPlace place = some v := by
  cases place with
  | root i => exact congrArg some (Function.update_self ..)
  | value r f =>
    obtain ⟨g, hg, hf⟩ := Option.bind_eq_some_iff.1 hp
    have hself : (s.putPlace v (.value r f)).value r = some (g.put v f) := by
      rw [putPlace, hg]
      exact Function.update_self ..
    rw [getPlace, hself]
    exact GCValue.get_put hf v
  | upvalue l i =>
    obtain ⟨loc, hl, hi⟩ := Option.bind_eq_some_iff.1 hp
    have hself : (s.putPlace v (.upvalue l i)).locals l = some (loc.put v i) := by
      rw [putPlace, hl]
      exact Function.update_self ..
    rw [getPlace, hself]
    exact List.getElem?_set_self (List.getElem?_eq_some_iff.1 hi).1
  | frame k f =>
    obtain ⟨func, hfunc, hf⟩ := Option.bind_eq_some_iff.1 hp
    have hself : (s.putPlace v (.frame k f)).callStack[k]? = some (func.put v f) := by
      show (s.callStack.modify k _)[k]? = _
      rw [List.getElem?_modify_eq, hfunc]
      rfl
    rw [getPlace, hself]
    cases f with
    | subFunc i => exact List.getElem?_set_self (List.getElem?_eq_some_iff.1 hf).1
    | _ => rfl

theorem getPlace_congr (place : Place) (hv : t.value = s.value) (hl : t.locals = s.locals) (hc : t.callStack = s.callStack)
    (hr : t.root = s.root) : t.getPlace place = s.getPlace place := by
  cases place <;> simp only [getPlace, hv, hl, hc, hr]

end Gc
end ObjectScript
