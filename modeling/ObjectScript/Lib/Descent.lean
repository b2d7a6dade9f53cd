import Mathlib.Data.Fintype.EquivFin
import Mathlib.Data.Fintype.Card
import Mathlib.Logic.Relation
/-!
# Descents in a finite graph

In a finite graph a node from which no cycle is reached is accessible along the edges, and the other way round: a recursion
along the edges ends on exactly these nodes.

`Ends` is accessibility, as a termination argument needs it, and `Acyclic` is what can be seen of a graph.  That the
second gives the first needs the nodes to be finitely many.
-/
namespace Descent

open Relation

variable {ν : Type*} {Edge : ν → ν → Prop}

/-- No node that is reached from this one is on a cycle. -/
def Acyclic (Edge : ν → ν → Prop) (a : ν) : Prop := ∀ b, ReflTransGen Edge a b → ¬ TransGen Edge b b

def Ends (Edge : ν → ν → Prop) (a : ν) : Prop := Acc (fun b a => Edge a b) a

theorem Ends.not_cycle {a : ν} (h : Ends Edge a) : ¬ TransGen Edge a a := by
  induction h with
  | intro a _ ih =>
    intro hcycle
    obtain ⟨b, hab, hba⟩ := TransGen.head'_iff.1 hcycle
    exact ih b hab (TransGen.tail' hba hab)

theorem Ends.acyclic {a : ν} (h : Ends Edge a) : Acyclic Edge a := by
  intro b hab
  have hends : Ends Edge b := by
    induction hab with
    | refl => exact h
    | tail _ hbc ih => exact ih.inv hbc
  exact hends.not_cycle

theorem Acyclic.ends [Finite ν] {a : ν} (h : Acyclic Edge a) : Ends Edge a := by
  -- The nodes that are reached are ordered by the paths between them.
  let below : {b // ReflTransGen Edge a b} → {b // ReflTransGen Edge a b} → Prop := fun x y => TransGen Edge y.1 x.1
  have hirrefl : Std.Irrefl below := ⟨fun x => h x.1 x.2⟩
  have htrans : IsTrans _ below := ⟨fun x y z hxy hyz => TransGen.trans hyz hxy⟩
  have hwf : WellFounded below := Finite.wellFounded_of_trans_of_irrefl below
  have hall : ∀ x : {b // ReflTransGen Edge a b}, Ends Edge x.1 := by
    intro x
    induction x using hwf.induction with
    | _ x ih => exact .intro _ fun b hb => ih ⟨b, x.2.tail hb⟩ (.single hb)
  exact hall ⟨a, .refl⟩

end Descent
