import Mathlib.Algebra.GroupWithZero.Nat
import Mathlib.Algebra.Ring.Int.Defs
import Mathlib.Tactic.Common
/-!
# Sums kept in a word

A word that is raised by the weight of what comes to a list and lowered by the weight of what leaves it holds the sum of the
weights, modulo its range: it may wrap on the way and is exact as soon as the sum fits again.

`Sums` relates a list and the word.  Taking an element off needs it to be in the list; that the word did not wrap is
asked only where it is read.
-/
namespace WrappedSum

variable {α : Type*} {w w' : α → Nat} {l : List α} {x : UInt32}

/-- `x` holds the sum of the weights of `l`. -/
def Sums (w : α → Nat) (l : List α) (x : UInt32) : Prop := x.toNat = (l.map w).sum % 2 ^ 32

theorem Sums.nil (w : α → Nat) : Sums w [] 0 := rfl

theorem Sums.cons (h : Sums w l x) (a : α) : Sums w (a :: l) (x + UInt32.ofNat (w a)) := by
  unfold Sums at h ⊢
  rw [UInt32.toNat_add, UInt32.toNat_ofNat', h, List.map_cons, List.sum_cons]
  omega

theorem Sums.perm {l' : List α} (h : Sums w l x) (hperm : l.Perm l') : Sums w l' x := by
  unfold Sums at h ⊢
  rw [h, (hperm.map w).sum_nat]

theorem Sums.tail {a : α} (h : Sums w (a :: l) x) : Sums w l (x - UInt32.ofNat (w a)) := by
  unfold Sums at h ⊢
  rw [List.map_cons, List.sum_cons] at h
  rw [UInt32.toNat_sub, UInt32.toNat_ofNat', h]
  omega

theorem Sums.erase [BEq α] [LawfulBEq α] {a : α} (h : Sums w l x) (ha : a ∈ l) : Sums w (l.erase a) (x - UInt32.ofNat (w a)) :=
  (h.perm (List.perm_cons_erase ha)).tail

theorem Sums.congr (h : Sums w l x) (hsame : ∀ a ∈ l, w' a = w a) : Sums w' l x := by
  unfold Sums at h ⊢
  rw [h, List.map_congr_left hsame]

theorem sum_three {β γ : Type*} {v : β → Nat} {k : List β} {y : UInt32} {u : γ → Nat} {j : List γ} {z : UInt32} (h : Sums w l x)
    (h' : Sums v k y) (h'' : Sums u j z) :
    (x + y + z).toNat = ((l.map w).sum + (k.map v).sum + (j.map u).sum) % 2 ^ 32 := by
  unfold Sums at h h' h''
  rw [UInt32.toNat_add, UInt32.toNat_add, h, h', h'']
  omega

/-- A word below half of its range is the same number with a sign. -/
theorem toInt_eq {n : Nat} (h : x.toNat = n % 2 ^ 32) (hlt : n < 2 ^ 31) : x.toInt32.toInt = n := by
  have hx : x.toNat = n := by omega
  have hbits : x.toInt32.toInt = x.toBitVec.toInt := rfl
  rw [hbits, BitVec.toInt_eq_toNat_of_lt (by rw [UInt32.toNat_toBitVec]; omega), UInt32.toNat_toBitVec, hx]

theorem Sums.unique {y : UInt32} (h : Sums w l x) (h' : Sums w l y) : x = y := UInt32.toNat.inj (h.trans (Eq.symm h'))

theorem Sums.eq_zero (h : Sums w [] x) : x = 0 := UInt32.toNat.inj h

end WrappedSum
