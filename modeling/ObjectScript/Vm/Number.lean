import Mathlib.Algebra.GroupWithZero.Nat
import Mathlib.Algebra.Ring.Int.Defs
import Mathlib.Data.Int.Order.Basic
import Mathlib.Data.Nat.Size
import Mathlib.Tactic.Common
/-!
# OS_NUMBER

A number is a double.  A finite double is a multiple of the least positive one, so it is an integer here; the sign of a
zero is left out, since comparisons, sums and differences do not tell the zeros apart (of the operators only `**` does, and
that one is the machine's).  A difference is rounded to 53 bits, ties to even, and one that is too large becomes an infinity:
rounding keeps the sign (`Number.sign_round`).
-/
namespace ObjectScript
namespace Vm

inductive Number where
  | nan
  | inf (negative : Bool)
  /-- `n` times the least positive double. -/
  | fin (n : Int)
deriving DecidableEq, Repr

namespace Number

def one : Number := fin (2 ^ 1074)

def limit : Nat := 2 ^ 2098

def roundNat (n : Nat) : Nat :=
  let k := n.size - 53
  let m := n >>> k
  let rest := n % 2 ^ k
  if 2 ^ k < 2 * rest ∨ 2 * rest = 2 ^ k ∧ m % 2 = 1 then (m + 1) <<< k else m <<< k

def round (n : Int) : Number :=
  if limit ≤ roundNat n.natAbs then inf (decide (n < 0)) else fin (n.sign * roundNat n.natAbs)

def neg : Number → Number
  | nan => nan
  | inf s => inf !s
  | fin n => fin (-n)

def add : Number → Number → Number
  | inf s, inf t => if s = t then inf s else nan
  | inf s, fin _ => inf s
  | fin _, inf t => inf t
  | fin a, fin b => round (a + b)
  | _, _ => nan

def sub (a b : Number) : Number := add a b.neg

/-- `==` -/
def eq : Number → Number → Bool
  | inf s, inf t => s == t
  | fin a, fin b => a == b
  | _, _ => false

/-- `>` -/
def gt : Number → Number → Bool
  | inf s, inf t => !s && t
  | inf s, fin _ => !s
  | fin _, inf t => t
  | fin a, fin b => decide (b < a)
  | _, _ => false

/-- `>=` -/
def ge (a b : Number) : Bool := gt a b || eq a b

/-- `!number` -/
def isZero (a : Number) : Bool := eq a (fin 0)

theorem eq_comm (a b : Number) : eq a b = eq b a := by
  cases a <;> cases b <;> simp only [eq]
  · exact Bool.beq_comm
  · rename_i m n
    rw [Bool.eq_iff_iff, beq_iff_eq, beq_iff_eq]
    exact Eq.comm

theorem nan_eq (a : Number) : eq nan a = false := rfl

theorem roundNat_pos {n : Nat} (h : 0 < n) : 0 < roundNat n := by
  have hm : 0 < n >>> (n.size - 53) := by
    rw [Nat.shiftRight_eq_div_pow]
    refine Nat.div_pos ?_ (Nat.two_pow_pos _)
    have hsize : 0 < n.size := Nat.size_pos.2 h
    have hle : 2 ^ (n.size - 1) ≤ n := Nat.lt_size.1 (by omega)
    exact Nat.le_trans (Nat.pow_le_pow_right (by omega) (by omega)) hle
  unfold roundNat
  simp only [Nat.shiftLeft_eq]
  split
  · exact Nat.mul_pos (Nat.succ_pos _) (Nat.two_pow_pos _)
  · exact Nat.mul_pos hm (Nat.two_pow_pos _)

theorem roundNat_zero : roundNat 0 = 0 := by decide

theorem limit_pos : 0 < limit := by
  unfold limit
  generalize 2098 = n
  exact Nat.two_pow_pos n

/-- **Rounding keeps the sign.** -/
theorem sign_round (n : Int) :
    eq (round n) (fin 0) = decide (n = 0) ∧ gt (round n) (fin 0) = decide (0 < n) ∧ round n ≠ nan := by
  unfold round
  rcases Int.lt_trichotomy n 0 with h | h | h
  · have hpos := roundNat_pos (Int.natAbs_pos.2 (by omega : n ≠ 0))
    have hn0 : n ≠ 0 := by omega
    have hng : ¬ 0 < n := by omega
    split
    · simp [eq, gt, h, hn0, hng]
    · rw [Int.sign_eq_neg_one_of_neg h]
      have h1 : ¬ (-1 * (roundNat n.natAbs : Int) = 0) := by omega
      have h2 : ¬ (0 < -1 * (roundNat n.natAbs : Int)) := by omega
      simp only [eq, gt, h1, h2, hn0, hng, beq_eq_decide, decide_false, ne_eq, reduceCtorEq, not_false_eq_true, and_self]
  · subst h
    have hlimit : ¬ limit ≤ 0 := Nat.not_le.2 limit_pos
    rw [Int.natAbs_zero, roundNat_zero, if_neg hlimit]
    simp [eq, gt]
  · have hpos := roundNat_pos (Int.natAbs_pos.2 (by omega : n ≠ 0))
    have hn0 : n ≠ 0 := by omega
    have hng : ¬ n < 0 := by omega
    split
    · simp [eq, gt, h, hn0, hng]
    · rw [Int.sign_eq_one_of_pos h]
      have h1 : ¬ (1 * (roundNat n.natAbs : Int) = 0) := by omega
      have h2 : 0 < 1 * (roundNat n.natAbs : Int) := by omega
      simp only [eq, gt, h1, h2, hn0, h, beq_eq_decide, decide_false, decide_true, ne_eq, reduceCtorEq, not_false_eq_true,
        and_self]

/-- **A difference that is a number compares with zero as its operands compare.** -/
theorem sub_compare {a b : Number} (h : sub a b ≠ nan) :
    eq (sub a b) (fin 0) = eq a b ∧ gt (sub a b) (fin 0) = gt a b := by
  cases a <;> cases b
  case inf.inf s t =>
    cases s <;> cases t <;> simp_all [sub, neg, add, eq, gt]
  case fin.fin a b =>
    obtain ⟨h1, h2, -⟩ := sign_round (a + -b)
    have heq : (a + -b = 0) = (a = b) := by
      rw [eq_iff_iff]
      omega
    have hlt : (0 < a + -b) = (b < a) := by
      rw [eq_iff_iff]
      omega
    have hsub : sub (fin a) (fin b) = round (a + -b) := rfl
    rw [hsub, h1, h2]
    simp only [eq, gt, heq, hlt, beq_eq_decide, and_self]
  all_goals simp_all [sub, neg, add, eq, gt]

/-- A difference is not a number when an operand is none, or both are the same infinity. -/
theorem sub_eq_nan {a b : Number} : sub a b = nan ↔ a = nan ∨ b = nan ∨ ∃ s, a = inf s ∧ b = inf s := by
  cases a <;> cases b
  case inf.inf s t => cases s <;> cases t <;> simp [sub, neg, add]
  case fin.fin a b =>
    have := (sign_round (a + -b)).2.2
    simp [sub, neg, add, this]
  all_goals simp [sub, neg, add]

end Number

end Vm
end ObjectScript
