import Mathlib.Algebra.GroupWithZero.Nat
import Mathlib.Algebra.Ring.Int.Defs
import Mathlib.Tactic.Common
/-!
# Little-endian words

A number below `256 ^ k` as `k` bytes, the lowest first, and back.

`bytes` is by division, as a writer shifts, and `value` by Horner's rule, as a reader puts the bytes together; each
undoes the other.
-/
namespace LittleEndian

def bytes : Nat → Nat → List UInt8
  | 0, _ => []
  | k + 1, n => UInt8.ofNat n :: bytes k (n / 256)

def value : List UInt8 → Nat
  | [] => 0
  | b :: bs => b.toNat + 256 * value bs

theorem length_bytes : ∀ k n, (bytes k n).length = k
  | 0, _ => rfl
  | k + 1, n => by rw [bytes, List.length_cons, length_bytes k]

theorem value_bytes : ∀ {k n : Nat}, n < 256 ^ k → value (bytes k n) = n
  | 0, n, h => by rw [Nat.lt_one_iff.1 h]; rfl
  | k + 1, n, h => by
    have hdiv : n / 256 < 256 ^ k := by
      rw [Nat.div_lt_iff_lt_mul (by decide), ← Nat.pow_succ]
      exact h
    rw [bytes, value, value_bytes hdiv, UInt8.toNat_ofNat']
    exact Nat.mod_add_div n 256

theorem value_bytes_mod : ∀ k n : Nat, value (bytes k n) = n % 256 ^ k
  | 0, n => by rw [Nat.pow_zero, Nat.mod_one]; rfl
  | k + 1, n => by
    have hmod : n % 256 ^ (k + 1) = n % 256 + 256 * (n / 256 % 256 ^ k) := by rw [Nat.pow_succ', Nat.mod_mul]
    rw [bytes, value, value_bytes_mod k, UInt8.toNat_ofNat', hmod]

theorem value_append : ∀ as bs : List UInt8, value (as ++ bs) = value as + 256 ^ as.length * value bs
  | [], bs => by rw [List.nil_append, List.length_nil, Nat.pow_zero, Nat.one_mul, value, Nat.zero_add]
  | a :: as, bs => by
    rw [List.cons_append, value, value, value_append as bs, List.length_cons, Nat.pow_succ, Nat.mul_add, Nat.add_assoc,
      Nat.mul_comm (256 ^ as.length) 256, Nat.mul_assoc]

end LittleEndian
