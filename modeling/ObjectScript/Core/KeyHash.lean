import ObjectScript.Core.DoubleNumber
import ObjectScript.Core.StringRefs
import ObjectScript.Core.TableHolds
/-!
# Hashing keys

`getValueHash` over doubles: a number is hashed by the four bytes of its `float`, a string by the hash it was interned with,
and what else is collected by its address.  Keys are compared by `==`, for which the two zeros are one number; their floats
differ in the sign, and so do their hashes (`hash_agrees_iff`).

The class `ValueHash` of the tables takes its numbers from here; `zeros_disagree` is a table that has the key 0 and does
not find it under -0.
-/
namespace ObjectScript
namespace Core

open Links

namespace Double

/-- The bits of `(float)val` without its sign: the nearest float, ties to even, or an infinity. -/
def floatMagnitude (d : Double) : Nat :=
  if d.exponent = 2047 then
    if d.fraction = 0 then 255 * 2 ^ 23 else 255 * 2 ^ 23 + 2 ^ 22 + d.fraction / 2 ^ 29 % 2 ^ 22
  -- such a number is less than half of the least float
  else if d.exponent = 0 then 0
  else if d.exponent ≤ 896 then roundShift (2 ^ 52 + d.fraction) (926 - d.exponent)
  else min (255 * 2 ^ 23) ((d.exponent - 897) * 2 ^ 23 + roundShift (2 ^ 52 + d.fraction) 29)

/-- `(float)val` -/
def toFloat (d : Double) : Single := Single.ofBits (d.sign.toNat * 2 ^ 31 + d.floatMagnitude)

end Double

/-- `string->hash`, by the address of the string. -/
class StringHash where
  hash : Ref → Nat

/-- `OS_PTR_HASH`, the shift of an `int`. -/
def ptrHash (p : Ref) : Nat := if p % 2 ^ 32 < 2 ^ 31 then p % 2 ^ 32 / 4 else p % 2 ^ 32 / 4 + 3 * 2 ^ 30

/-- The bytes of the `float`, the least one first. -/
def numberHash (x : Double) : Nat := (LittleEndian.bytes 4 x.toFloat.toBits).foldl addStrHash strHashStart

/-- `getValueHash`, with a class of its own for the tables. -/
instance [StringHash] : ValueHash Double where
  getValueHash
    | .null => 0
    | .bool b => b.toNat
    | .number x => numberHash x
    | .gc .string a => StringHash.hash a
    | .gc _ a => ptrHash a

/-! ## Equal keys -/

def OppositeZeros (a b : Value Double) : Prop := ∃ sign, a = .number (Double.zero sign) ∧ b = .number (Double.zero !sign)

/-- The hashes of `a` and of `b` are the same if these are equal keys, and then `get` finds under `a`, in every table, a
property with a key equal to it when one has the key `b`. -/
def HashAgrees [StringHash] (a b : Value Double) : Prop :=
  a.equalExactly b = true → ValueHash.getValueHash a = ValueHash.getValueHash b ∧
    ∀ (m : Memory Double) (table : Table) (cs : List Ref), table.Linked m cs → Bounded m →
      (∃ c ∈ cs, (content m c).1 = b) → ∃ d ∈ cs, get m table a = some (some d) ∧ a.equalExactly (content m d).1 = true

theorem zeros_equal (sign : Bool) : (Double.zero sign).equal (Double.zero !sign) = true := by cases sign <;> decide

theorem zeros_hash (sign : Bool) : numberHash (Double.zero sign) ≠ numberHash (Double.zero !sign) := by cases sign <;> decide

theorem eq_or_opposite {a b : Value Double} (h : a.equalExactly b = true) : a = b ∨ OppositeZeros a b := by
  cases a <;> cases b <;> simp only [Value.equalExactly, Bool.false_eq_true, beq_iff_eq, Bool.and_eq_true] at h
  · exact .inl rfl
  · exact .inl (by rw [h])
  · rename_i x y
    obtain ⟨-, -, rfl | ⟨hx, hy⟩⟩ := Double.equal_iff.1 h
    · exact .inl rfl
    · by_cases hs : x.sign = y.sign
      · left
        rw [Double.eq_zero_of_magnitude hx, Double.eq_zero_of_magnitude hy, hs]
      · refine .inr ⟨x.sign, by rw [← Double.eq_zero_of_magnitude hx], ?_⟩
        have hneg : y.sign = !x.sign := by cases hxs : x.sign <;> cases hys : y.sign <;> simp_all
        rw [← hneg, ← Double.eq_zero_of_magnitude hy]
  · exact .inl (by rw [h.1, h.2])

variable [StringHash]

/-- A property is found under a key of its slot that equals its own. -/
theorem get_of_equal {m : Memory Double} {table : Table} {cs : List Ref} (h : table.Linked m cs) (hm : Bounded m)
    {index : Value Double} {c : Ref} (hc : c ∈ cs) (heq : index.equalExactly (content m c).1 = true)
    (hslot : slotOf m table.headMask c = slot table.headMask index) :
    ∃ d ∈ cs, get m table index = some (some d) ∧ index.equalExactly (content m d).1 = true := by
  rcases get_linked h hm index with ⟨d, hd, hget, hid, -⟩ | ⟨-, hno⟩
  · exact ⟨d, hd, hget, hid⟩
  · rw [hno c hc hslot] at heq
    cases heq

/-- **Hashing agrees with equality but for the zeros.** -/
theorem hash_agrees_iff (a b : Value Double) : HashAgrees a b ↔ ¬ OppositeZeros a b := by
  constructor
  · rintro hagrees ⟨sign, rfl, rfl⟩
    exact zeros_hash sign (hagrees (zeros_equal sign)).1
  · intro hzeros heq
    obtain rfl := (eq_or_opposite heq).resolve_right hzeros
    refine ⟨rfl, fun m table cs h hm ⟨c, hc, hkey⟩ => ?_⟩
    refine get_of_equal h hm hc (by rw [hkey]; exact heq) ?_
    rw [slotOf, hkey]

omit [StringHash] in
/-- **0.0 and -0.0 are equal keys** with different hashes. -/
theorem zeros_disagree : ¬ ∀ [StringHash] (a b : Value Double), a.equalExactly b = true →
    ValueHash.getValueHash a = ValueHash.getValueHash b := by
  intro h
  let _ : StringHash := ⟨fun _ => 0⟩
  exact zeros_hash false (h (.number (Double.zero false)) (.number (Double.zero true)) (zeros_equal false))

end Core
end ObjectScript
