import Bitpack.Proofs.Scalar.Exact

/-!
Integer scalars as numbers. A number that becomes an integer scalar loses its fraction and stops at
the limits of the type, and a whole number between these stays what it is.
-/
namespace Bitpack

namespace Dtype

def lowest : Dtype → Int
  | int size => -2 ^ (8 * size.bytes - 1)
  | uint _ => 0
  | float _ => 0

def highest : Dtype → Int
  | int size => 2 ^ (8 * size.bytes - 1) - 1
  | uint size => 2 ^ (8 * size.bytes) - 1
  | float _ => 0

theorem isFloat_cases (d : Dtype) : d.isFloat = false ∨ ∃ format, d = float format := by
  rcases d with size | size | format
  · exact .inl rfl
  · exact .inl rfl
  · exact .inr ⟨format, rfl⟩

theorem limits (d : Dtype) :
    d.lowest ≤ 0 ∧ 0 ≤ d.highest ∧ (d.lowest = 0 ∨ d.lowest = -d.highest - 1) ∧
      (d.highest < 2 ^ 52 ∨ 2 ^ 63 - 1 ≤ d.highest) ∧ d.highest < 2 ^ 64 := by
  rcases d with size | size | format
  · cases size <;> decide
  · cases size <;> decide
  · cases format <;> decide

end Dtype

namespace Scalar

variable {d : Dtype}

theorem width_le (d : Dtype) : d.width ≤ 64 :=
  Nat.mul_le_mul_left 8 d.bytes_le

def whole : {d : Dtype} → Scalar d → Int
  | .int _, x => x.toInt
  | .uint _, x => x.toNat
  | .float _, _ => 0

theorem toDouble_eq (hd : d.isFloat = false) (x : Scalar d) : x.toDouble = doubleOfInt x.whole := by
  cases d with
  | int size => rfl
  | uint size => rfl
  | float format => cases hd

theorem whole_bounds (hd : d.isFloat = false) (x : Scalar d) :
    d.lowest ≤ x.whole ∧ x.whole ≤ d.highest := by
  cases d with
  | int size =>
      have hlow := BitVec.le_toInt x
      have hhigh := BitVec.toInt_lt (x := x)
      exact ⟨hlow, Int.le_sub_one_of_lt hhigh⟩
  | uint size =>
      have hlt : (x.toNat : Int) < (2 ^ (8 * size.bytes) : Nat) := Int.ofNat_lt.mpr x.isLt
      push_cast at hlt
      exact ⟨Int.natCast_nonneg _, Int.le_sub_one_of_lt hlt⟩
  | float format => cases hd

theorem natAbs_whole_lt (hd : d.isFloat = false) (x : Scalar d) : x.whole.natAbs < 2 ^ 64 := by
  obtain ⟨hlow, hhigh⟩ := whole_bounds hd x
  have hlimits : -2 ^ 63 ≤ d.lowest := by
    rcases d with size | size | format
    · cases size <;> decide
    · cases size <;> decide
    · cases format <;> decide
  have hwidest := d.limits
  omega

theorem whole_ofInt (hd : d.isFloat = false) {n : Int} (hlow : d.lowest ≤ n) (hhigh : n ≤ d.highest) :
    whole (BitVec.ofInt d.width n : Scalar d) = n := by
  cases d with
  | int size =>
      exact BitVec.toInt_ofInt_eq_self (by cases size <;> decide) hlow (Int.lt_of_le_sub_one hhigh)
  | uint size =>
      have hlt : n < (2 ^ (8 * size.bytes) : Nat) := by
        push_cast
        exact Int.lt_of_le_sub_one hhigh
      change ((BitVec.ofInt (8 * size.bytes) n).toNat : Int) = n
      rw [BitVec.toNat_ofInt, Int.emod_eq_of_lt hlow hlt]
      exact Int.toNat_of_nonneg hlow
  | float format => cases hd

section

variable [Platform]

theorem cast_float_of_integer (hd : d.isFloat = false) (format : FloatFormat) (x : Scalar d) :
    cast (.float format) x = floatOfInt format x.whole := by
  cases d with
  | int size =>
      exact congrArg (floatOfInt format) (BitVec.toInt_signExtend_of_le (width_le (.int size)))
  | uint size =>
      have hcarrier : (x.setWidth 64).toNat = x.toNat :=
        BitVec.toNat_setWidth_of_le (width_le (.uint size))
      exact congrArg (fun u : Nat => floatOfInt format u) hcarrier
  | float format => cases hd

theorem ofDouble_eq (hd : d.isFloat = false) (v : FloatValue) :
    ofDouble d v = BitVec.ofInt d.width (v.truncate d.lowest d.highest) := by
  cases d with
  | int size => rfl
  | uint size => rfl
  | float format => cases hd

theorem ofDouble_of_same (hd : d.isFloat = false) {v : FloatValue} {n : Int} (hv : v.Same (.ofInt n)) :
    ofDouble d v = BitVec.ofInt d.width (max d.lowest (min d.highest n)) := by
  rw [ofDouble_eq hd, hv.truncate_eq, FloatValue.truncate, FloatValue.toInt_ofInt]

theorem ofDouble_infinite (hd : d.isFloat = false) (negative : Bool) :
    ofDouble d (.infinite negative) =
      BitVec.ofInt d.width (if negative then d.lowest else d.highest) := by
  rw [ofDouble_eq hd]
  rfl

end

end Scalar

end Bitpack
