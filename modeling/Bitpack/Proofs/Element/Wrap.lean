import Bitpack.Proofs.Element.Cast
import Bitpack.Proofs.Element.Integer
import Bitpack.Proofs.FloatFormat.Same

/-!
Integers that wrap around in a slot. A slot keeps the signed remainder of an integer, which is the
integer itself or smaller than it, and which a float has if it has the number that was cut to the
integer.
-/
namespace Bitpack

namespace Slot

theorem signExtend_and_mask (x : BitVec 64) {bits : Nat} (hpos : 0 < bits) (hle : bits ≤ 64) :
    signExtend (x &&& mask bits) bits = (x.setWidth bits).signExtend 64 := by
  have hbit : ∀ i, i < bits → (x &&& mask bits).getLsbD i = x.getLsbD i := by
    intro i hi
    rw [BitVec.getLsbD_and, getLsbD_mask]
    simp [hi, show i < 64 by omega]
  apply BitVec.eq_of_getLsbD_eq
  intro i hi
  rw [BitVec.getLsbD_signExtend, BitVec.msb_eq_getLsbD_last, BitVec.getLsbD_setWidth,
    BitVec.getLsbD_setWidth]
  by_cases hlow : i < bits
  · rw [getLsbD_signExtend hlow hle, hbit i hlow]
    simp [hi, hlow]
  · unfold signExtend
    rw [if_neg (by omega), if_neg (by omega), BitVec.getLsbD_sshiftRight, if_neg (by omega),
      BitVec.msb_eq_getLsbD_last, BitVec.getLsbD_shiftLeft, show 64 - 1 - (64 - bits) = bits - 1 by omega,
      hbit _ (by omega)]
    simp [hi, hlow, hpos, show ¬64 ≤ i by omega, show ¬63 < 64 - bits by omega]

theorem toInt_signExtend_ofInt (z : Int) {bits : Nat} (hpos : 0 < bits) (hle : bits ≤ 64) :
    (signExtend (BitVec.ofInt 64 z &&& mask bits) bits).toInt = z.bmod (2 ^ bits) := by
  rw [signExtend_and_mask _ hpos hle, BitVec.toInt_signExtend_of_le hle, setWidth_ofInt hle,
    BitVec.toInt_ofInt]

theorem ofInt_bmod_and_mask (z : Int) {bits : Nat} (hle : bits ≤ 64) :
    BitVec.ofInt 64 (z.bmod (2 ^ bits)) &&& mask bits = BitVec.ofInt 64 z &&& mask bits := by
  rw [and_mask_eq, and_mask_eq, setWidth_ofInt hle, setWidth_ofInt hle, ← BitVec.toInt_ofInt,
    BitVec.ofInt_toInt]

theorem toNat_ofInt_and_mask (z : Int) {bits : Nat} (hle : bits ≤ 64) :
    ((BitVec.ofInt 64 z &&& mask bits).toNat : Int) = z % 2 ^ bits := by
  have hpos : ((2 ^ bits : Nat) : Int) ≠ 0 := Int.natCast_ne_zero.mpr (Nat.two_pow_pos bits).ne'
  rw [and_mask_eq, BitVec.toNat_setWidth_of_le hle, setWidth_ofInt hle, BitVec.toNat_ofInt,
    Int.toNat_of_nonneg (Int.emod_nonneg z hpos)]
  push_cast
  rfl

theorem toNat_mask {bits : Nat} (hbits : bits < 64) : (mask bits).toNat + 1 = 2 ^ bits := by
  have hpos := Nat.two_pow_pos bits
  have hlt : 2 ^ bits < 2 ^ 64 := Nat.pow_lt_pow_right (by decide) hbits
  rw [mask, if_neg (by omega), BitVec.toNat_ofNat, Nat.mod_eq_of_lt (by omega)]
  omega

theorem ofInt_neg_one_and_mask (bits : Nat) : BitVec.ofInt 64 (-1) &&& mask bits = mask bits := by
  rw [show BitVec.ofInt 64 (-1) = BitVec.allOnes 64 by decide, BitVec.allOnes_and]

end Slot

theorem bmod_bounds (z : Int) {b : Nat} (hle : b ≤ 64) :
    -2 ^ 63 ≤ z.bmod (2 ^ b) ∧ z.bmod (2 ^ b) ≤ 2 ^ 63 - 1 := by
  have hlow := Int.le_bmod (x := z) (Nat.two_pow_pos b)
  have hhigh := Int.bmod_lt (x := z) (Nat.two_pow_pos b)
  have hpow : 2 ^ b ≤ 2 ^ 64 := Nat.pow_le_pow_right (by decide) hle
  omega

theorem bmod_of_fits {z : Int} {b : Nat} (hpos : 0 < b) (hlow : -2 ^ (b - 1) ≤ z)
    (hhigh : z < 2 ^ (b - 1)) : z.bmod (2 ^ b) = z := by
  have hhalf : (2 : Int) ^ b = 2 * 2 ^ (b - 1) := by rw [← pow_succ', Nat.sub_add_cancel hpos]
  apply Int.bmod_eq_of_le_mul_two
  · push_cast
    omega
  · push_cast
    omega

theorem bmod_eq_or_lt (z : Int) {b : Nat} (hpos : 0 < b) :
    z.bmod (2 ^ b) = z ∨ -(z.natAbs : Int) ≤ z.bmod (2 ^ b) ∧ z.bmod (2 ^ b) < z.natAbs := by
  have hlow := Int.le_bmod (x := z) (Nat.two_pow_pos b)
  have hhigh := Int.bmod_lt (x := z) (Nat.two_pow_pos b)
  have hself := Int.bmod_eq_of_le_mul_two (x := z) (y := 2 ^ b)
  have heven : 2 ^ b = 2 * 2 ^ (b - 1) := by
    rw [← Nat.pow_succ', Nat.succ_eq_add_one, Nat.sub_add_cancel hpos]
  omega

theorem natAbs_bmod_le (z : Int) {b : Nat} (hpos : 0 < b) : (z.bmod (2 ^ b)).natAbs ≤ z.natAbs := by
  have hcases := bmod_eq_or_lt z hpos
  omega

theorem bmod_eq_zero {z : Int} {b : Nat} (hz : (2 : Int) ^ b ∣ z) : z.bmod (2 ^ b) = 0 := by
  have hpos := Nat.two_pow_pos b
  refine (Int.bmod_eq_iff hpos).mpr ⟨by omega, by omega, ?_⟩
  rw [Int.zero_sub, Int.dvd_neg]
  exact_mod_cast hz

theorem bmod_lowest {b : Nat} (hb : b < 64) : (-2 ^ 63 : Int).bmod (2 ^ b) = 0 :=
  bmod_eq_zero (Int.dvd_neg.mpr (pow_dvd_pow 2 (Nat.le_of_lt_succ hb)))

theorem bmod_highest {b : Nat} (hpos : 0 < b) (hb : b < 64) :
    (2 ^ 63 - 1 : Int).bmod (2 ^ b) = -1 := by
  have htwo : 2 ^ 1 ≤ 2 ^ b := Nat.pow_le_pow_right (by decide) hpos
  have hdvd : ((2 ^ b : Nat) : Int) ∣ (2 ^ 63 : Nat) :=
    Int.natCast_dvd_natCast.mpr (Nat.pow_dvd_pow 2 (Nat.le_of_lt_succ hb))
  refine (Int.bmod_eq_iff (Nat.two_pow_pos b)).mpr ⟨by omega, by omega, ?_⟩
  rw [show (-1 - (2 ^ 63 - 1) : Int) = -(2 ^ 63 : Nat) by decide]
  exact Int.dvd_neg.mpr hdvd

theorem two_pow_dvd_bmod {z : Int} {j b : Nat} (hj : j ≤ b) (hz : (2 : Int) ^ j ∣ z) :
    (2 : Int) ^ j ∣ z.bmod (2 ^ b) := by
  have hmodulus : (2 : Int) ^ j ∣ (2 ^ b : Nat) := by
    push_cast
    exact pow_dvd_pow 2 hj
  exact (Int.dvd_iff_dvd_of_dvd_sub (hmodulus.trans Int.dvd_bmod_sub_self)).mpr hz

namespace FloatValue

theorem natAbs_signedSignificand (negative : Bool) (m : Nat) :
    (signedSignificand negative m).natAbs = m := by
  cases negative with
  | false => exact Int.natAbs_natCast m
  | true => exact (Int.natAbs_neg _).trans (Int.natAbs_natCast m)

theorem mul_two_pow_neg_iff (t : Int) (k : Nat) : t * 2 ^ k < 0 ↔ t < 0 := by
  have hlt := Int.mul_lt_mul_right (a := 2 ^ k) (b := t) (c := 0) (Int.pow_pos (by decide))
  rwa [Int.zero_mul] at hlt

theorem same_ofInt_mul_two_pow (t : Int) (k : Nat) :
    (ofInt (t * 2 ^ k)).Same ((ofInt t).scale k) := by
  have habs : (t * 2 ^ k).natAbs = t.natAbs * 2 ^ k := by
    rw [Int.natAbs_mul, Int.natAbs_pow]
    rfl
  have hshift := same_shift (decide (t < 0)) t.natAbs k 0
  rw [Int.zero_add] at hshift
  rw [scale_ofInt, ofInt, decide_eq_decide.mpr (mul_two_pow_neg_iff t k), habs]
  exact hshift

theorem same_ofInt_scale_neg (t : Int) (k : Nat) :
    ((ofInt (t * 2 ^ k)).scale (-k)).Same (ofInt t) := by
  have hsame := (same_ofInt_mul_two_pow t k).scale (-k)
  rwa [scale_scale, Int.add_right_neg, scale_zero] at hsame

/-- The remainder of an integer part is zero, or it has no more bits than the number had, and none of
them further to the right. -/
theorem CutsOff.wrapped {cut : Int → Int → Int} (hcut : CutsOff cut) (negative : Bool) (m : Nat)
    (e : Int) {b : Nat} (hpos : 0 < b) {s : Int}
    (hs : s = (integerPart cut (signedSignificand negative m) e).bmod (2 ^ b)) :
    s = 0 ∨ e < b ∧ ∃ m' ≤ m, (ofInt s).Same (.finite (decide (s < 0)) m' (max e 0)) := by
  have hle := natAbs_bmod_le (integerPart cut (signedSignificand negative m) e) hpos
  rw [← hs] at hle
  unfold integerPart at hs hle
  split at hs
  · rename_i he
    rw [if_pos he] at hle
    obtain ⟨k, rfl⟩ := Int.eq_ofNat_of_zero_le he
    rw [Int.toNat_natCast] at hs hle
    rcases Nat.lt_or_ge k b with hkb | hbk
    · right
      obtain ⟨t, ht⟩ := two_pow_dvd_bmod (Nat.le_of_lt hkb) (Int.dvd_mul_left _ _)
      rw [← hs, Int.mul_comm] at ht
      rw [ht, Int.natAbs_mul, Int.natAbs_mul, natAbs_signedSignificand] at hle
      refine ⟨by omega, t.natAbs, ?_, ?_⟩
      · exact Nat.le_of_mul_le_mul_right hle (Int.natAbs_pos.mpr (Int.pow_ne_zero (by decide)))
      · have hsame := same_ofInt_mul_two_pow t k
        rw [scale_ofInt] at hsame
        subst ht
        rw [max_eq_left (Int.natCast_nonneg k), decide_eq_decide.mpr (mul_two_pow_neg_iff t k)]
        exact hsame
    · left
      rw [hs]
      exact bmod_eq_zero ((pow_dvd_pow 2 hbk).trans (Int.dvd_mul_left _ _))
  · rename_i he
    right
    rw [if_neg he] at hle
    have hless := hcut.natAbs_le (signedSignificand negative m) (2 ^ (-e).toNat)
    rw [natAbs_signedSignificand] at hless
    refine ⟨by omega, s.natAbs, by omega, ?_⟩
    rw [max_eq_right (by omega)]
    exact .refl _

end FloatValue

end Bitpack
