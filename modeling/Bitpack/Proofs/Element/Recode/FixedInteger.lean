import Bitpack.Proofs.Element.Recode.Fixed

/-!
Fixed-point elements of integer scalars. The fraction of an integer is zero, and so is that of what is
left in the slot; it is between the limits of the type, unless it is below zero and the type is not.
-/
namespace Bitpack

variable {d : Dtype}

theorem Scalar.limits_of_wrapped (hd : d.isFloat = false) (x : Scalar d) {frac b : Nat} (hpos : 0 < b)
    (hle : b ≤ 64) {s t : Int} (hs : s = (roundedInt .double x.whole * 2 ^ frac).bmod (2 ^ b))
    (ht : s = t * 2 ^ frac) : t ≤ d.highest ∧ (d.lowest ≤ t ∨ d.lowest = 0) := by
  have hlimits := d.limits
  have hwhole := whole_bounds hd x
  have hunit : (0 : Int) < 2 ^ frac := Int.pow_pos (by decide)
  have hslot := bmod_bounds (roundedInt .double x.whole * 2 ^ frac) hle
  have hwrap := bmod_eq_or_lt (roundedInt .double x.whole * 2 ^ frac) hpos
  rw [← hs, ht] at hslot hwrap
  have hsmall : t.natAbs ≤ (t * 2 ^ frac).natAbs := by
    rw [Int.natAbs_mul]
    exact Nat.le_mul_of_pos_right _ (Int.natAbs_pos.mpr hunit.ne')
  have hsign := FloatValue.mul_two_pow_neg_iff t frac
  have hrounded : d.highest < 2 ^ 52 → roundedInt .double x.whole = x.whole :=
    fun hsmall => roundedInt_double (by omega)
  generalize roundedInt .double x.whole = k at hwrap hrounded
  have hcases : t = k ∨ -(k.natAbs : Int) ≤ t ∧ t < k.natAbs := by
    rcases hwrap with heq | ⟨hlow, hhigh⟩
    · exact .inl (Int.eq_of_mul_eq_mul_right hunit.ne' heq)
    · have habs : ((k * 2 ^ frac).natAbs : Int) = k.natAbs * 2 ^ frac := by
        rw [Int.natAbs_mul, Int.natAbs_pow]
        push_cast
        rfl
      rw [habs] at hlow hhigh
      rw [← Int.neg_mul] at hlow
      exact .inr ⟨Int.le_of_mul_le_mul_right hlow hunit, Int.lt_of_mul_lt_mul_right hhigh hunit.le⟩
  rcases hlimits with ⟨hlow, hhigh, hsymmetric, hwidth, -⟩
  rcases hwidth with hshort | hlong
  · have hk := hrounded hshort
    omega
  · omega

namespace ElementType

variable [Platform] {width : SlotWidth} {intBits : Nat} {le : intBits ≤ width.bits}

theorem recode_fixed_ofInt (hd : d.isFloat = false) {s t : Int}
    (hlow : d.lowest ≤ t) (hhigh : t ≤ d.highest) (hs : s = t * 2 ^ (width.bits - intBits))
    (hself : s.bmod (2 ^ width.bits) = s) (hdouble : FloatFormat.double.Exact (.ofInt s))
    (hplace : FloatFormat.double.Exact (.ofInt t)) :
    (fixed width intBits le).recode (BitVec.ofInt d.width t : Scalar d) = BitVec.ofInt d.width t := by
  have hencode : (fixed width intBits le).encode (BitVec.ofInt d.width t : Scalar d) =
      BitVec.ofInt 64 s &&& Slot.mask width.bits := by
    have hvalue := (Scalar.doubleOfInt_same hplace).scale (width.bits - intBits : Nat)
    have hscaled := FloatValue.same_ofInt_mul_two_pow t (width.bits - intBits)
    rw [encode_fixed, Scalar.toDouble_eq hd, Scalar.whole_ofInt hd hlow hhigh]
    refine FloatValue.cutsOff_fdiv.ofInt_toInt width.le ?_
    rw [hself, hs]
    exact hvalue.trans hscaled.symm
  have hback := (Scalar.doubleOfInt_same hdouble).scale (-(width.bits - intBits : Nat))
  rw [recode_fixed_of_encode _ _ _ hencode, hself]
  rw [hs] at hback ⊢
  rw [Scalar.ofDouble_of_same hd (hback.trans (FloatValue.same_ofInt_scale_neg t _)),
    show max d.lowest (min d.highest t) = t by omega]

theorem recode_fixed_ofInt_zero (hd : d.isFloat = false) :
    (fixed width intBits le).recode (BitVec.ofInt d.width 0 : Scalar d) = BitVec.ofInt d.width 0 := by
  have hlimits := d.limits
  have hexact : FloatFormat.double.Exact (.ofInt 0) := FloatFormat.exact_zero .double false 0
  exact recode_fixed_ofInt hd hlimits.1 hlimits.2.1 (Int.zero_mul _).symm Int.zero_bmod hexact hexact

theorem ofDouble_neg_one (hd : d.isFloat = false) {frac : Nat} (hfrac : 0 < frac) :
    Scalar.ofDouble d ((Scalar.doubleOfInt (-1)).scale (-frac)) = BitVec.ofInt d.width 0 := by
  have hlimits := d.limits
  have hexact : FloatFormat.double.Exact (.ofInt (-1)) :=
    FloatFormat.exact_of_log2_le true (by decide)
  have hpart : FloatValue.integerPart Int.tdiv (FloatValue.signedSignificand true 1) (-frac) = 0 := by
    have hunit : (1 : Int) < 2 ^ frac := by
      exact_mod_cast Nat.one_lt_two_pow hfrac.ne'
    rw [FloatValue.integerPart, if_neg (by omega), Int.neg_neg, Int.toNat_natCast]
    change Int.tdiv (-1) (2 ^ frac) = 0
    rw [Int.neg_tdiv, Int.tdiv_eq_zero_of_lt (by decide) hunit, Int.neg_zero]
  rw [Scalar.ofDouble_eq hd, ((Scalar.doubleOfInt_same hexact).scale (-frac)).truncate_eq,
    FloatValue.scale_ofInt, FloatValue.truncate]
  change BitVec.ofInt d.width (max d.lowest (min d.highest
    (FloatValue.integerPart Int.tdiv (FloatValue.signedSignificand true 1) (-frac)))) = _
  rw [hpart, show max d.lowest (min d.highest 0) = 0 by omega]

theorem recode_fixed_integer_of_exact (hd : d.isFloat = false) {x : Scalar d} {z t : Int}
    (hencode : (fixed width intBits le).encode x = BitVec.ofInt 64 z &&& Slot.mask width.bits)
    (ht : z.bmod (2 ^ width.bits) = t * 2 ^ (width.bits - intBits))
    (hdouble : FloatFormat.double.Exact (.ofInt (z.bmod (2 ^ width.bits))))
    (hplace : FloatFormat.double.Exact ((FloatValue.ofInt (z.bmod (2 ^ width.bits))).scale
      (-(width.bits - intBits : Nat))))
    (hhigh : t ≤ d.highest) (hlow : d.lowest ≤ t ∨ d.lowest = 0) :
    (fixed width intBits le).recode ((fixed width intBits le).recode x) =
      (fixed width intBits le).recode x := by
  have hlimits := d.limits
  have hself := Int.bmod_bmod (x := z) (m := 2 ^ width.bits)
  have hback := (Scalar.doubleOfInt_same hdouble).scale (-(width.bits - intBits : Nat))
  have hwhole := FloatValue.same_ofInt_scale_neg t (width.bits - intBits)
  have hrecode := recode_fixed_of_encode width intBits le hencode
  rw [ht] at hback hplace
  rw [ht, Scalar.ofDouble_of_same hd (hback.trans hwhole)] at hrecode
  rw [hrecode]
  rcases Int.lt_or_le t d.lowest with hbelow | habove
  · rw [show max d.lowest (min d.highest t) = 0 by omega]
    exact recode_fixed_ofInt_zero hd
  · rw [show max d.lowest (min d.highest t) = t by omega]
    exact recode_fixed_ofInt hd habove hhigh ht hself hdouble (hplace.congr hwhole)

section

variable [LawfulPlatform]

theorem recode_fixed_integer_of_limit (hd : d.isFloat = false) {x : Scalar d} {z : Int}
    (hlimit : z = -2 ^ 63 ∨ z = 2 ^ 63 - 1)
    (hencode : (fixed width intBits le).encode x = BitVec.ofInt 64 z &&& Slot.mask width.bits) :
    (fixed width intBits le).recode ((fixed width intBits le).recode x) =
      (fixed width intBits le).recode x := by
  have hlimits := d.limits
  rcases Nat.lt_or_eq_of_le width.le with hlt | heq
  · have hdouble := exact_limits .double hlimit width.pos hlt
    rcases hlimit with rfl | rfl
    · have hzero := bmod_lowest hlt
      refine recode_fixed_integer_of_exact hd hencode (hzero.trans (Int.zero_mul _).symm) hdouble ?_
        hlimits.2.1 (.inl hlimits.1)
      rw [hzero, FloatValue.scale_ofInt]
      exact FloatFormat.exact_zero .double false _
    · have hone := bmod_highest width.pos hlt
      rcases Nat.eq_zero_or_pos (width.bits - intBits) with hwhole | hfrac
      · refine recode_fixed_integer_of_exact (t := -1) hd hencode ?_ hdouble ?_ (by omega) (by omega)
        · rw [hone, hwhole]
          rfl
        · rw [hwhole, Nat.cast_zero, Int.neg_zero, FloatValue.scale_zero]
          exact hdouble
      · rw [recode_fixed_of_encode width intBits le hencode, hone, ofDouble_neg_one hd hfrac]
        exact recode_fixed_ofInt_zero hd
  · exact recode_fixed_widest hlimit hencode heq

theorem recode_fixed_integer (hd : d.isFloat = false) (x : Scalar d) :
    (fixed width intBits le).recode ((fixed width intBits le).recode x) =
      (fixed width intBits le).recode x := by
  have hencode := encode_fixed width intBits le x
  generalize hz : (x.toDouble.scale (width.bits - intBits : Nat)).floor (-2 ^ 63) (2 ^ 63 - 1) = z
    at hencode
  rw [Scalar.toDouble_eq hd] at hz
  have hwhole := Scalar.doubleOfInt_same_roundedInt (Scalar.natAbs_whole_lt hd x)
  have hnumber : Scalar.doubleOfInt x.whole ≠ .nan := FloatFormat.nearest_ne_nan FloatValue.noConfusion
  rcases FloatValue.toInt_scale_cases hnumber Int.fdiv (-2 ^ 63) (2 ^ 63 - 1)
    (width.bits - intBits : Nat) with hlow | hhigh | ⟨negative, m, e, hvalue, hpart⟩
  · exact recode_fixed_integer_of_limit hd (.inl (hz.symm.trans hlow)) hencode
  · exact recode_fixed_integer_of_limit hd (.inr (hz.symm.trans hhigh)) hencode
  · obtain ⟨hdouble, hplace⟩ := FloatValue.cutsOff_fdiv.exact_wrapped hvalue width.pos width.le
      (congrArg (Int.bmod · (2 ^ width.bits)) (hz.symm.trans hpart))
    -- The integer has no fraction, so that what is cut from it is the integer itself.
    rw [hvalue] at hwhole
    have hscaled := hwhole.scale (width.bits - intBits : Nat)
    rw [FloatValue.scale_ofInt] at hscaled
    have hmultiple := (hz.symm.trans hpart).trans
      ((hscaled.integerPart_eq FloatValue.cutsOff_fdiv).trans (FloatValue.integerPart_ofInt ..))
    have hdvd : (2 : Int) ^ (width.bits - intBits) ∣ z := hmultiple ▸ Int.dvd_mul_left _ _
    obtain ⟨t, ht⟩ := two_pow_dvd_bmod (Nat.sub_le width.bits intBits) hdvd
    rw [Int.mul_comm] at ht
    obtain ⟨hhigh, hlow⟩ := Scalar.limits_of_wrapped hd x width.pos width.le
      (congrArg (Int.bmod · (2 ^ width.bits)) hmultiple) ht
    exact recode_fixed_integer_of_exact hd hencode ht hdouble hplace hhigh hlow

end

end ElementType

end Bitpack
