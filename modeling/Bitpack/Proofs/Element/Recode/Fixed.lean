import Bitpack.Proofs.Element.Recode.Signed

/-!
Fixed-point elements. A number is cut to a multiple of the last place and wraps around in the slot.
What is left comes back exactly, but a half has no place for the last one of a slot with many places:
there the full slot becomes a zero that keeps its sign only once.
-/
namespace Bitpack

variable {d : Dtype} {format : FloatFormat}

/-- A full slot stands for minus its last place, and the format has no number so small. In the widest
slot no number is put down like that. -/
def Vanishes (format : FloatFormat) (bits frac raw : Nat) : Prop :=
  bits < 64 ∧ 0 < format.minExponent + frac ∧ raw + 1 = 2 ^ bits

instance (format : FloatFormat) (bits frac raw : Nat) : Decidable (Vanishes format bits frac raw) :=
  inferInstanceAs (Decidable (_ ∧ _ ∧ _))

namespace ElementType

section

variable [Platform] (width : SlotWidth) (intBits : Nat) (le : intBits ≤ width.bits)

theorem encode_fixed (x : Scalar d) :
    (fixed width intBits le).encode x =
      BitVec.ofInt 64 ((x.toDouble.scale (width.bits - intBits : Nat)).floor (-2 ^ 63) (2 ^ 63 - 1)) &&&
        Slot.mask width.bits :=
  rfl

theorem ofSlot_fixed (d : Dtype) (z : Int) :
    (fixed width intBits le).ofSlot d (BitVec.ofInt 64 z &&& Slot.mask width.bits) =
      .ofDouble d ((Scalar.doubleOfInt (z.bmod (2 ^ width.bits))).scale
        (-(width.bits - intBits : Nat))) :=
  congrArg (fun n => Scalar.ofDouble d ((Scalar.doubleOfInt n).scale (-(width.bits - intBits : Nat))))
    (Slot.toInt_signExtend_ofInt z width.pos width.le)

theorem recode_fixed_of_encode {x : Scalar d} {z : Int}
    (hz : (fixed width intBits le).encode x = BitVec.ofInt 64 z &&& Slot.mask width.bits) :
    (fixed width intBits le).recode x =
      .ofDouble d ((Scalar.doubleOfInt (z.bmod (2 ^ width.bits))).scale
        (-(width.bits - intBits : Nat))) := by
  rw [recode_eq, hz, ofSlot_fixed]

end

section

variable [Platform] [LawfulPlatform]

theorem recode_ofDouble_limits (d : Dtype) {z : Int} (hz : z = -2 ^ 63 ∨ z = 2 ^ 63 - 1) (intBits : Nat)
    (le : intBits ≤ 64) :
    (fixed ⟨64, by decide, by decide⟩ intBits le).recode (d := d)
        (.ofDouble d ((Scalar.doubleOfInt z).scale (-(64 - intBits : Nat)))) =
      .ofDouble d ((Scalar.doubleOfInt z).scale (-(64 - intBits : Nat))) := by
  rw [recode_fixed_of_encode _ _ _ (encode_fixed ..)]
  rcases d.isFloat_cases with hd | ⟨format, rfl⟩
  · rw [Scalar.ofDouble_eq hd, Scalar.ofDouble_eq hd]
    revert intBits
    rcases hz with rfl | rfl
    · cases d with
      | int size => cases size <;> decide +kernel
      | uint size => cases size <;> decide +kernel
      | float format => cases hd
    · cases d with
      | int size => cases size <;> decide +kernel
      | uint size => cases size <;> decide +kernel
      | float format => cases hd
  · -- The double of a limit is a power of two.
    have hpower : (Scalar.doubleOfInt z).Same (.finite (decide (z < 0)) 1 63) := by
      have hdouble : Scalar.doubleOfInt z = .finite (decide (z < 0)) (1 * 2 ^ 52) 11 := by
        rcases hz with rfl | rfl <;> decide
      rw [hdouble]
      exact FloatValue.same_shift _ 1 52 11
    have hround : Scalar.ofDouble (.float format)
        ((Scalar.doubleOfInt z).scale (-(64 - intBits : Nat))) = format.round _ :=
      FloatFormat.ofDouble_of_short (hpower.scale _) (by decide)
    have hcount : ∀ intBits ≤ 64, ((format.nearest ((Scalar.doubleOfInt z).scale
        (-(64 - intBits : Nat)))).scale (64 - intBits : Nat)).floor (-2 ^ 63) (2 ^ 63 - 1) = z := by
      rcases hz with rfl | rfl <;> cases format <;> decide +kernel
    have hcut : ((Scalar.ofDouble (.float format) ((Scalar.doubleOfInt z).scale
        (-(64 - intBits : Nat)))).toDouble.scale (64 - intBits : Nat)).floor (-2 ^ 63) (2 ^ 63 - 1) =
          z := by
      rw [hround]
      exact hcount intBits le
    have hself : z.bmod (2 ^ 64) = z := by rcases hz with rfl | rfl <;> decide
    rw [hcut, hself]

variable {width : SlotWidth} {intBits : Nat} {le : intBits ≤ width.bits}

theorem recode_fixed_widest {x : Scalar d} {z : Int} (hz : z = -2 ^ 63 ∨ z = 2 ^ 63 - 1)
    (hencode : (fixed width intBits le).encode x = BitVec.ofInt 64 z &&& Slot.mask width.bits)
    (hwidest : width.bits = 64) :
    (fixed width intBits le).recode ((fixed width intBits le).recode x) =
      (fixed width intBits le).recode x := by
  obtain ⟨bits, pos, hle⟩ := width
  cases hwidest
  have hself : z.bmod (2 ^ 64) = z := by rcases hz with rfl | rfl <;> decide
  rw [recode_fixed_of_encode _ intBits le hencode, hself]
  exact recode_ofDouble_limits d hz intBits le

section

variable {x : Scalar (.float format)} {z : Int}
  (hencode : (fixed width intBits le).encode x = BitVec.ofInt 64 z &&& Slot.mask width.bits)
  (hdouble : FloatFormat.double.Exact (.ofInt (z.bmod (2 ^ width.bits))))
  (hformat : format.Exact ((FloatValue.ofInt (z.bmod (2 ^ width.bits))).scale
    (-(width.bits - intBits : Nat))))

include hencode hdouble hformat

theorem same_recode_fixed :
    ((fixed width intBits le).recode x).toDouble.Same
      ((FloatValue.ofInt (z.bmod (2 ^ width.bits))).scale (-(width.bits - intBits : Nat))) := by
  have hplace := (Scalar.doubleOfInt_same hdouble).scale (-(width.bits - intBits : Nat))
  have hround := FloatFormat.ofDouble_of_exact (hformat.congr hplace.symm)
  rw [recode_fixed_of_encode width intBits le hencode]
  refine (congrArg (FloatValue.Same · _) (congrArg format.value (hround.trans ?_))).mpr hformat
  exact hplace.round_eq format

theorem recode_fixed_of_exact :
    (fixed width intBits le).recode ((fixed width intBits le).recode x) =
      (fixed width intBits le).recode x := by
  refine recode_of_encode ?_ rfl
  have hback := (same_recode_fixed hencode hdouble hformat).scale (width.bits - intBits : Nat)
  rw [FloatValue.scale_scale, Int.add_left_neg, FloatValue.scale_zero] at hback
  rw [hencode]
  exact FloatValue.cutsOff_fdiv.ofInt_toInt width.le hback

end

theorem recode_fixed_of_limit {x : Scalar (.float format)} {z : Int}
    (hlimit : z = -2 ^ 63 ∨ z = 2 ^ 63 - 1)
    (hencode : (fixed width intBits le).encode x = BitVec.ofInt 64 z &&& Slot.mask width.bits)
    (hvanishes : ¬Vanishes format width.bits (width.bits - intBits)
      ((fixed width intBits le).encode x).toNat) :
    (fixed width intBits le).recode ((fixed width intBits le).recode x) =
      (fixed width intBits le).recode x := by
  rcases Nat.lt_or_eq_of_le width.le with hlt | heq
  · refine recode_fixed_of_exact hencode (exact_limits .double hlimit width.pos hlt) ?_
    rcases hlimit with rfl | rfl
    · rw [bmod_lowest hlt, FloatValue.scale_ofInt]
      exact format.exact_zero _ _
    · have hplace : format.minExponent + (width.bits - intBits : Nat) ≤ 0 := by
        refine Int.not_lt.mp fun hpos => hvanishes ⟨hlt, hpos, ?_⟩
        rw [hencode, ← Slot.ofInt_bmod_and_mask _ width.le, bmod_highest width.pos hlt,
          Slot.ofInt_neg_one_and_mask, Slot.toNat_mask hlt]
      rw [bmod_highest width.pos hlt, FloatValue.scale_ofInt]
      refine FloatFormat.exact_of_fits _ ⟨Nat.one_lt_two_pow (Nat.succ_ne_zero _), by omega, ?_⟩
      cases format <;> simp only [FloatFormat.minExponent, FloatFormat.exponentBits] <;> omega
  · exact recode_fixed_widest hlimit hencode heq

theorem recode_fixed_of_not_vanishes (x : Scalar (.float format)) (hx : x.toDouble ≠ .nan)
    (hvanishes : ¬Vanishes format width.bits (width.bits - intBits)
      ((fixed width intBits le).encode x).toNat) :
    (fixed width intBits le).recode ((fixed width intBits le).recode x) =
      (fixed width intBits le).recode x := by
  have hencode := encode_fixed width intBits le x
  generalize hz : (x.toDouble.scale (width.bits - intBits : Nat)).floor (-2 ^ 63) (2 ^ 63 - 1) = z
    at hencode
  rcases FloatValue.toInt_scale_cases hx Int.fdiv (-2 ^ 63) (2 ^ 63 - 1)
    (width.bits - intBits : Nat) with hlow | hhigh | ⟨negative, m, e, hvalue, hpart⟩
  · exact recode_fixed_of_limit (.inl (hz.symm.trans hlow)) hencode hvanishes
  · exact recode_fixed_of_limit (.inr (hz.symm.trans hhigh)) hencode hvanishes
  · obtain ⟨hdouble, hformat⟩ := FloatValue.cutsOff_fdiv.exact_wrapped hvalue width.pos width.le
      (congrArg (Int.bmod · (2 ^ width.bits)) (hz.symm.trans hpart))
    exact recode_fixed_of_exact hencode hdouble hformat

theorem recode_fixed_zero {y : Scalar (.float format)} {negative : Bool} {e : Int}
    (hy : y.toDouble = .finite negative 0 e) : (fixed width intBits le).recode y = 0 := by
  have hencode : (fixed width intBits le).encode y = BitVec.ofInt 64 0 &&& Slot.mask width.bits := by
    have hzero : (FloatValue.finite negative 0 0).floor (-2 ^ 63) (2 ^ 63 - 1) = 0 := by
      cases negative <;> decide
    rw [encode_fixed, hy, FloatValue.scale, (FloatValue.same_zero negative _ 0).floor_eq, hzero]
  have hexact : FloatFormat.double.Exact (.ofInt 0) := FloatFormat.exact_zero .double false 0
  have hplace := (Scalar.doubleOfInt_same hexact).scale (-(width.bits - intBits : Nat))
  rw [FloatValue.scale_ofInt] at hplace
  rw [recode_fixed_of_encode _ _ _ hencode, Int.zero_bmod]
  exact (FloatFormat.ofDouble_of_short hplace (by decide)).trans (hplace.round_eq format)

theorem recode_fixed_of_vanishes {x : Scalar (.float format)}
    (hvanishes : Vanishes format width.bits (width.bits - intBits)
      ((fixed width intBits le).encode x).toNat) :
    (fixed width intBits le).recode x = format.signed true 0 ∧
      (fixed width intBits le).recode ((fixed width intBits le).recode x) = 0 := by
  obtain ⟨hbits, hlast, hfull⟩ := hvanishes
  have hencode : (fixed width intBits le).encode x =
      BitVec.ofInt 64 (-1) &&& Slot.mask width.bits := by
    apply BitVec.eq_of_toNat_eq
    have hmask := Slot.toNat_mask hbits
    rw [Slot.ofInt_neg_one_and_mask]
    omega
  have hone : (-1 : Int).bmod (2 ^ width.bits) = -1 := by
    have htwo : 2 ^ 1 ≤ 2 ^ width.bits := Nat.pow_le_pow_right (by decide) width.pos
    exact Int.bmod_eq_of_le_mul_two (by omega) (by omega)
  have hexact : FloatFormat.double.Exact (.ofInt (-1)) :=
    FloatFormat.exact_of_log2_le true (by decide)
  have hplace := (Scalar.doubleOfInt_same hexact).scale (-(width.bits - intBits : Nat))
  rw [FloatValue.scale_ofInt] at hplace
  have hround := (@FloatFormat.ofDouble_of_short _ _ format _ _ _ _ hplace (by decide)).trans
    (hplace.round_eq format)
  have hrecode : (fixed width intBits le).recode x = format.signed true 0 := by
    rw [recode_fixed_of_encode _ _ _ hencode, hone]
    refine hround.trans (congrArg (format.signed true) ?_)
    refine FloatFormat.magnitude_eq_zero ?_
    rw [Int.natAbs_neg, Int.natAbs_one, Nat.cast_one, one_mul]
    exact zpow_le_zpow_right₀ one_le_two (by omega)
  have hzero : format.Canonical 0 0 :=
    ⟨Nat.two_pow_pos _, .inl rfl, by cases format <;> decide⟩
  have hvalue := hzero.value_signed true
  rw [Nat.zero_mul] at hvalue
  exact ⟨hrecode, recode_fixed_zero ((congrArg format.value hrecode).trans hvalue)⟩

end

open scoped Platform.Release

/-- The infinity fills the slot, and `-2^-25` is too small for a half. -/
example : (fixed ⟨25, by decide, by decide⟩ 0 (by decide)).recode (d := .float .half) 0x7C00 =
    0x8000 := by
  decide +kernel

end ElementType

end Bitpack
