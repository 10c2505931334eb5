import Bitpack.Proofs.Element.Recode.Basic

/-!
Signed elements of float scalars. A number is cut to an integer and wraps around in the slot, and what
is left has no more bits than the number, so that it comes back without rounding. Only the limits of
the conversion can be too long for the format, and they do not wrap around in the widest slot.
-/
namespace Bitpack

variable {format : FloatFormat}

theorem FloatValue.CutsOff.exact_wrapped {cut : Int → Int → Int} (hcut : FloatValue.CutsOff cut)
    {pattern : BitVec format.width} {negative : Bool} {m : Nat} {e : Int}
    (hvalue : format.value pattern = .finite negative m e) {frac b : Nat} (hpos : 0 < b) (hle : b ≤ 64)
    {s : Int}
    (hs : s = (integerPart cut (signedSignificand negative m) (e + frac)).bmod (2 ^ b)) :
    FloatFormat.double.Exact (.ofInt s) ∧ format.Exact ((ofInt s).scale (-frac)) := by
  rcases hcut.wrapped negative m (e + frac) hpos hs with rfl | ⟨he, m', hm, hsame⟩
  · rw [scale_ofInt]
    exact ⟨FloatFormat.exact_zero .double _ _, format.exact_zero _ _⟩
  · have hfits := FloatFormat.fits_of_value hvalue
    have hwide : FloatFormat.double.Fits m e := hfits.widen (by cases format <;> decide)
    constructor
    · refine (FloatFormat.exact_of_fits _ ?_).congr hsame.symm
      refine ⟨Nat.lt_of_le_of_lt hm hwide.lt, ?_, ?_⟩
      · simp only [FloatFormat.minExponent]
        omega
      · simp only [FloatFormat.minExponent, FloatFormat.exponentBits]
        omega
    · exact (FloatFormat.exact_of_fits _ (hfits.of_le hm (by omega) (by omega))).congr
        (hsame.scale (-frac)).symm

theorem FloatValue.CutsOff.ofInt_toInt {cut : Int → Int → Int} (hcut : FloatValue.CutsOff cut)
    {v : FloatValue} {z : Int} {b : Nat} (hle : b ≤ 64) (hv : v.Same (.ofInt (z.bmod (2 ^ b)))) :
    BitVec.ofInt 64 (v.toInt cut (-2 ^ 63) (2 ^ 63 - 1)) &&& Slot.mask b =
      BitVec.ofInt 64 z &&& Slot.mask b := by
  obtain ⟨hlow, hhigh⟩ := bmod_bounds z hle
  rw [hv.toInt_eq hcut, FloatValue.toInt_ofInt,
    show max (-2 ^ 63) (min (2 ^ 63 - 1) (z.bmod (2 ^ b))) = z.bmod (2 ^ b) by omega,
    Slot.ofInt_bmod_and_mask z hle]

namespace ElementType

theorem exact_limits (format : FloatFormat) {z : Int} (hz : z = -2 ^ 63 ∨ z = 2 ^ 63 - 1) {b : Nat}
    (hpos : 0 < b) (hb : b < 64) : format.Exact (.ofInt (z.bmod (2 ^ b))) := by
  rcases hz with rfl | rfl
  · rw [bmod_lowest hb]
    exact format.exact_zero _ _
  · rw [bmod_highest hpos hb]
    exact FloatFormat.exact_of_log2_le true (by cases format <;> decide)

section

variable [Platform]

theorem encode_int (width : SlotWidth) (x : Scalar (.float format)) :
    (int width).encode x =
      BitVec.ofInt 64 ((format.value x).truncate (-2 ^ 63) (2 ^ 63 - 1)) &&& Slot.mask width.bits :=
  rfl

theorem ofSlot_int (width : SlotWidth) (z : Int) :
    (int width).ofSlot (.float format) (BitVec.ofInt 64 z &&& Slot.mask width.bits) =
      Scalar.floatOfInt format (z.bmod (2 ^ width.bits)) :=
  congrArg (Scalar.floatOfInt format) (Slot.toInt_signExtend_ofInt z width.pos width.le)

theorem recode_int (width : SlotWidth) (x : Scalar (.float format)) :
    (int width).recode x = Scalar.floatOfInt format
      (((format.value x).truncate (-2 ^ 63) (2 ^ 63 - 1)).bmod (2 ^ width.bits)) := by
  rw [recode_eq, encode_int, ofSlot_int]

variable [LawfulPlatform]

theorem encode_int_limits {z : Int} (hz : z = -2 ^ 63 ∨ z = 2 ^ 63 - 1) :
    (int ⟨64, by decide, by decide⟩).encode (d := .float format)
        (Scalar.floatOfInt format (z.bmod (2 ^ 64))) =
      BitVec.ofInt 64 z &&& Slot.mask 64 := by
  have hlong : (z.bmod (2 ^ 64)).natAbs < 2 ^ 64 := by rcases hz with rfl | rfl <;> decide
  refine (encode_int _ _).trans ?_
  rw [Scalar.floatOfInt_eq_round_of_lt format hlong]
  rcases hz with rfl | rfl <;> cases format <;> decide +kernel

theorem encode_recode_int_of_exact {width : SlotWidth} {x : Scalar (.float format)} {z : Int}
    (hz : (format.value x).truncate (-2 ^ 63) (2 ^ 63 - 1) = z)
    (hexact : format.Exact (.ofInt (z.bmod (2 ^ width.bits)))) :
    (int width).encode ((int width).recode x) = (int width).encode x := by
  have hrecode := recode_int width x
  rw [encode_int width x, hz]
  rw [hz] at hrecode
  refine FloatValue.cutsOff_tdiv.ofInt_toInt width.le ?_
  rw [congrArg format.value hrecode]
  exact Scalar.value_floatOfInt hexact

theorem encode_recode_int_of_limit {width : SlotWidth} {x : Scalar (.float format)} {z : Int}
    (hz : (format.value x).truncate (-2 ^ 63) (2 ^ 63 - 1) = z) (hlimit : z = -2 ^ 63 ∨ z = 2 ^ 63 - 1) :
    (int width).encode ((int width).recode x) = (int width).encode x := by
  rcases Nat.lt_or_eq_of_le width.le with hlt | heq
  · exact encode_recode_int_of_exact hz (exact_limits format hlimit width.pos hlt)
  · obtain ⟨bits, pos, le⟩ := width
    cases heq
    rw [encode_int _ x, recode_int, hz]
    exact encode_int_limits hlimit

theorem recode_int_float (width : SlotWidth) (x : Scalar (.float format)) (hx : x.toDouble ≠ .nan) :
    (int width).recode ((int width).recode x) = (int width).recode x := by
  refine recode_of_encode ?_ rfl
  generalize hz : (format.value x).truncate (-2 ^ 63) (2 ^ 63 - 1) = z
  have hcut := hz
  rw [← FloatValue.scale_zero (format.value x)] at hcut
  rcases FloatValue.toInt_scale_cases hx Int.tdiv (-2 ^ 63) (2 ^ 63 - 1) (0 : Nat) with
    hlow | hhigh | ⟨negative, m, e, hvalue, hpart⟩
  · exact encode_recode_int_of_limit hz (.inl (hcut.symm.trans hlow))
  · exact encode_recode_int_of_limit hz (.inr (hcut.symm.trans hhigh))
  · have hexact := FloatValue.cutsOff_tdiv.exact_wrapped hvalue width.pos width.le
      (congrArg (Int.bmod · (2 ^ width.bits)) (hcut.symm.trans hpart))
    exact encode_recode_int_of_exact hz ((FloatValue.scale_zero _).subst hexact.2)

end

end ElementType

end Bitpack
