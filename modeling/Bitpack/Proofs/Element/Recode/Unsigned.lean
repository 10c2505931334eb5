import Bitpack.Proofs.Element.Recode.Basic

/-!
Unsigned elements of float scalars. A slot of many bits can hold a number that the format rounds up to
the first power of two beyond the slot. The next time nothing of that is left.
-/
namespace Bitpack

variable {format : FloatFormat}

/-- The number in a slot is nearer to `2^bits` than to any lesser number of the format, or as near to
it. In the widest slot the conversion stops before `2^bits`, and nothing is lost. -/
def RoundsPast (format : FloatFormat) (bits raw : Nat) : Prop :=
  bits < 64 ∧ bits < 2 ^ (format.exponentBits - 1) ∧ format.fractionBits + 2 ≤ bits ∧
    2 ^ bits ≤ raw + 2 ^ (bits - (format.fractionBits + 2))

instance (format : FloatFormat) (bits raw : Nat) : Decidable (RoundsPast format bits raw) :=
  inferInstanceAs (Decidable (_ ∧ _ ∧ _ ∧ _))

namespace ElementType

variable [Platform]

theorem toNat_encode_uint (width : SlotWidth) {y : Scalar (.float format)}
    (hnonneg : (format.value y).isNonneg = true) {n : Nat}
    (hn : (format.value y).truncate 0 (2 ^ 64 - 1) = n) :
    ((uint width).encode y).toNat = n % 2 ^ width.bits := by
  have hcast : (uint width).castBits y = BitVec.ofInt 64 n := by
    change (if (!false && (format.value y).isNonneg) = true then
        BitVec.ofInt 64 ((format.value y).truncate 0 (2 ^ 64 - 1)) else _) = _
    rw [hnonneg, hn]
    rfl
  have hslot := Slot.toNat_ofInt_and_mask n width.le
  rw [encode, hcast]
  exact_mod_cast hslot

theorem toNat_encode_uint_of_same (width : SlotWidth) {y : Scalar (.float format)} {v : Nat}
    (hy : (format.value y).Same (.ofInt v)) :
    ((uint width).encode y).toNat = min (2 ^ 64 - 1) v % 2 ^ width.bits := by
  apply toNat_encode_uint width
  · rw [hy.isNonneg_eq, FloatValue.ofInt_natCast]
    rfl
  · rw [hy.truncate_eq, FloatValue.truncate, FloatValue.toInt_ofInt]
    omega

theorem recode_uint (width : SlotWidth) (x : Scalar (.float format)) :
    (uint width).recode x = Scalar.floatOfInt format ((uint width).encode x).toNat :=
  recode_eq (uint width) x

section

variable [LawfulPlatform]

theorem recode_uint_of_lt (width : SlotWidth) {y : Scalar (.float format)} {v : Nat}
    (hy : (format.value y).Same (.ofInt v)) (hv : v < 2 ^ width.bits) : (uint width).recode y = y := by
  have hle : v ≤ 2 ^ 64 - 1 := Nat.le_sub_one_of_lt
    (Nat.lt_of_lt_of_le hv (Nat.pow_le_pow_right (by decide) width.le))
  rw [recode_uint, toNat_encode_uint_of_same width hy, Nat.min_eq_right hle, Nat.mod_eq_of_lt hv]
  exact Scalar.floatOfInt_eq_of_same hy

theorem recode_uint_of_infinite (width : SlotWidth)
    (hwide : 2 ^ (format.exponentBits - 1) ≤ width.bits) {y : Scalar (.float format)}
    (hy : format.value y = .infinite false) : (uint width).recode y = y := by
  have hfull : ((uint width).encode y).toNat = (2 ^ 64 - 1) % 2 ^ width.bits := by
    apply toNat_encode_uint width <;> rw [hy] <;> rfl
  have hlong : (2 ^ 64 - 1) % 2 ^ width.bits < 2 ^ 64 :=
    Nat.lt_of_le_of_lt (Nat.mod_le ..) (by decide)
  have hpattern : ∀ b, b ≤ 64 → 2 ^ (format.exponentBits - 1) ≤ b →
      format.round (.ofInt ((2 ^ 64 - 1) % 2 ^ b : Nat)) = format.round (.infinite false) := by
    cases format <;> decide +kernel
  rw [recode_uint, hfull, Scalar.floatOfInt_natCast format hlong, hpattern _ width.le hwide,
    ← hy]
  exact FloatFormat.round_value (hy ▸ FloatValue.noConfusion)

/-- What lies beyond the widest slot is stopped before its end and rounded up again. -/
theorem recode_uint_of_two_pow_64 {y : Scalar (.float format)}
    (hy : (format.value y).Same (.ofInt (2 ^ 64 : Nat))) :
    (uint ⟨64, by decide, by decide⟩).recode y = y := by
  have hlimit : format.round (.ofInt (2 ^ 64 - 1 : Nat)) = format.round (.ofInt (2 ^ 64 : Nat)) := by
    cases format <;> decide +kernel
  rw [recode_uint, toNat_encode_uint_of_same _ hy]
  refine (Scalar.floatOfInt_natCast format (by decide)).trans ?_
  exact hlimit.trans (FloatFormat.round_eq_of_same hy (FloatValue.ofInt_ne_nan _))

theorem recode_uint_of_not_roundsPast (width : SlotWidth) (x : Scalar (.float format))
    (hx : ¬RoundsPast format width.bits ((uint width).encode x).toNat) :
    (uint width).recode ((uint width).recode x) = (uint width).recode x := by
  have hu : ((uint width).encode x).toNat < 2 ^ width.bits := (uint width).toNat_encode_lt x
  have hrecode := congrArg format.value (recode_uint width x)
  rcases Scalar.value_floatOfInt_natCast format hu width.le with
    ⟨hinfinite, hwide⟩ | ⟨v, hsame, hle, hpast⟩
  · exact recode_uint_of_infinite width hwide (hrecode.trans hinfinite)
  · rw [← hrecode] at hsame
    rcases Nat.lt_or_eq_of_le hle with hlt | rfl
    · exact recode_uint_of_lt width hsame hlt
    · have hwidest : width.bits = 64 := by
        rcases Nat.lt_or_eq_of_le width.le with hlt | heq
        · exact absurd ⟨hlt, hpast.mp rfl⟩ hx
        · exact heq
      obtain ⟨bits, pos, le⟩ := width
      cases hwidest
      exact recode_uint_of_two_pow_64 hsame

theorem recode_uint_of_roundsPast (width : SlotWidth) (x : Scalar (.float format))
    (hx : RoundsPast format width.bits ((uint width).encode x).toNat) :
    (format.value ((uint width).recode x)).Same (.ofInt (2 ^ width.bits : Nat)) ∧
      (uint width).recode ((uint width).recode x) = 0 := by
  have hu : ((uint width).encode x).toNat < 2 ^ width.bits := (uint width).toNat_encode_lt x
  have hrecode := congrArg format.value (recode_uint width x)
  obtain ⟨hbits, hpast⟩ := hx
  rcases Scalar.value_floatOfInt_natCast format hu width.le with
    ⟨-, hwide⟩ | ⟨v, hsame, -, hiff⟩
  · exact absurd hwide (Nat.not_le_of_lt hpast.1)
  · rw [← hrecode, hiff.mpr hpast] at hsame
    refine ⟨hsame, ?_⟩
    have hle : 2 ^ width.bits ≤ 2 ^ 64 - 1 :=
      Nat.le_sub_one_of_lt (Nat.pow_lt_pow_right (by decide) hbits)
    have hzero : Scalar.floatOfInt format (0 : Nat) = 0 := by
      rw [Scalar.floatOfInt_natCast format (Nat.two_pow_pos 64)]
      cases format <;> decide +kernel
    rw [recode_uint, toNat_encode_uint_of_same width hsame, Nat.min_eq_right hle, Nat.mod_self]
    exact hzero

end

end ElementType

end Bitpack
