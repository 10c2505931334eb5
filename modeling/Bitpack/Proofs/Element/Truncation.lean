import Bitpack.Proofs.Element.FixedPoint
import Bitpack.Proofs.Element.Modular

/-!
Float scalars in integer slots. The fraction of a number is dropped, its integer part stops at the
limits of a carrier of 64 bits and is written modulo the size of the slot. An integer part that the
element has comes back exactly: it has no more bits than the number, so that every format that has the
number has the integer part as well.
-/
namespace Bitpack

variable {format : FloatFormat}

theorem FloatValue.CutsOff.exact_integerPart {cut : Int → Int → Int} (hcut : FloatValue.CutsOff cut)
    {pattern : BitVec format.width} {negative : Bool} {m : Nat} {e : Int}
    (hvalue : format.value pattern = .finite negative m e) :
    format.Exact (.ofInt (integerPart cut (signedSignificand negative m) e)) := by
  generalize hz : integerPart cut (signedSignificand negative m) e = z
  -- In a slot that is wide enough the integer part does not wrap around.
  have hself : z.bmod (2 ^ (z.natAbs + 1)) = z := by
    have hpow : (z.natAbs : Int) < 2 ^ z.natAbs := by exact_mod_cast Nat.lt_two_pow_self
    refine bmod_of_fits (Nat.zero_lt_succ _) ?_ ?_ <;> rw [Nat.add_sub_cancel] <;> omega
  have hwrapped := hcut.wrapped negative m e (Nat.zero_lt_succ z.natAbs) rfl
  rw [hz, hself] at hwrapped
  rcases hwrapped with rfl | ⟨-, m', hm, hsame⟩
  · exact format.exact_zero _ _
  · have hfits := FloatFormat.fits_of_value hvalue
    exact (FloatFormat.exact_of_fits _ (hfits.of_le hm (by omega) (by omega))).congr hsame.symm

theorem FloatValue.exact_towardZero {pattern : BitVec format.width} {q : ℚ}
    (hq : (format.value pattern).rational? = some q) : format.Exact (.ofInt (towardZero q)) := by
  obtain ⟨negative, m, e, hvalue⟩ := finite_of_rational? hq
  rw [hvalue] at hq
  cases hq
  rw [← integerPart_tdiv]
  exact cutsOff_tdiv.exact_integerPart hvalue

namespace ElementType

variable {e : ElementType}

/-- The integer of 64 bits that a float becomes on its way into an integer slot. It is unsigned if the
slot is and the float is not below zero. -/
def carried (e : ElementType) (v : FloatValue) : Int :=
  if !e.isSigned && v.isNonneg then v.truncate 0 (2 ^ 64 - 1) else v.truncate (-2 ^ 63) (2 ^ 63 - 1)

theorem wholeBits_of_float (e : ElementType) (x : Scalar (.float format)) :
    e.wholeBits x = BitVec.ofInt 64 (e.carried (format.value x)) :=
  (apply_ite (BitVec.ofInt 64) ((!e.isSigned && (format.value x).isNonneg) = true) _ _).symm

section

variable [Platform]

theorem encode_of_float (he : e.kind = .integer) (x : Scalar (.float format)) :
    e.encode x = BitVec.ofInt 64 (e.carried (format.value x)) &&& Slot.mask e.bits := by
  rw [← wholeBits_of_float]
  cases e with
  | int width => rfl
  | uint width => rfl
  | bipolar => cases he
  | fixed width intBits le => cases he
  | float32 => cases he
  | float16 => cases he

theorem toNat_encode_of_float (he : e.kind = .integer) (x : Scalar (.float format)) :
    ((e.encode x).toNat : Int) = e.carried (format.value x) % 2 ^ e.bits := by
  rw [encode_of_float he, Slot.toNat_ofInt_and_mask _ e.bits_le]

theorem recode_of_float (he : e.kind = .integer) (x : Scalar (.float format)) :
    e.recode x = Scalar.floatOfInt format (e.remainder (e.carried (format.value x))) := by
  rw [recode_eq]
  cases e with
  | int width =>
      rw [encode_of_float he]
      exact congrArg (Scalar.floatOfInt format)
        (Slot.toInt_signExtend_ofInt _ width.pos width.le)
  | uint width =>
      exact congrArg (Scalar.floatOfInt format) (toNat_encode_of_float he x)
  | bipolar => cases he
  | fixed width intBits le => cases he
  | float32 => cases he
  | float16 => cases he

end

def saturated (e : ElementType) (q : ℚ) : Int :=
  if e.isSigned = false ∧ 0 ≤ q then max 0 (min (2 ^ 64 - 1) (FloatValue.towardZero q))
  else max (-2 ^ 63) (min (2 ^ 63 - 1) (FloatValue.towardZero q))

theorem carried_of_rational? (e : ElementType) {v : FloatValue} {q : ℚ} (hq : v.rational? = some q) :
    e.carried v = e.saturated q := by
  unfold carried saturated
  simp only [Bool.and_eq_true, Bool.not_eq_true', FloatValue.isNonneg_iff_of_rational? hq,
    FloatValue.truncate_of_rational? hq]

theorem saturated_of_holds {q : ℚ} (hq : e.Holds (FloatValue.towardZero q)) :
    e.saturated q = FloatValue.towardZero q := by
  have hbits := e.bits_le
  unfold Holds at hq
  unfold saturated
  cases hsigned : e.isSigned with
  | true =>
      have hpow : (2 : Int) ^ (e.bits - 1) ≤ 2 ^ 63 := pow_le_pow_right₀ (by decide) (by omega)
      rw [hsigned, if_pos rfl] at hq
      rw [if_neg (by simp)]
      omega
  | false =>
      have hpow : (2 : Int) ^ e.bits ≤ 2 ^ 64 := pow_le_pow_right₀ (by decide) hbits
      rw [hsigned, if_neg (by decide)] at hq
      rcases le_or_gt 0 q with hnonneg | hneg
      · rw [if_pos ⟨rfl, hnonneg⟩]
        omega
      · have hzero := FloatValue.towardZero_nonpos hneg
        rw [if_neg (fun h => not_le.mpr hneg h.2)]
        omega

/-- A float in an integer slot, for every format and every integer element. No number leaves zero, an
infinity fills the slot as the limit of the carrier does, and a number leaves its integer part, kept
between the limits, modulo the size of the slot. An integer part that the element has comes back
exactly. -/
theorem integer_slot_truncates [Platform] [LawfulPlatform] (he : e.kind = .integer)
    (x : Scalar (.float format)) :
    (format.value x = .nan → e.encode x = 0) ∧
      (format.value x = .infinite false →
        ((e.encode x).toNat : Int) = (if e.isSigned then 2 ^ 63 - 1 else 2 ^ 64 - 1) % 2 ^ e.bits) ∧
      (format.value x = .infinite true →
        ((e.encode x).toNat : Int) = (-2 ^ 63) % 2 ^ e.bits) ∧
      ∀ q : ℚ, x.rational? = some q →
        ((e.encode x).toNat : Int) =
            (if e.isSigned = false ∧ 0 ≤ q then max 0 (min (2 ^ 64 - 1) (FloatValue.towardZero q))
              else max (-2 ^ 63) (min (2 ^ 63 - 1) (FloatValue.towardZero q))) % 2 ^ e.bits ∧
          (e.Holds (FloatValue.towardZero q) →
            (e.decode (.float format) (e.encode x)).rational? =
              some (FloatValue.towardZero q : ℚ)) := by
  have hencode := toNat_encode_of_float he x
  refine ⟨fun hnan => ?_, fun hinfinite => ?_, fun hinfinite => ?_, fun q hq => ⟨?_, fun hholds => ?_⟩⟩
  · have hzero : e.carried .nan = 0 := ite_self 0
    rw [encode_of_float he, hnan, hzero]
    exact BitVec.zero_and
  · rw [hencode, hinfinite]
    cases hsigned : e.isSigned <;>
      simp [carried, hsigned, FloatValue.isNonneg, FloatValue.truncate, FloatValue.toInt]
  · rw [hencode, hinfinite]
    simp [carried, FloatValue.isNonneg, FloatValue.truncate, FloatValue.toInt]
  · rw [hencode, carried_of_rational? e hq]
    rfl
  · have hself : e.remainder (FloatValue.towardZero q) = FloatValue.towardZero q :=
      remainder_eq_iff.mpr ⟨hholds, .refl _⟩
    have hrecode := recode_of_float he x
    rw [carried_of_rational? e hq, saturated_of_holds hholds, hself] at hrecode
    have hsame := Scalar.value_floatOfInt (FloatValue.exact_towardZero hq)
    rw [← hrecode] at hsame
    exact hsame.rational?_eq.trans (FloatValue.rational?_ofInt _)

open scoped Platform.Release

theorem integer_slot_truncates_upper_half :
    (int ⟨4, by decide, by decide⟩).kind = .integer ∧
      Scalar.rational? (d := .float .half) 0xC180 = some (-11 / 4) ∧
      ((int ⟨4, by decide, by decide⟩).encode (d := .float .half) 0xC180).toNat = 14 ∧
      Scalar.rational? ((int ⟨4, by decide, by decide⟩).decode (.float .half)
        ((int ⟨4, by decide, by decide⟩).encode (d := .float .half) 0xC180)) = some (-2) ∧
      (uint ⟨64, by decide, by decide⟩).kind = .integer ∧
      Scalar.rational? (d := .float .double) 0x43E0000000000001 = some (2 ^ 63 + 2 ^ 11) ∧
      Scalar.rational? ((uint ⟨64, by decide, by decide⟩).decode (.float .double)
        ((uint ⟨64, by decide, by decide⟩).encode (d := .float .double) 0x43E0000000000001)) =
          some (2 ^ 63 + 2 ^ 11) := by
  have hhalf : FloatFormat.half.value 0xC180 = .finite true 1408 (-9) := by decide
  have hdouble : FloatFormat.double.value 0x43E0000000000001 = .finite false (2 ^ 52 + 1) 11 := by
    decide +kernel
  have hq : Scalar.rational? (d := .float .half) 0xC180 = some (-11 / 4) := by
    refine (congrArg FloatValue.rational? hhalf).trans ?_
    norm_num [FloatValue.rational?, FloatValue.signedSignificand]
  have hq' : Scalar.rational? (d := .float .double) 0x43E0000000000001 = some (2 ^ 63 + 2 ^ 11) := by
    refine (congrArg FloatValue.rational? hdouble).trans ?_
    norm_num [FloatValue.rational?, FloatValue.signedSignificand]
  have hpart : FloatValue.towardZero (-11 / 4) = -2 := by
    rw [FloatValue.towardZero, if_neg (by norm_num), Int.ceil_eq_iff]
    norm_num
  have hpart' : FloatValue.towardZero (2 ^ 63 + 2 ^ 11) = 2 ^ 63 + 2 ^ 11 := by
    rw [FloatValue.towardZero, if_pos (by norm_num), Int.floor_eq_iff]
    norm_num
  obtain ⟨hslot, hback⟩ := (integer_slot_truncates (e := int ⟨4, by decide, by decide⟩) rfl
    (0xC180 : Scalar (.float .half))).2.2.2 _ hq
  obtain ⟨-, hback'⟩ := (integer_slot_truncates (e := uint ⟨64, by decide, by decide⟩) rfl
    (0x43E0000000000001 : Scalar (.float .double))).2.2.2 _ hq'
  rw [hpart] at hslot hback
  rw [hpart'] at hback'
  rw [if_neg (by norm_num)] at hslot
  refine ⟨rfl, hq, Int.natCast_inj.mp (hslot.trans (by decide)), ?_, rfl, hq', ?_⟩
  · rw [hback (by decide)]
    norm_num
  · rw [hback' (by decide)]
    norm_num

end ElementType

end Bitpack
