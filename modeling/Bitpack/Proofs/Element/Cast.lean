import Bitpack.Config
import Bitpack.Element.Codec
import Bitpack.Proofs.Scalar.Double
import Bitpack.Proofs.Scalar.Integer
import Bitpack.Proofs.Word.Bits

/-!
Encoding and casting. Both convert a scalar to the same type, but not by the same steps: an element
always becomes a single by way of a double, and that is the one place where the two differ.
-/
namespace Bitpack

/-- The integer part of a number; the other values have none. -/
def FloatValue.whole? : FloatValue → Option Int
  | .finite negative m e => some (integerPart Int.tdiv (signedSignificand negative m) e)
  | _ => none

def Dtype.Contains : Dtype → Int → Prop
  | .int size, z => -2 ^ (8 * size.bytes - 1) ≤ z ∧ z < 2 ^ (8 * size.bytes - 1)
  | .uint size, z => 0 ≤ z ∧ z < 2 ^ (8 * size.bytes)
  | .float _, _ => True

instance (d : Dtype) (z : Int) : Decidable (d.Contains z) :=
  match d with
  | .int _ => inferInstanceAs (Decidable (_ ∧ _))
  | .uint _ => inferInstanceAs (Decidable (_ ∧ _))
  | .float _ => isTrue trivial

namespace Scalar

variable {d : Dtype}

/-- A float that becomes an integer has to be a number with an integer part in range. -/
def Castable (lane : Dtype) (x : Scalar d) : Prop :=
  match d, x with
  | .float format, x =>
    lane.isFloat = false → ∃ z, (format.value x).whole? = some z ∧ lane.Contains z
  | _, _ => True

/-- Whether an integer changes on its way to a single when it becomes a double first. -/
def DoubleRounded (lane : Dtype) (x : Scalar d) : Prop :=
  match d, lane, x with
  | .int _, .float .single, x => RoundsTwice x.toInt
  | .uint _, .float .single, x => RoundsTwice x.toNat
  | _, _, _ => False

end Scalar

theorem FloatValue.truncate_of_whole? {v : FloatValue} {z lo hi : Int} (hwhole : v.whole? = some z)
    (hlo : lo ≤ z) (hhi : z ≤ hi) : v.truncate lo hi = z := by
  cases v with
  | nan => cases hwhole
  | infinite negative => cases hwhole
  | finite negative m e =>
      rw [truncate, toInt, Option.some.inj hwhole]
      omega

theorem FloatValue.whole?_nonpos {v : FloatValue} {z : Int} (hwhole : v.whole? = some z)
    (hneg : v.isNonneg = false) : z ≤ 0 := by
  cases v with
  | nan => cases hwhole
  | infinite negative => cases hwhole
  | finite negative m e =>
      cases negative with
      | false => cases hneg
      | true =>
          cases hwhole
          have hpow : ∀ k : Nat, (0 : Int) ≤ 2 ^ k := fun k => Int.pow_nonneg (by decide)
          simp only [integerPart, signedSignificand, ↓reduceIte]
          split
          · exact Int.mul_nonpos_of_nonpos_of_nonneg (by omega) (hpow _)
          · rw [Int.neg_tdiv]
            exact Int.neg_nonpos_of_nonneg (Int.tdiv_nonneg (by omega) (hpow _))

theorem setWidth_ofInt {w : Nat} (hw : w ≤ 64) (i : Int) :
    (BitVec.ofInt 64 i).setWidth w = BitVec.ofInt w i := by
  have hdvd : ((2 ^ w : Nat) : Int) ∣ ((2 ^ 64 : Nat) : Int) :=
    Int.natCast_dvd_natCast.mpr (Nat.pow_dvd_pow 2 hw)
  apply BitVec.eq_of_toNat_eq
  rw [BitVec.toNat_setWidth, BitVec.toNat_ofInt, BitVec.toNat_ofInt, ← Int.emod_emod_of_dvd i hdvd,
    Int.toNat_emod (Int.emod_nonneg i (by decide)) (Int.natCast_nonneg _), Int.toNat_natCast]

theorem and_mask_eq (x : BitVec 64) (w : Nat) :
    x &&& Slot.mask w = (x.setWidth w).setWidth 64 := by
  apply BitVec.eq_of_getLsbD_eq
  intro i hi
  rw [BitVec.getLsbD_and, Slot.getLsbD_mask, BitVec.getLsbD_setWidth, BitVec.getLsbD_setWidth]
  by_cases hlow : i < w <;> simp [hi, hlow]

namespace ElementType

theorem setWidth_inj {w : Nat} (hw : w ≤ 64) {y y' : BitVec w} :
    y.setWidth 64 = y'.setWidth 64 ↔ y = y' := by
  refine ⟨fun heq => ?_, congrArg _⟩
  have hback := congrArg (BitVec.setWidth w) heq
  rwa [BitVec.setWidth_setWidth_of_le _ hw, BitVec.setWidth_setWidth_of_le _ hw, BitVec.setWidth_eq,
    BitVec.setWidth_eq] at hback

theorem setWidth_and_mask {w : Nat} (hw : w ≤ 64) (y : BitVec w) :
    y.setWidth 64 &&& Slot.mask w = y.setWidth 64 := by
  rw [and_mask_eq, BitVec.setWidth_setWidth_of_le _ hw, BitVec.setWidth_eq]

end ElementType

section

variable [Platform]

namespace ElementType

variable {d lane : Dtype}

theorem setWidth_wholeBits_of_float {format : FloatFormat} (hlane : lane.isFloat = false)
    {x : Scalar (.float format)} {z : Int} (hwhole : (format.value x).whole? = some z)
    (hrange : lane.Contains z) :
    ((Config.defaultElement lane).wholeBits x).setWidth lane.width = BitVec.ofInt _ z ∧
      Scalar.cast lane x = BitVec.ofInt _ z := by
  cases lane with
  | int size =>
      have hbounds : (-2 ^ 63 : Int) ≤ z ∧ z ≤ 2 ^ 63 - 1 := by
        cases size <;> simp [Dtype.Contains, IntSize.bytes] at hrange <;> omega
      constructor
      · change (BitVec.ofInt 64 ((format.value x).truncate (-2 ^ 63) (2 ^ 63 - 1))).setWidth _ = _
        rw [FloatValue.truncate_of_whole? hwhole hbounds.1 hbounds.2]
        exact setWidth_ofInt (by cases size <;> decide) z
      · exact congrArg (BitVec.ofInt _) (FloatValue.truncate_of_whole? hwhole hrange.1
          (Int.le_sub_one_of_lt hrange.2))
  | uint size =>
      have hbound : z ≤ 2 ^ 64 - 1 := by
        cases size <;> simp [Dtype.Contains, IntSize.bytes] at hrange <;> omega
      constructor
      · have hcarrier : (Config.defaultElement (.uint size)).wholeBits x = BitVec.ofInt 64 z := by
          change (if (!false && (format.value x).isNonneg) = true then
              BitVec.ofInt 64 ((format.value x).truncate 0 (2 ^ 64 - 1))
            else BitVec.ofInt 64 ((format.value x).truncate (-2 ^ 63) (2 ^ 63 - 1))) = _
          split
          · rw [FloatValue.truncate_of_whole? hwhole hrange.1 hbound]
          · rename_i hneg
            -- Below zero the carrier is a signed one, but the integer part in range is zero.
            have hzero := FloatValue.whole?_nonpos hwhole (by simpa using hneg)
            rw [FloatValue.truncate_of_whole? hwhole (by have := hrange.1; omega) (by omega)]
        rw [hcarrier]
        exact setWidth_ofInt (by cases size <;> decide) z
      · exact congrArg (BitVec.ofInt _) (FloatValue.truncate_of_whole? hwhole hrange.1
          (Int.le_sub_one_of_lt hrange.2))
  | float format => cases hlane

theorem setWidth_wholeBits (hlane : lane.isFloat = false) {x : Scalar d} (hx : x.Castable lane) :
    ((Config.defaultElement lane).wholeBits x).setWidth lane.width = Scalar.cast lane x := by
  cases d with
  | int size => cases lane <;> first | rfl | cases hlane
  | uint size => cases lane <;> first | rfl | cases hlane
  | float format =>
      obtain ⟨z, hwhole, hrange⟩ := hx hlane
      obtain ⟨hcarrier, hcast⟩ := setWidth_wholeBits_of_float hlane hwhole hrange
      exact hcarrier.trans hcast.symm

theorem encode_of_isFloat_eq_false (hlane : lane.isFloat = false) (x : Scalar d) :
    (Config.defaultElement lane).encode x =
      (((Config.defaultElement lane).wholeBits x).setWidth lane.width).setWidth 64 := by
  cases lane with
  | int size => exact and_mask_eq _ _
  | uint size => exact and_mask_eq _ _
  | float format => cases hlane

end ElementType

namespace Scalar

variable {d : Dtype}

theorem ofSigned_eq_ofInt (hd : d.isFloat = false) (carrier : BitVec 64) :
    ofSigned d carrier = BitVec.ofInt d.width carrier.toInt := by
  rw [← setWidth_ofInt (width_le d), BitVec.ofInt_toInt]
  cases d with
  | int size => rfl
  | uint size => rfl
  | float format => cases hd

theorem cast_half (x : Scalar d) :
    cast (.float .half) x = FloatFormat.half.ofDouble x.toDouble := by
  rcases d.isFloat_cases with hd | ⟨format, rfl⟩
  · rw [cast_float_of_integer hd, toDouble_eq hd]
    rfl
  · rfl

theorem single_eq_cast_iff (x : Scalar d) :
    FloatFormat.single.round x.toDouble = cast (.float .single) x ↔
      ¬x.DoubleRounded (.float .single) := by
  rcases d.isFloat_cases with hd | ⟨format, rfl⟩
  · have htwice : x.DoubleRounded (.float .single) ↔ RoundsTwice x.whole := by
      cases d with
      | int size => exact .rfl
      | uint size => exact .rfl
      | float format => cases hd
    rw [htwice, cast_float_of_integer hd, toDouble_eq hd]
    exact single_round_doubleOfInt_iff (natAbs_whole_lt hd x)
  · exact iff_of_true rfl id

end Scalar

/-- Encoding into the slot of a type is casting to the type, for every scalar that can be cast at all,
but for the integers that are rounded twice. -/
theorem ElementType.encode_eq_cast_iff {d lane : Dtype} (hlane : lane ≠ .float .double)
    {x : Scalar d} (hx : x.Castable lane) :
    (Config.defaultElement lane).encode x = (Scalar.cast lane x).setWidth 64 ↔
      ¬x.DoubleRounded lane := by
  cases lane with
  | int size =>
      rw [encode_of_isFloat_eq_false rfl, setWidth_wholeBits rfl hx]
      exact iff_of_true rfl (by cases d <;> exact id)
  | uint size =>
      rw [encode_of_isFloat_eq_false rfl, setWidth_wholeBits rfl hx]
      exact iff_of_true rfl (by cases d <;> exact id)
  | float format =>
      cases format with
      | half =>
          rw [Scalar.cast_half]
          exact iff_of_true (setWidth_and_mask (by decide) _) (by cases d <;> exact id)
      | single =>
          rw [← Scalar.single_eq_cast_iff]
          have hencode : (Config.defaultElement (.float .single)).encode x =
              (FloatFormat.single.round x.toDouble).setWidth 64 :=
            setWidth_and_mask (by decide) _
          rw [hencode]
          exact setWidth_inj (by decide)
      | double => exact absurd rfl hlane

end

end Bitpack
