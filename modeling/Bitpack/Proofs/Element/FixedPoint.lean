import Bitpack.Proofs.Element.Recode.Fixed
import Bitpack.Proofs.FloatFormat.Rational
import Mathlib.Data.Int.ModEq

/-!
Fixed-point elements as arithmetic. A scalar is counted in last places of the element, from below, and
the slot has that count modulo its size, as long as the count is one of the signed integers of 64 bits.
A count beyond these stops at the last of them and does not wrap around. The count is that of the
nearest double, which is another number than the scalar only for integers of more than 53 bits.
-/
namespace Bitpack

namespace Scalar

variable {d : Dtype}

def rational? : {d : Dtype} → Scalar d → Option ℚ
  | .int _, x => some x.toInt
  | .uint _, x => some x.toNat
  | .float format, x => (format.value x).rational?

theorem rational?_of_integer (hd : d.isFloat = false) (x : Scalar d) :
    x.rational? = some (x.whole : ℚ) := by
  cases d with
  | int size => rfl
  | uint size => exact congrArg some (Int.cast_natCast _).symm
  | float format => cases hd

theorem exists_rational?_toDouble {x : Scalar d} {q : ℚ} (hq : x.rational? = some q) :
    ∃ r, x.toDouble.rational? = some r ∧ (d.isFloat = true ∨ |q| < 2 ^ 53 → r = q) := by
  rcases d.isFloat_cases with hd | ⟨format, rfl⟩
  · rw [rational?_of_integer hd, Option.some.injEq] at hq
    have hsame := doubleOfInt_same_roundedInt (natAbs_whole_lt hd x)
    refine ⟨roundedInt .double x.whole, ?_, ?_⟩
    · rw [toDouble_eq hd, hsame.rational?_eq, FloatValue.rational?_ofInt]
    · rintro (hfloat | hsmall)
      · rw [hd] at hfloat
        cases hfloat
      · rw [← hq, ← Int.cast_abs, Int.abs_eq_natAbs] at hsmall
        rw [← hq, roundedInt_double (by exact_mod_cast hsmall)]
  · exact ⟨q, hq, fun _ => rfl⟩

theorem significand_lt {x : Scalar d} {negative : Bool} {m : Nat} {e : Int}
    (hvalue : x.toDouble = .finite negative m e) : m < 2 ^ 53 := by
  have hfits : FloatFormat.double.Fits m e := by
    cases d with
    | int size => exact FloatFormat.fits_of_value hvalue
    | uint size => exact FloatFormat.fits_of_value hvalue
    | float format => exact (FloatFormat.fits_of_value hvalue).widen (by cases format <;> decide)
  exact hfits.lt

/-- A count that is too large for 64 bits has a last place of its own and is even. -/
theorem two_dvd_floor {x : Scalar d} {r : ℚ} (hr : x.toDouble.rational? = some r) {k : Nat}
    (hlarge : 2 ^ 63 ≤ ⌊r * 2 ^ k⌋) : (2 : Int) ∣ ⌊r * 2 ^ k⌋ := by
  obtain ⟨negative, m, e, hvalue⟩ := FloatValue.finite_of_rational? hr
  rw [hvalue] at hr
  have hm := significand_lt hvalue
  have hsigned := FloatValue.natAbs_signedSignificand negative m
  rw [← FloatValue.integerPart_fdiv_of_rational? hr] at hlarge ⊢
  generalize FloatValue.signedSignificand negative m = n at hlarge hsigned ⊢
  unfold FloatValue.integerPart at hlarge ⊢
  split at hlarge
  · rename_i he
    rw [if_pos he]
    cases hshift : (e + k).toNat with
    | zero =>
        rw [hshift, pow_zero, mul_one] at hlarge
        omega
    | succ j =>
        rw [pow_succ]
        exact (dvd_mul_left 2 _).mul_left n
  · have hless := Int.natAbs_fdiv_le_natAbs n (2 ^ (-(e + k)).toNat)
    omega

end Scalar

namespace ElementType

section

variable [Platform] {d : Dtype} (width : SlotWidth) (intBits : Nat) (le : intBits ≤ width.bits)

theorem toNat_encode_fixed {x : Scalar d} {r : ℚ} (hr : x.toDouble.rational? = some r) :
    (((fixed width intBits le).encode x).toNat : Int) =
      max (-2 ^ 63) (min (2 ^ 63 - 1) ⌊r * 2 ^ (width.bits - intBits)⌋) % 2 ^ width.bits := by
  rw [encode_fixed, Slot.toNat_ofInt_and_mask _ width.le, FloatValue.floor_scale_of_rational? hr]

/-- What a slot holds of a number, and when that is the number rounded down and wrapped around. The
nearest double decides, which is the number itself for every float and for integers of up to 53 bits.
Its count of last places is written modulo the size of the slot as long as 64 bits are enough. A larger
count stops at a limit. The lower limit is right if the slot cannot tell it from the count, and the upper
one, which is odd, never is unless the double was another number. -/
theorem encode_fixed_eq_floor_iff {x : Scalar d} {q : ℚ} (hq : x.rational? = some q) :
    ∃ r, x.toDouble.rational? = some r ∧ (d.isFloat = true ∨ |q| < 2 ^ 53 → r = q) ∧
      ∀ k n : Int, k = ⌊q * 2 ^ (width.bits - intBits)⌋ → n = ⌊r * 2 ^ (width.bits - intBits)⌋ →
        ((fixed width intBits le).encode x).toNat =
            max (-2 ^ 63) (min (2 ^ 63 - 1) n) % 2 ^ width.bits ∧
          (((fixed width intBits le).encode x).toNat = k % 2 ^ width.bits ↔
            -2 ^ 63 ≤ n ∧ n < 2 ^ 63 ∧ 2 ^ width.bits ∣ n - k ∨
              n < -2 ^ 63 ∧ 2 ^ width.bits ∣ k + 2 ^ 63 ∨
              2 ^ 63 ≤ n ∧ r ≠ q ∧ 2 ^ width.bits ∣ k + 1 - 2 ^ 63) := by
  obtain ⟨r, hr, hexact⟩ := Scalar.exists_rational?_toDouble hq
  refine ⟨r, hr, hexact, ?_⟩
  rintro k n hk rfl
  have hencode := toNat_encode_fixed width intBits le hr
  refine ⟨hencode, ?_⟩
  rw [hencode]
  have heven := Scalar.two_dvd_floor (k := width.bits - intBits) hr
  have hcount : r = q → ⌊r * 2 ^ (width.bits - intBits)⌋ = k := fun hrq => hrq ▸ hk.symm
  generalize ⌊r * 2 ^ (width.bits - intBits)⌋ = n at heven hcount ⊢
  have hmod : ∀ z : Int, z % 2 ^ width.bits = k % 2 ^ width.bits ↔ 2 ^ width.bits ∣ z - k :=
    fun z => Int.modEq_iff_dvd.trans (dvd_sub_comm ..)
  rcases Int.lt_or_le n (-2 ^ 63) with hlow | hlow
  · rw [show max (-2 ^ 63) (min (2 ^ 63 - 1) n) = -2 ^ 63 by omega, hmod, dvd_sub_comm, sub_neg_eq_add]
    constructor
    · exact fun hdvd => .inr (.inl ⟨hlow, hdvd⟩)
    · rintro (⟨hin, -⟩ | ⟨-, hdvd⟩ | ⟨hhigh, -⟩)
      · omega
      · exact hdvd
      · omega
  · rcases Int.lt_or_le n (2 ^ 63) with hhigh | hhigh
    · rw [show max (-2 ^ 63) (min (2 ^ 63 - 1) n) = n by omega, hmod]
      constructor
      · exact fun hdvd => .inl ⟨hlow, hhigh, hdvd⟩
      · rintro (⟨-, -, hdvd⟩ | ⟨hbelow, -⟩ | ⟨habove, -⟩)
        · exact hdvd
        · omega
        · omega
    · rw [show max (-2 ^ 63) (min (2 ^ 63 - 1) n) = 2 ^ 63 - 1 by omega, hmod, dvd_sub_comm,
        ← sub_add k]
      constructor
      · intro hdvd
        refine .inr (.inr ⟨hhigh, fun hrq => ?_, ?_⟩)
        · -- The count is even and the limit is odd, and the size of the slot is even.
          have htwo : (2 : Int) ∣ 2 ^ width.bits := dvd_pow_self 2 width.pos.ne'
          have hodd := htwo.trans hdvd
          have hself := heven hhigh
          rw [hcount hrq] at hself
          omega
        · rwa [sub_add_eq_add_sub] at hdvd
      · rintro (⟨-, hin, -⟩ | ⟨hbelow, -⟩ | ⟨-, -, hdvd⟩)
        · omega
        · omega
        · rwa [sub_add_eq_add_sub]

end

open scoped Platform.Release

theorem encode_fixed_eq_floor_iff_negative :
    Scalar.rational? (d := .float .double) 0xBFD6000000000000 = some (-11 / 32) ∧
      ((fixed ⟨8, by decide, by decide⟩ 4 (by decide)).encode (d := .float .double)
        0xBFD6000000000000).toNat = 250 := by
  have hvalue : FloatFormat.double.value 0xBFD6000000000000 =
      .finite true (11 * 2 ^ 49) (-54) := by decide +kernel
  have hq : Scalar.rational? (d := .float .double) 0xBFD6000000000000 = some (-11 / 32) := by
    refine (congrArg FloatValue.rational? hvalue).trans ?_
    norm_num [FloatValue.rational?, FloatValue.signedSignificand]
  obtain ⟨r, -, hexact, hslot⟩ :=
    encode_fixed_eq_floor_iff ⟨8, by decide, by decide⟩ 4 (by decide) hq
  have hfloor : ⌊(-11 / 32 : ℚ) * 2 ^ (8 - 4)⌋ = -6 := by
    rw [Int.floor_eq_iff]
    norm_num
  rw [hexact (.inl rfl)] at hslot
  have hraw := (hslot (-6) (-6) hfloor.symm hfloor.symm).2.mpr (.inl (by decide))
  exact ⟨hq, Int.natCast_inj.mp (hraw.trans (by decide))⟩

/-- Not every number is rounded down and wrapped around. In `FIXED<8,4>` the count of `2^60` stops at a
limit and fills the slot, which should be empty. In `FIXED<64,64>` an integer of 54 bits loses its last
one to the double. -/
theorem encode_fixed_ne_floor :
    (Scalar.rational? (d := .float .double) 0x43B0000000000000 = some (2 ^ 60) ∧
        ((fixed ⟨8, by decide, by decide⟩ 4 (by decide)).encode (d := .float .double)
          0x43B0000000000000).toNat ≠ ⌊(2 ^ 60 : ℚ) * 2 ^ (8 - 4)⌋ % 2 ^ 8) ∧
      Scalar.rational? (d := .int .eight) 0x20000000000001 = some (2 ^ 53 + 1) ∧
        ((fixed ⟨64, by decide, by decide⟩ 64 (by decide)).encode (d := .int .eight)
          0x20000000000001).toNat ≠ ⌊(2 ^ 53 + 1 : ℚ) * 2 ^ (64 - 64)⌋ % 2 ^ 64 := by
  have hvalue : FloatFormat.double.value 0x43B0000000000000 = .finite false (2 ^ 52) 8 := by
    decide +kernel
  have hfull : ((fixed ⟨8, by decide, by decide⟩ 4 (by decide)).encode (d := .float .double)
      0x43B0000000000000).toNat = 255 := by decide +kernel
  have hlost : ((fixed ⟨64, by decide, by decide⟩ 64 (by decide)).encode (d := .int .eight)
      0x20000000000001).toNat = 2 ^ 53 := by decide +kernel
  have hcount : (2 ^ 60 : ℚ) * 2 ^ (8 - 4) = (2 ^ 64 : Int) := by norm_num
  have hwhole : (2 ^ 53 + 1 : ℚ) * 2 ^ (64 - 64) = (2 ^ 53 + 1 : Int) := by norm_num
  refine ⟨⟨?_, ?_⟩, ?_, ?_⟩
  · refine (congrArg FloatValue.rational? hvalue).trans ?_
    norm_num [FloatValue.rational?, FloatValue.signedSignificand]
  · rw [hfull, hcount, Int.floor_intCast]
    decide
  · have hinteger : BitVec.toInt (0x20000000000001 : Scalar (.int .eight)) = 2 ^ 53 + 1 := by
      decide +kernel
    rw [Scalar.rational?, hinteger]
    norm_num
  · rw [hlost, hwhole, Int.floor_intCast]
    decide

end ElementType

end Bitpack
