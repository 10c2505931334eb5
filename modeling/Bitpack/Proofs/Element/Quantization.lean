import Bitpack.Proofs.Element.FixedPoint
import Bitpack.Proofs.Element.Modular
import Bitpack.Proofs.Element.Recode.FixedInteger

/-!
Numbers in the range of a fixed-point slot. Such a number comes back as the greatest multiple of the
last place that is not above it: scaling it, converting the count to a double, dividing by the scale and
narrowing the quotient to the scalar type round nothing, since the count has no more bits than the
number had.
-/
namespace Bitpack

/-- The greatest multiple of `2^-frac` that is not above a number. -/
def roundedDown (frac : Nat) (q : ℚ) : ℚ :=
  ⌊q * 2 ^ frac⌋ / 2 ^ frac

theorem roundedDown_isGreatest (frac : Nat) (q : ℚ) :
    IsGreatest {t : ℚ | (∃ n : ℤ, t = n / 2 ^ frac) ∧ t ≤ q} (roundedDown frac q) := by
  have hpos : (0 : ℚ) < 2 ^ frac := by positivity
  refine ⟨⟨⟨_, rfl⟩, ?_⟩, ?_⟩
  · exact (div_le_iff₀ hpos).mpr (Int.floor_le _)
  · rintro t ⟨⟨n, rfl⟩, hle⟩
    refine div_le_div_of_nonneg_right ?_ hpos.le
    exact_mod_cast Int.le_floor.mpr ((div_le_iff₀ hpos).mp hle)

theorem sub_roundedDown_lt (frac : Nat) (q : ℚ) : q - roundedDown frac q < 1 / 2 ^ frac := by
  have hpos : (0 : ℚ) < 2 ^ frac := by positivity
  have hlt := Int.lt_floor_add_one (q * 2 ^ frac)
  rw [sub_lt_iff_lt_add, roundedDown, ← add_div, lt_div_iff₀ hpos, add_comm]
  exact hlt

theorem roundedDown_of_multiple {frac : Nat} {q : ℚ} (hq : ∃ n : ℤ, q = n / 2 ^ frac) :
    roundedDown frac q = q := by
  have hgreatest := roundedDown_isGreatest frac q
  exact le_antisymm hgreatest.1.2 (hgreatest.2 ⟨hq, le_refl q⟩)

theorem roundedDown_mono (frac : Nat) : Monotone (roundedDown frac) := by
  intro q q' hle
  exact (roundedDown_isGreatest frac q').2
    ⟨⟨_, rfl⟩, (roundedDown_isGreatest frac q).1.2.trans hle⟩

namespace Scalar

variable {d : Dtype}

theorem natAbs_whole_le (hd : d.isFloat = false) (x : Scalar d)
    (hshort : d = .int .eight ∨ d = .uint .eight → x.whole.natAbs ≤ 2 ^ 53) :
    x.whole.natAbs ≤ 2 ^ 53 := by
  obtain ⟨hlow, hhigh⟩ := whole_bounds hd x
  obtain ⟨-, -, hsymmetric, -⟩ := d.limits
  have hsize : d.highest < 2 ^ 52 ∨ d = .int .eight ∨ d = .uint .eight := by
    rcases d with size | size | format
    · cases size <;> decide
    · cases size <;> decide
    · cases format <;> decide
  rcases hsize with hsmall | hlong
  · omega
  · exact hshort hlong

theorem exact_whole (hd : d.isFloat = false) {x : Scalar d} {q : ℚ} (hq : x.rational? = some q)
    (hshort : d = .int .eight ∨ d = .uint .eight → |q| ≤ 2 ^ 53) :
    q = x.whole ∧ FloatFormat.double.Exact (.ofInt x.whole) := by
  rw [rational?_of_integer hd, Option.some.injEq] at hq
  subst hq
  refine ⟨rfl, FloatFormat.exact_of_le_two_pow _ (natAbs_whole_le hd x fun hlong => ?_)⟩
  have hle := hshort hlong
  rw [← Int.cast_abs, Int.abs_eq_natAbs] at hle
  exact_mod_cast hle

theorem rational?_toDouble {x : Scalar d} {q : ℚ} (hq : x.rational? = some q)
    (hshort : d = .int .eight ∨ d = .uint .eight → |q| ≤ 2 ^ 53) :
    x.toDouble.rational? = some q := by
  rcases d.isFloat_cases with hd | ⟨format, rfl⟩
  · obtain ⟨rfl, hexact⟩ := exact_whole hd hq hshort
    rw [toDouble_eq hd, (doubleOfInt_same hexact).rational?_eq, FloatValue.rational?_ofInt]
  · exact hq

theorem eq_of_rational? {x y : Scalar d} {q : ℚ} (hx : x.rational? = some q)
    (hy : y.rational? = some q) (hzero : q ≠ 0) : x = y := by
  rcases d.isFloat_cases with hd | ⟨format, rfl⟩
  · rw [rational?_of_integer hd, Option.some.injEq] at hx hy
    have hwhole : x.whole = y.whole := by exact_mod_cast hx.trans hy.symm
    rw [← ofInt_whole hd x, hwhole, ofInt_whole hd y]
  · exact (FloatValue.round_eq_of_rational? hx hx hzero).symm.trans
      (FloatValue.round_eq_of_rational? hx hy hzero)

end Scalar

namespace ElementType

variable {d : Dtype} {width : SlotWidth} {intBits : Nat} (le : intBits ≤ width.bits)

/-- A number that a fixed-point slot has room for. A long integer has to be one that a double has. -/
structure Quantizable (width : SlotWidth) (intBits : Nat) (x : Scalar d) (q : ℚ) : Prop where
  number : x.rational? = some q
  short : d = .int .eight ∨ d = .uint .eight → |q| ≤ 2 ^ 53
  low : -2 ^ (width.bits - 1) ≤ ⌊q * 2 ^ (width.bits - intBits)⌋
  high : ⌊q * 2 ^ (width.bits - intBits)⌋ < 2 ^ (width.bits - 1)

namespace Quantizable

variable {x : Scalar d} {q : ℚ} (hx : Quantizable width intBits x q)

include hx

theorem bmod_eq :
    (⌊q * 2 ^ (width.bits - intBits)⌋).bmod (2 ^ width.bits) = ⌊q * 2 ^ (width.bits - intBits)⌋ :=
  bmod_of_fits width.pos hx.low hx.high

theorem exact_count {format : FloatFormat} {pattern : BitVec format.width}
    (hpattern : (format.value pattern).rational? = some q) :
    FloatFormat.double.Exact (.ofInt ⌊q * 2 ^ (width.bits - intBits)⌋) ∧
      format.Exact ((FloatValue.ofInt ⌊q * 2 ^ (width.bits - intBits)⌋).scale
        (-(width.bits - intBits : Nat))) := by
  obtain ⟨negative, m, e, hvalue⟩ := FloatValue.finite_of_rational? hpattern
  rw [hvalue] at hpattern
  apply FloatValue.cutsOff_fdiv.exact_wrapped hvalue width.pos width.le
  rw [FloatValue.integerPart_fdiv_of_rational? hpattern, hx.bmod_eq]

theorem encode_eq [Platform] :
    (fixed width intBits le).encode x =
      BitVec.ofInt 64 ⌊q * 2 ^ (width.bits - intBits)⌋ &&& Slot.mask width.bits := by
  have hlow := hx.low
  have hhigh := hx.high
  have hpow : (2 : Int) ^ (width.bits - 1) ≤ 2 ^ 63 :=
    pow_le_pow_right₀ (by decide) (Nat.sub_le_sub_right width.le 1)
  rw [encode_fixed, FloatValue.floor_scale_of_rational? (Scalar.rational?_toDouble hx.number hx.short),
    min_eq_right (by omega), max_eq_right (by omega)]

end Quantizable

section

variable [Platform]

theorem recode_fixed_of_integer (hd : d.isFloat = false) {x : Scalar d} {q : ℚ}
    (hx : Quantizable width intBits x q) : (fixed width intBits le).recode x = x := by
  obtain ⟨hwhole, hplace⟩ := Scalar.exact_whole hd hx.number hx.short
  have hcount : ⌊q * 2 ^ (width.bits - intBits)⌋ = x.whole * 2 ^ (width.bits - intBits) := by
    rw [hwhole]
    exact_mod_cast Int.floor_intCast (R := ℚ) (x.whole * 2 ^ (width.bits - intBits))
  have hnearest : x.toDouble = FloatFormat.double.value (FloatFormat.double.round (.ofInt x.whole)) :=
    Scalar.toDouble_eq hd x
  have hnumber := Scalar.rational?_toDouble hx.number hx.short
  rw [hnearest] at hnumber
  obtain ⟨hdouble, -⟩ := hx.exact_count hnumber
  obtain ⟨hlow, hhigh⟩ := Scalar.whole_bounds hd x
  rw [← Scalar.ofInt_whole hd x]
  exact recode_fixed_ofInt hd hlow hhigh hcount hx.bmod_eq hdouble hplace

variable [LawfulPlatform]

theorem rational?_recode_fixed_float {format : FloatFormat} {x : Scalar (.float format)} {q : ℚ}
    (hx : Quantizable width intBits x q) :
    ((fixed width intBits le).recode x).rational? =
      some (roundedDown (width.bits - intBits) q) := by
  obtain ⟨hdouble, hformat⟩ := hx.exact_count hx.number
  have hsame := same_recode_fixed (hx.encode_eq le) (hx.bmod_eq.symm ▸ hdouble)
    (hx.bmod_eq.symm ▸ hformat)
  refine hsame.rational?_eq.trans ?_
  rw [hx.bmod_eq, FloatValue.rational?_scale, FloatValue.rational?_ofInt, Option.map_some, zpow_neg,
    zpow_natCast, ← div_eq_mul_inv, roundedDown]

theorem rational?_recode_fixed {x : Scalar d} {q : ℚ} (hx : Quantizable width intBits x q) :
    ((fixed width intBits le).recode x).rational? =
      some (roundedDown (width.bits - intBits) q) := by
  rcases d.isFloat_cases with hd | ⟨format, rfl⟩
  · obtain ⟨hwhole, -⟩ := Scalar.exact_whole hd hx.number hx.short
    have hmultiple : ∃ n : ℤ, q = n / 2 ^ (width.bits - intBits) := by
      refine ⟨x.whole * 2 ^ (width.bits - intBits), ?_⟩
      rw [hwhole]
      push_cast
      rw [mul_div_cancel_right₀ _ (pow_ne_zero _ two_ne_zero)]
    rw [recode_fixed_of_integer le hd hx, roundedDown_of_multiple hmultiple]
    exact hx.number
  · exact rational?_recode_fixed_float le hx

/-- A number that a fixed-point slot has room for comes back as the greatest multiple of the last place
that is not above it. The error is less than one last place and never upwards, a multiple comes back as
it was, bit for bit but for the sign of a zero, and the order of two numbers is kept. -/
theorem fixed_quantizes_exactly {x : Scalar d} {q : ℚ} (hx : Quantizable width intBits x q) :
    ∃ r : ℚ, ((fixed width intBits le).decode d ((fixed width intBits le).encode x)).rational? = some r ∧
      r = ⌊q * 2 ^ (width.bits - intBits)⌋ / 2 ^ (width.bits - intBits) ∧
      IsGreatest {t : ℚ | (∃ n : ℤ, t = n / 2 ^ (width.bits - intBits)) ∧ t ≤ q} r ∧
      0 ≤ q - r ∧ q - r < 1 / 2 ^ (width.bits - intBits) ∧
      ((∃ n : ℤ, q = n / 2 ^ (width.bits - intBits)) →
        r = q ∧ (q ≠ 0 →
          (fixed width intBits le).decode d ((fixed width intBits le).encode x) = x)) ∧
      ∀ (x' : Scalar d) (q' : ℚ), Quantizable width intBits x' q' → q ≤ q' →
        ∃ r' : ℚ,
          ((fixed width intBits le).decode d ((fixed width intBits le).encode x')).rational? = some r' ∧
            r ≤ r' := by
  have hrecode := rational?_recode_fixed le hx
  have hgreatest := roundedDown_isGreatest (width.bits - intBits) q
  refine ⟨_, hrecode, rfl, hgreatest, sub_nonneg.mpr hgreatest.1.2, sub_roundedDown_lt _ q, ?_, ?_⟩
  · intro hmultiple
    have hself := roundedDown_of_multiple hmultiple
    rw [hself] at hrecode
    exact ⟨hself, Scalar.eq_of_rational? hrecode hx.number⟩
  · intro x' q' hx' hle
    exact ⟨_, rational?_recode_fixed le hx', roundedDown_mono _ hle⟩

end

open scoped Platform.Release

theorem fixed_quantizes_exactly_at_limits :
    Quantizable (d := .float .half) ⟨23, by decide, by decide⟩ 0 0x8003 (-3 / 2 ^ 24) ∧
      Scalar.rational? ((fixed ⟨23, by decide, by decide⟩ 0 (by decide)).decode (.float .half)
        ((fixed ⟨23, by decide, by decide⟩ 0 (by decide)).encode (d := .float .half) 0x8003)) =
          some (-2 / 2 ^ 23) ∧
      Quantizable (d := .int .eight) ⟨64, by decide, by decide⟩ 60 0x20000000000000 (2 ^ 53) ∧
      (fixed ⟨64, by decide, by decide⟩ 60 (by decide)).decode (.int .eight)
        ((fixed ⟨64, by decide, by decide⟩ 60 (by decide)).encode (d := .int .eight)
          0x20000000000000) = 0x20000000000000 := by
  have hvalue : FloatFormat.half.value 0x8003 = .finite true 3 (-24) := by decide
  have hfloor : ⌊(-3 / 2 ^ 24 : ℚ) * 2 ^ (23 - 0)⌋ = -2 := by
    rw [Int.floor_eq_iff]
    norm_num
  have hhalf : Quantizable (d := .float .half) ⟨23, by decide, by decide⟩ 0 0x8003 (-3 / 2 ^ 24) := by
    refine ⟨?_, fun hlong => absurd hlong (by decide), ?_, ?_⟩
    · refine (congrArg FloatValue.rational? hvalue).trans ?_
      norm_num [FloatValue.rational?, FloatValue.signedSignificand]
    · exact hfloor ▸ by decide
    · exact hfloor ▸ by decide
  have hwhole : BitVec.toInt (0x20000000000000 : Scalar (.int .eight)) = 2 ^ 53 := by decide +kernel
  have hcount : ⌊(2 ^ 53 : ℚ) * 2 ^ (64 - 60)⌋ = 2 ^ 57 := by
    rw [Int.floor_eq_iff]
    norm_num
  have hlong : Quantizable (d := .int .eight) ⟨64, by decide, by decide⟩ 60 0x20000000000000
      (2 ^ 53) := by
    refine ⟨?_, fun _ => by norm_num, ?_, ?_⟩
    · rw [Scalar.rational?, hwhole]
      norm_num
    · exact hcount ▸ by decide
    · exact hcount ▸ by decide
  obtain ⟨r, hback, hr, -⟩ := fixed_quantizes_exactly (by decide) hhalf
  obtain ⟨_, -, -, -, -, -, hmultiple, -⟩ := fixed_quantizes_exactly (by decide) hlong
  refine ⟨hhalf, ?_, hlong, (hmultiple ⟨2 ^ 57, by norm_num⟩).2 (by norm_num)⟩
  rw [hback, hr, hfloor]
  norm_num

end ElementType

end Bitpack
