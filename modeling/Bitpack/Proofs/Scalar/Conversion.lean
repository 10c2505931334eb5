import Bitpack.Proofs.Element.Quantization
import Bitpack.Proofs.FloatFormat.Nearest

/-!
Conversions of numbers. A carrier of 64 bits has every integer up to a multiple of the size of any type,
and a double has the value of every float. The one conversion with two roundings is that of an integer to
a half, where the first one changes only integers that are infinite halves anyway. Every conversion is
therefore a single step from the number itself.
-/
namespace Bitpack.Scalar

variable {source target : Dtype} {format : FloatFormat}

def value : {d : Dtype} → Scalar d → FloatValue
  | .int _, x => .ofInt x.toInt
  | .uint _, x => .ofInt x.toNat
  | .float format, x => format.value x

theorem value_of_integer (hs : source.isFloat = false) (x : Scalar source) :
    x.value = .ofInt x.whole := by
  cases source with
  | int size => rfl
  | uint size => rfl
  | float format => cases hs

theorem rational?_value (x : Scalar source) : x.value.rational? = x.rational? := by
  rcases source.isFloat_cases with hs | ⟨format, rfl⟩
  · rw [value_of_integer hs, FloatValue.rational?_ofInt, rational?_of_integer hs]
  · rfl

section

variable [Platform]

theorem cast_integer (hs : source.isFloat = false) (ht : target.isFloat = false) (x : Scalar source) :
    cast target x = BitVec.ofInt target.width x.whole := by
  have hcast : cast target x = ofSigned target x.toSigned := by
    cases source with
    | int size => rfl
    | uint size => exact ofUnsigned_eq_ofSigned ht _
    | float format => cases hs
  rw [hcast, ofSigned_eq_ofInt ht, toSigned_eq_ofInt hs, ← setWidth_ofInt (width_le target),
    BitVec.ofInt_toInt, setWidth_ofInt (width_le target)]

theorem whole_cast_of_rational? (ht : target.isFloat = false) {x : Scalar (.float format)} {q : ℚ}
    (hq : x.rational? = some q) :
    (cast target x).whole = max target.lowest (min target.highest (FloatValue.towardZero q)) := by
  have hlimits := target.limits
  have hcast : cast target x =
      BitVec.ofInt target.width (max target.lowest (min target.highest (FloatValue.towardZero q))) := by
    rw [← FloatValue.truncate_of_rational? hq]
    exact ofDouble_eq ht _
  rw [hcast, whole_ofInt ht (by omega) (by omega)]

theorem whole_cast_of_infinite (ht : target.isFloat = false) {x : Scalar (.float format)}
    {negative : Bool} (hx : x.value = .infinite negative) :
    (cast target x).whole = if negative then target.lowest else target.highest := by
  have hlimits := target.limits
  have hcast : cast target x =
      BitVec.ofInt target.width (if negative then target.lowest else target.highest) := by
    rw [← ofDouble_infinite ht, ← hx]
    rfl
  rw [hcast, whole_ofInt ht] <;> split <;> omega

theorem cast_eq_of_integer (ht : target.isFloat = false) {x : Scalar source} {y : Scalar target}
    {q : ℚ} (hx : x.rational? = some q) (hy : y.rational? = some q) : cast target x = y := by
  rw [rational?_of_integer ht, Option.some.injEq] at hy
  subst hy
  have hwhole : (cast target x).whole = y.whole := by
    rcases source.isFloat_cases with hs | ⟨format, rfl⟩
    · rw [rational?_of_integer hs, Option.some.injEq] at hx
      have hsame : x.whole = y.whole := by exact_mod_cast hx
      rw [cast_integer hs ht, hsame, ofInt_whole ht]
    · have hbounds := whole_bounds ht y
      rw [whole_cast_of_rational? ht hx, FloatValue.towardZero_intCast]
      omega
  rw [← ofInt_whole ht (cast target x), hwhole, ofInt_whole ht]

variable [LawfulPlatform]

theorem cast_float (format : FloatFormat) (x : Scalar source) :
    cast (.float format) x = format.ofDouble x.value := by
  rcases source.isFloat_cases with hs | ⟨format', rfl⟩
  · have hwhole : x.value.Same (.finite (decide (x.whole < 0)) x.whole.natAbs 0) := by
      rw [value_of_integer hs]
      exact .refl _
    rw [cast_float_of_integer hs, floatOfInt_eq_round_of_lt format (natAbs_whole_lt hs x),
      FloatFormat.ofDouble_of_whole hwhole, value_of_integer hs]
  · rfl

theorem roundsTo_cast {x : Scalar source} {q : ℚ} (hq : x.rational? = some q)
    (hshort : format = .half → source.isFloat = true →
      (∃ n k : Int, n.natAbs < 2 ^ 21 ∧ q = n * 2 ^ k) ∨ FloatFormat.half.overflow ≤ |q|) :
    format.RoundsTo q (cast (.float format) x) := by
  have hvalue := (rational?_value x).trans hq
  have hround : format.ofDouble x.value = format.round x.value := by
    rcases source.isFloat_cases with hs | ⟨format', rfl⟩
    · rw [value_of_integer hs, FloatValue.ofInt]
      exact FloatFormat.ofDouble_of_whole (.refl _)
    · cases format with
      | half =>
          rcases hshort rfl rfl with ⟨n, k, hn, rfl⟩ | hlarge
          · exact FloatFormat.ofDouble_of_rational? hvalue hn
          · exact FloatFormat.ofDouble_of_infinite
              ((FloatFormat.half.roundsTo_round hvalue).infinite hlarge)
      | single => rfl
      | double => rfl
  rw [cast_float, hround]
  exact format.roundsTo_round hvalue

theorem cast_float_eq {x : Scalar source} {y : Scalar (.float format)} {q : ℚ}
    (hx : x.rational? = some q) (hy : y.rational? = some q) (hzero : q ≠ 0) :
    cast (.float format) x = y := by
  have hvalue := (rational?_value x).trans hx
  have hexact : format.Exact x.value :=
    (FloatFormat.exact_value y).congr (FloatValue.same_of_rational? hy hvalue hzero)
  rw [cast_float, FloatFormat.ofDouble_of_exact hexact]
  exact FloatValue.round_eq_of_rational? hvalue hy hzero

theorem rational?_cast_float_zero {x : Scalar source} (hx : x.rational? = some 0) :
    (cast (.float format) x).rational? = some 0 := by
  rw [← rational?_value] at hx
  obtain ⟨negative, m, e, hvalue⟩ := FloatValue.finite_of_rational? hx
  have habs := FloatValue.abs_of_rational? (hvalue ▸ hx)
  rw [abs_zero, zero_eq_mul, or_iff_left (zpow_ne_zero e two_ne_zero), Nat.cast_eq_zero] at habs
  subst habs
  rw [cast_float, ← hx, hvalue, FloatFormat.ofDouble_of_short (.refl _) (by decide)]
  exact (format.exact_zero negative e).rational?_eq

/-- Between integers a conversion keeps the number modulo the size of the target. A float loses its
fraction and stops at the limits of an integer type. A float type takes the nearest of its values or an
infinity; for a half made from a float of more than 21 bits this is known only to be one of those around
the number. The infinities and the signs are kept, and a number that both types have stays what it is. -/
theorem cast_converts_once (target : Dtype) (x : Scalar source) :
    (source.isFloat = false → target.isFloat = false → ∀ y : Scalar target,
        cast target x = y ↔ y.whole ≡ x.whole [ZMOD 2 ^ target.width]) ∧
      (source.isFloat = true → target.isFloat = false →
        (∀ q : ℚ, x.rational? = some q → (cast target x).whole =
          max target.lowest (min target.highest (FloatValue.towardZero q))) ∧
        ∀ negative, x.value = .infinite negative →
          (cast target x).whole = if negative then target.lowest else target.highest) ∧
      (∀ format : FloatFormat,
        (∀ q : ℚ, x.rational? = some q →
          format.Around q (cast (.float format) x) ∧
            ((format = .half → source.isFloat = true →
                (∃ n k : Int, n.natAbs < 2 ^ 21 ∧ q = n * 2 ^ k) ∨ FloatFormat.half.overflow ≤ |q|) →
              format.RoundsTo q (cast (.float format) x))) ∧
        (∀ negative, x.value = .infinite negative →
          (cast (.float format) x).value = .infinite negative) ∧
        ∀ negative m e, x.value = .finite negative m e →
          (cast (.float format) x).msb = negative) ∧
      ∀ (q : ℚ) (y : Scalar target), x.rational? = some q → y.rational? = some q →
        (cast target x).rational? = some q ∧
          (target.isFloat = false ∨ q ≠ 0 → cast target x = y) := by
  refine ⟨fun hs ht y => ?_, fun hs ht => ?_,
    fun format => ⟨fun q hq => ⟨?_, roundsTo_cast hq⟩, ?_, ?_⟩, fun q y hx hy => ?_⟩
  · rw [cast_integer hs ht, eq_ofInt_iff ht]
  · cases source with
    | int size => cases hs
    | uint size => cases hs
    | float format =>
        exact ⟨fun q => whole_cast_of_rational? ht, fun negative => whole_cast_of_infinite ht⟩
  · rw [cast_float]
    exact format.around_ofDouble ((rational?_value x).trans hq)
  · intro negative hinfinite
    have hnearest : format.nearest (.infinite negative) = .infinite negative :=
      format.value_infinityCode negative
    rw [cast_float, hinfinite, FloatFormat.ofDouble_of_infinite hnearest]
    exact hnearest
  · intro negative m e hfinite
    rw [cast_float, hfinite]
    exact format.msb_ofDouble negative m e
  · rcases target.isFloat_cases with ht | ⟨format, rfl⟩
    · have hcast := cast_eq_of_integer ht hx hy
      exact ⟨hcast ▸ hy, fun _ => hcast⟩
    · by_cases hzero : q = 0
      · subst hzero
        exact ⟨rational?_cast_float_zero hx, fun h => absurd h (by simp [Dtype.isFloat])⟩
      · have hcast := cast_float_eq hx hy hzero
        exact ⟨hcast ▸ hy, fun _ => hcast⟩

end

open scoped Platform.Release

theorem cast_converts_once_mixed :
    cast (.uint .one) (257 : Scalar (.int .four)) = 1 ∧
      whole (cast (.uint .one) (0x4072C00000000000 : Scalar (.float .double))) = 255 ∧
      value (cast (.float .half) (70000 : Scalar (.int .eight))) = .infinite false ∧
      BitVec.msb (cast (.float .half) (0x8000000000000000 : Scalar (.float .double))) = true ∧
      cast (.float .single) (0x4000000000000000 : Scalar (.int .eight)) = 0x5E800000 := by
  have hdouble : FloatFormat.double.value 0x4072C00000000000 = .finite false (300 * 2 ^ 44) (-44) := by
    decide +kernel
  have hzero : FloatFormat.double.value 0x8000000000000000 = .finite true 0 (-1074) := by
    decide +kernel
  have hsingle : FloatFormat.single.value 0x5E800000 = .finite false (2 ^ 23) 39 := by decide +kernel
  have hlarge : rational? (0x4072C00000000000 : Scalar (.float .double)) = some (300 : Int) := by
    refine (congrArg FloatValue.rational? hdouble).trans ?_
    norm_num [FloatValue.rational?, FloatValue.signedSignificand]
  have hpower : rational? (0x5E800000 : Scalar (.float .single)) = some (2 ^ 62) := by
    refine (congrArg FloatValue.rational? hsingle).trans ?_
    norm_num [FloatValue.rational?, FloatValue.signedSignificand]
  have hlong : BitVec.toInt (70000 : Scalar (.int .eight)) = 70000 := by decide +kernel
  have hinteger : BitVec.toInt (0x4000000000000000 : Scalar (.int .eight)) = 2 ^ 62 := by
    decide +kernel
  have hoverflow : FloatFormat.half.overflow ≤ |(70000 : ℚ)| := by
    rw [FloatFormat.overflow_half]
    norm_num
  obtain ⟨hwrap, -⟩ := cast_converts_once (.uint .one) (257 : Scalar (.int .four))
  obtain ⟨-, hclamp, -⟩ :=
    cast_converts_once (.uint .one) (0x4072C00000000000 : Scalar (.float .double))
  obtain ⟨-, -, hhalf, -⟩ :=
    cast_converts_once (.float .half) (70000 : Scalar (.int .eight))
  obtain ⟨-, -, hsign, -⟩ :=
    cast_converts_once (.float .half) (0x8000000000000000 : Scalar (.float .double))
  obtain ⟨-, -, -, hexact⟩ :=
    cast_converts_once (.float .single) (0x4000000000000000 : Scalar (.int .eight))
  refine ⟨(hwrap rfl rfl 1).mpr (by decide), ?_, ?_, (hsign .half).2.2 _ _ _ hzero, ?_⟩
  · rw [(hclamp rfl rfl).1 _ hlarge, FloatValue.towardZero_intCast]
    decide
  · have hnumber : rational? (70000 : Scalar (.int .eight)) = some 70000 := by
      rw [rational?, hlong]
      norm_num
    have hrounds := ((hhalf .half).1 _ hnumber).2 fun _ hfloat => absurd hfloat (by decide)
    exact hrounds.infinite hoverflow
  · have hnumber : rational? (0x4000000000000000 : Scalar (.int .eight)) = some (2 ^ 62) := by
      rw [rational?, hinteger]
      norm_num
    exact (hexact _ _ hnumber hpower).2 (.inr (by norm_num))

/-- On the way through a single a double of 41 bits loses its last one, and then lies between two
halves. -/
theorem cast_half_of_long_double :
    rational? (0x3FF0020000001000 : Scalar (.float .double)) =
      some (1 + 2 ^ (-11 : Int) + 2 ^ (-40 : Int)) ∧
      cast (.float .half) (0x3FF0020000001000 : Scalar (.float .double)) = 0x3C00 ∧
      ¬FloatFormat.half.RoundsTo (1 + 2 ^ (-11 : Int) + 2 ^ (-40 : Int)) 0x3C00 := by
  have hdouble : FloatFormat.double.value 0x3FF0020000001000 =
      .finite false ((2 ^ 40 + 2 ^ 29 + 1) * 2 ^ 12) (-52) := by decide +kernel
  refine ⟨?_, by decide +kernel, fun hrounds => ?_⟩
  · refine (congrArg FloatValue.rational? hdouble).trans ?_
    norm_num [FloatValue.rational?, FloatValue.signedSignificand]
  · have hone : FloatFormat.half.value 0x3C00 = .finite false (2 ^ 10) (-10) := by decide +kernel
    have hnext : FloatFormat.half.value 0x3C01 = .finite false (2 ^ 10 + 1) (-10) := by decide +kernel
    obtain ⟨r, hr, hnear⟩ := hrounds.nearest (by rw [FloatFormat.overflow_half]; norm_num)
    have hother := (hnear 0x3C01 _ ((congrArg FloatValue.rational? hnext).trans rfl)).1
    rw [hone] at hr
    cases hr
    norm_num [FloatValue.signedSignificand, abs_le] at hother

end Bitpack.Scalar
