import Bitpack.Platform
import Bitpack.Proofs.FloatFormat.Nearest
import Bitpack.Proofs.FloatFormat.Whole

/-!
Halves that stand for doubles. A double of few bits becomes the nearest half, and one beyond the halves
an infinity; of a longer one the last bits need not count.
-/
namespace Bitpack

/-- What is known of the conversion from doubles to halves. It keeps signs and what is no number, and
leads to a half around the number. That is an infinity wherever the nearest half is one, and the nearest
half of a number of no more than 21 bits. -/
class LawfulPlatform [Platform] : Prop where
  half_nan : Platform.halfOfDouble .nan = FloatFormat.half.round .nan
  half_msb : ∀ (negative : Bool) (m : Nat) (e : Int),
    (Platform.halfOfDouble (.finite negative m e)).msb = negative
  half_around : ∀ {v : FloatValue} {q : ℚ}, v.rational? = some q →
    FloatFormat.half.Around q (Platform.halfOfDouble v)
  half_of_infinite : ∀ {v : FloatValue} {negative : Bool},
    FloatFormat.half.nearest v = .infinite negative →
      Platform.halfOfDouble v = FloatFormat.half.round v
  half_of_short : ∀ {v : FloatValue} {negative : Bool} {m : Nat} {e : Int},
    v.Same (.finite negative m e) → m < 2 ^ 21 →
      Platform.halfOfDouble v = FloatFormat.half.round v

namespace FloatFormat

theorem half_round_single_nearest_of_overflow_le {v : FloatValue} {q : ℚ}
    (hq : v.rational? = some q) (hlarge : half.overflow ≤ |q|) :
    half.round (single.nearest v) = half.round v := by
  have hrounds := single.roundsTo_round hq
  rw [round_of_overflow_le hq hlarge, nearest]
  rcases le_or_gt single.overflow |q| with hover | hunder
  · rw [hrounds.infinite hover]
    rfl
  · obtain ⟨r, hr, hnear⟩ := hrounds.nearest hunder
    rw [overflow_half] at hlarge
    have hexact : single.Exact (.finite (decide (q < 0)) 65520 0) :=
      exact_of_le_two_pow _ (by decide)
    -- The single is no farther from the number than the limit of the halves, which is a single too.
    have hlimit : |q - r| ≤ |q - if q < 0 then -65520 else 65520| := by
      refine (hnear _ _ (hexact.rational?_eq.trans ?_)).1
      rw [FloatValue.rational?_finite, zpow_zero, mul_one, FloatValue.withSign]
      simp only [decide_eq_true_eq, Nat.cast_ofNat]
    have hbeyond : 65520 ≤ |r| ∧ (r < 0 ↔ q < 0) := by
      rcases lt_or_ge q 0 with hneg | hnonneg
      · rw [if_pos hneg] at hlimit
        rw [abs_of_neg hneg] at hlarge
        rw [abs_of_nonpos (by linarith : q - -65520 ≤ 0)] at hlimit
        have hr : r ≤ -65520 := by linarith [neg_abs_le (q - r)]
        rw [abs_of_neg (by linarith)]
        exact ⟨by linarith, iff_of_true (by linarith) hneg⟩
      · rw [if_neg (not_lt.mpr hnonneg)] at hlimit
        rw [abs_of_nonneg hnonneg] at hlarge
        rw [abs_of_nonneg (by linarith : 0 ≤ q - 65520)] at hlimit
        have hr : 65520 ≤ r := by linarith [le_abs_self (q - r)]
        rw [abs_of_nonneg (by linarith)]
        exact ⟨hr, iff_of_false (by linarith) (by linarith)⟩
    rw [round_of_overflow_le hr (overflow_half ▸ hbeyond.1), decide_eq_decide.mpr hbeyond.2]

theorem half_round_of_tiny (negative : Bool) {m : Nat} {e : Int} (h : (m : ℚ) * 2 ^ e ≤ 2 ^ (-25 : Int)) :
    half.round (.finite negative m e) = half.signed negative 0 :=
  congrArg (half.signed negative) (magnitude_eq_zero h)

theorem half_round_single_nearest_of_tiny (negative : Bool) {m : Nat} {e : Int}
    (h : (m : ℚ) * 2 ^ e ≤ 2 ^ (-26 : Int)) :
    half.round (single.nearest (.finite negative m e)) = half.round (.finite negative m e) := by
  have hq := FloatValue.rational?_finite negative m e
  have habs := FloatValue.abs_of_rational? hq
  generalize FloatValue.withSign negative (m * 2 ^ e) = q at hq habs
  rw [← habs] at h
  have hunder : |q| < single.overflow :=
    h.trans_lt (by norm_num [overflow, fractionBits, minExponent, exponentBits])
  obtain ⟨r, hr, hnear⟩ := (single.roundsTo_round hq).nearest hunder
  -- Zero is a single.
  have hzero : |q - r| ≤ |q| := by
    simpa [FloatValue.signedSignificand] using
      (hnear _ _ (single.exact_zero false 0).rational?_eq).1
  have hdouble : |r| ≤ 2 ^ (-25 : Int) := by
    calc
      |r| ≤ |q - r| + |q| := by linarith [abs_sub_abs_le_abs_sub r q, abs_sub_comm r q]
      _ ≤ 2 ^ (-26 : Int) + 2 ^ (-26 : Int) := by linarith
      _ = 2 ^ (-25 : Int) := by norm_num
  rw [half_round_of_tiny negative (habs ▸ h.trans (by norm_num))]
  rcases single.nearest_finite negative m e with hinfinite | ⟨m', k, -, hfinite⟩
  · rw [nearest] at hinfinite
    rw [hinfinite] at hr
    cases hr
  · rw [← nearest, hfinite] at hr
    rw [hfinite]
    exact half_round_of_tiny negative (FloatValue.abs_of_rational? hr ▸ hdouble)

theorem half_round_single_nearest_of_short (negative : Bool) {m : Nat} {e : Int} (hm : m < 2 ^ 21) :
    half.round (single.nearest (.finite negative m e)) = half.round (.finite negative m e) := by
  rcases Nat.eq_zero_or_pos m with rfl | hpos
  · exact (single.exact_zero negative e).round_eq half
  have hsize : (m : ℚ) ≤ 2 ^ 21 := by exact_mod_cast hm.le
  have hone : (1 : ℚ) ≤ m := by exact_mod_cast hpos
  rcases Int.lt_or_le 104 e with hhigh | hhigh
  · have hq := FloatValue.rational?_finite negative m e
    refine half_round_single_nearest_of_overflow_le hq ?_
    rw [FloatValue.abs_of_rational? hq, overflow_half]
    calc
      (65520 : ℚ) ≤ 2 ^ (104 : Int) := by norm_num
      _ ≤ 2 ^ e := zpow_le_zpow_right₀ one_le_two hhigh.le
      _ ≤ m * 2 ^ e := le_mul_of_one_le_left (zpow_pos two_pos e).le hone
  rcases Int.lt_or_le e (-149) with hlow | hlow
  · refine half_round_single_nearest_of_tiny negative ?_
    calc
      (m : ℚ) * 2 ^ e ≤ 2 ^ 21 * 2 ^ (-149 : Int) :=
        mul_le_mul hsize (zpow_le_zpow_right₀ one_le_two hlow.le) (zpow_pos two_pos e).le
          (by norm_num)
      _ ≤ 2 ^ (-26 : Int) := by norm_num
  · have hfits : single.Fits m e :=
      ⟨hm.trans (by decide), hlow, by simp only [minExponent, exponentBits]; omega⟩
    exact (exact_of_fits negative hfits).round_eq half

theorem half_msb_round_single_nearest (negative : Bool) (m : Nat) (e : Int) :
    (half.round (single.nearest (.finite negative m e))).msb = negative := by
  rcases single.nearest_finite negative m e with hinfinite | ⟨m', k, -, hfinite⟩
  · rw [hinfinite]
    exact msb_signed negative half.infinityCode_lt
  · rw [hfinite]
    exact half.msb_round negative m' _

theorem half_around_round_single_nearest {v : FloatValue} {q : ℚ} (hq : v.rational? = some q) :
    half.Around q (half.round (single.nearest v)) := by
  rcases le_or_gt half.overflow |q| with hlarge | hsmall
  · rw [half_round_single_nearest_of_overflow_le hq hlarge]
    exact (half.roundsTo_round hq).around
  · have hrounds := single.roundsTo_round hq
    have hunder : |q| < single.overflow := by
      refine hsmall.trans ?_
      norm_num [overflow, fractionBits, minExponent, exponentBits]
    obtain ⟨r, hr, -⟩ := hrounds.nearest hunder
    exact hrounds.around.trans (by decide) hr (half.roundsTo_round hr).around

end FloatFormat

/-- A half that is made from a single is as good as known. -/
instance (overflowChecks : Bool) : @LawfulPlatform (Platform.throughSingle overflowChecks) := by
  have hnan : FloatFormat.half.round (FloatFormat.single.nearest .nan) =
      FloatFormat.half.round .nan := by decide
  refine @LawfulPlatform.mk (Platform.throughSingle overflowChecks) hnan
    FloatFormat.half_msb_round_single_nearest FloatFormat.half_around_round_single_nearest ?_ ?_
  · intro v negative hinfinite
    cases v with
    | nan =>
        rw [show FloatFormat.half.nearest .nan = .nan by decide] at hinfinite
        cases hinfinite
    | infinite negative =>
        exact (FloatFormat.single.exact_infinite negative).round_eq .half
    | finite negative m e =>
        have hq := FloatValue.rational?_finite negative m e
        exact FloatFormat.half_round_single_nearest_of_overflow_le hq
          (FloatFormat.overflow_le_of_infinite hq hinfinite)
  · intro v negative m e hsame hm
    change FloatFormat.half.round (FloatFormat.single.value (FloatFormat.single.round v)) = _
    rw [hsame.round_eq, hsame.round_eq]
    exact FloatFormat.half_round_single_nearest_of_short negative hm

namespace FloatFormat

variable [Platform] [LawfulPlatform] {format : FloatFormat} {v : FloatValue}

theorem msb_ofDouble (format : FloatFormat) (negative : Bool) (m : Nat) (e : Int) :
    (format.ofDouble (.finite negative m e)).msb = negative := by
  cases format with
  | half => exact LawfulPlatform.half_msb negative m e
  | single => exact single.msb_round negative m e
  | double => exact double.msb_round negative m e

theorem around_ofDouble (format : FloatFormat) {q : ℚ} (hq : v.rational? = some q) :
    format.Around q (format.ofDouble v) := by
  cases format with
  | half => exact LawfulPlatform.half_around hq
  | single => exact (single.roundsTo_round hq).around
  | double => exact (double.roundsTo_round hq).around

theorem ofDouble_nan (format : FloatFormat) : format.ofDouble .nan = format.round .nan := by
  cases format with
  | half => exact LawfulPlatform.half_nan
  | single => rfl
  | double => rfl

theorem ofDouble_of_infinite {negative : Bool} (hv : format.nearest v = .infinite negative) :
    format.ofDouble v = format.round v := by
  cases format with
  | half => exact LawfulPlatform.half_of_infinite hv
  | single => rfl
  | double => rfl

theorem ofDouble_of_short {negative : Bool} {m : Nat} {e : Int} (hv : v.Same (.finite negative m e))
    (hm : m < 2 ^ 21) : format.ofDouble v = format.round v := by
  cases format with
  | half => exact LawfulPlatform.half_of_short hv hm
  | single => rfl
  | double => rfl

theorem ofDouble_of_rational? {n k : Int} (hv : v.rational? = some ((n : ℚ) * 2 ^ k))
    (hn : n.natAbs < 2 ^ 21) : format.ofDouble v = format.round v := by
  rcases eq_or_ne n 0 with rfl | hne
  · obtain ⟨negative, m, e, rfl⟩ := FloatValue.finite_of_rational? hv
    have habs := FloatValue.abs_of_rational? hv
    rw [Int.cast_zero, zero_mul, abs_zero, zero_eq_mul, or_iff_left (zpow_ne_zero e two_ne_zero),
      Nat.cast_eq_zero] at habs
    exact ofDouble_of_short (.refl _) (habs ▸ Nat.two_pow_pos 21)
  · have hscaled : ((FloatValue.ofInt n).scale k).rational? = some ((n : ℚ) * 2 ^ k) := by
      rw [FloatValue.rational?_scale, FloatValue.rational?_ofInt]
      rfl
    rw [FloatValue.scale_ofInt] at hscaled
    have hzero : (n * 2 ^ k : ℚ) ≠ 0 :=
      mul_ne_zero (Int.cast_ne_zero.mpr hne) (zpow_ne_zero k two_ne_zero)
    exact ofDouble_of_short (FloatValue.same_of_rational? hv hscaled hzero) hn

theorem ofDouble_of_half_exact (hv : half.Exact v) : format.ofDouble v = format.round v := by
  rcases value_forms (half.round v) with hform | ⟨negative, -, hform⟩ |
    ⟨negative, m, k, hcanonical, -, hform⟩
  · rw [Exact, nearest, hform] at hv
    cases hv
    exact ofDouble_nan format
  · rw [Exact, nearest, hform] at hv
    cases hv
    exact ofDouble_of_infinite (format.value_infinityCode negative)
  · rw [Exact, nearest, hform] at hv
    exact ofDouble_of_short hv.symm (hcanonical.lt.trans (by decide))

theorem ofDouble_of_exact (hv : format.Exact v) : format.ofDouble v = format.round v := by
  cases format with
  | half => exact ofDouble_of_half_exact hv
  | single => rfl
  | double => rfl

theorem ofDouble_of_whole {negative : Bool} {u : Nat} (hv : v.Same (.finite negative u 0)) :
    format.ofDouble v = format.round v := by
  rcases half.nearest_whole negative u with ⟨hinfinite, -⟩ | hwhole
  · cases format with
    | half =>
        rw [nearest, ← hv.round_eq] at hinfinite
        exact ofDouble_of_infinite hinfinite
    | single => rfl
    | double => rfl
  · rcases Nat.eq_zero_or_pos u with rfl | hpos
    · exact ofDouble_of_short hv (by decide)
    · have hlog : 2 ^ u.log2 < 2 ^ 16 :=
        Nat.lt_of_le_of_lt (two_pow_log2_le_wholeNearest hpos.ne') (lt_of_value_same hwhole)
      have hbits := (Nat.pow_lt_pow_iff_right (by decide)).mp hlog
      exact ofDouble_of_short hv ((Nat.log2_lt hpos.ne').mp (hbits.trans (by decide)))

theorem ofDouble_ne_nan (hv : v ≠ .nan) : format.value (format.ofDouble v) ≠ .nan := by
  cases v with
  | nan => exact absurd rfl hv
  | infinite negative =>
      have hinfinite : format.nearest (.infinite negative) = .infinite negative :=
        format.value_infinityCode negative
      rw [ofDouble_of_infinite hinfinite]
      exact nearest_ne_nan hv
  | finite negative m e =>
      exact (around_ofDouble format (FloatValue.rational?_finite negative m e)).ne_nan

end FloatFormat

end Bitpack
