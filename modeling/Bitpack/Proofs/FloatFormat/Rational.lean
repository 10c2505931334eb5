import Bitpack.Proofs.FloatFormat.Exact
import Mathlib.Algebra.Order.Field.Power
import Mathlib.Data.Rat.Floor
import Mathlib.Tactic.Linarith

/-!
Values as rational numbers. The forms of one number are equal, a scaled value is the multiple by a power
of two, and the integer that a value is cut to is its number rounded down or rounded toward zero.
-/
namespace Bitpack.FloatValue

/-- The number `±m · 2^e`. Infinities are no numbers. -/
def rational? : FloatValue → Option ℚ
  | finite negative m e => some (signedSignificand negative m * 2 ^ e)
  | _ => none

theorem finite_of_rational? {v : FloatValue} {q : ℚ} (hq : v.rational? = some q) :
    ∃ negative m e, v = finite negative m e := by
  cases v with
  | nan => cases hq
  | infinite negative => cases hq
  | finite negative m e => exact ⟨negative, m, e, rfl⟩

theorem rational?_ofInt (n : Int) : (ofInt n).rational? = some (n : ℚ) := by
  have hpart := integerPart_ofInt Int.fdiv n 0
  simp only [integerPart, Nat.cast_zero, le_refl, ↓reduceIte, Int.toNat_zero, pow_zero, mul_one] at hpart
  rw [ofInt, rational?, hpart, zpow_zero, mul_one]

theorem rational?_scale (v : FloatValue) (k : Int) :
    (v.scale k).rational? = v.rational?.map (· * 2 ^ k) := by
  cases v with
  | nan => rfl
  | infinite negative => rfl
  | finite negative m e =>
      simp only [scale, rational?, Option.map_some, Option.some.injEq]
      rw [zpow_add₀ two_ne_zero, mul_assoc]

theorem Same.rational?_eq {v v' : FloatValue} (hv : v.Same v') : v.rational? = v'.rational? := by
  cases hv with
  | nan => rfl
  | infinite negative => rfl
  | finite negative j k hm he =>
      refine congrArg some (eq_of_shift
        (fun m e => (signedSignificand negative m : ℚ) * 2 ^ e) ?_ hm he)
      intro m k e
      rw [signedSignificand_mul, zpow_add₀ two_ne_zero, zpow_natCast]
      push_cast
      ring

theorem integerPart_fdiv (n e : Int) : integerPart Int.fdiv n e = ⌊(n : ℚ) * 2 ^ e⌋ := by
  unfold integerPart
  split
  · rename_i he
    obtain ⟨k, rfl⟩ := Int.eq_ofNat_of_zero_le he
    have hwhole : (n : ℚ) * 2 ^ (k : Int) = ((n * 2 ^ k : Int) : ℚ) := by
      rw [zpow_natCast]
      push_cast
      rfl
    rw [hwhole, Int.floor_intCast, Int.toNat_natCast]
  · rename_i he
    obtain ⟨k, hk⟩ := Int.eq_ofNat_of_zero_le (show 0 ≤ -e by omega)
    have hquotient : (n : ℚ) * 2 ^ e = n / (2 ^ k : Nat) := by
      rw [show e = -(k : Int) by omega, zpow_neg, zpow_natCast, ← div_eq_mul_inv]
      push_cast
      rfl
    rw [hquotient, Rat.floor_intCast_div_natCast, hk, Int.toNat_natCast,
      Int.fdiv_eq_ediv_of_nonneg _ (Int.pow_nonneg (by decide))]
    push_cast
    rfl

theorem floor_of_rational? {v : FloatValue} {q : ℚ} (hq : v.rational? = some q) (lo hi : Int) :
    v.floor lo hi = max lo (min hi ⌊q⌋) := by
  obtain ⟨negative, m, e, rfl⟩ := finite_of_rational? hq
  cases hq
  rw [← integerPart_fdiv]
  rfl

theorem integerPart_fdiv_of_rational? {negative : Bool} {m : Nat} {e : Int} {q : ℚ}
    (hq : (finite negative m e).rational? = some q) (k : Nat) :
    integerPart Int.fdiv (signedSignificand negative m) (e + k) = ⌊q * 2 ^ k⌋ := by
  cases hq
  rw [integerPart_fdiv, zpow_add₀ two_ne_zero, zpow_natCast, ← mul_assoc]

theorem floor_scale_of_rational? {v : FloatValue} {q : ℚ} (hq : v.rational? = some q) (k : Nat)
    (lo hi : Int) : (v.scale k).floor lo hi = max lo (min hi ⌊q * 2 ^ k⌋) := by
  refine floor_of_rational? ?_ lo hi
  rw [rational?_scale, hq, Option.map_some, zpow_natCast]

def towardZero (q : ℚ) : Int :=
  if 0 ≤ q then ⌊q⌋ else ⌈q⌉

theorem towardZero_intCast (n : Int) : towardZero n = n := by
  rw [towardZero, Int.floor_intCast, Int.ceil_intCast, ite_self]

theorem towardZero_neg (q : ℚ) : towardZero (-q) = -towardZero q := by
  unfold towardZero
  rcases lt_trichotomy q 0 with hneg | rfl | hpos
  · rw [if_pos (by linarith), if_neg (by linarith), Int.floor_neg]
  · simp
  · rw [if_neg (by linarith), if_pos (by linarith), Int.ceil_neg]

theorem towardZero_nonpos {q : ℚ} (hq : q < 0) : towardZero q ≤ 0 := by
  rw [towardZero, if_neg (not_le.mpr hq)]
  exact Int.ceil_nonpos.mpr hq.le

theorem integerPart_tdiv_of_nonneg {n : Int} (hn : 0 ≤ n) (e : Int) :
    integerPart Int.tdiv n e = integerPart Int.fdiv n e := by
  unfold integerPart
  rw [Int.fdiv_eq_tdiv_of_nonneg hn (Int.pow_nonneg (by decide))]

theorem integerPart_tdiv_neg (n e : Int) : integerPart Int.tdiv (-n) e = -integerPart Int.tdiv n e := by
  unfold integerPart
  rw [Int.neg_mul, Int.neg_tdiv]
  split <;> rfl

theorem integerPart_tdiv (n e : Int) : integerPart Int.tdiv n e = towardZero (n * 2 ^ e) := by
  have hpos : (0 : ℚ) < 2 ^ e := zpow_pos two_pos e
  have hnonneg : ∀ {n : Int}, 0 ≤ n → integerPart Int.tdiv n e = towardZero (n * 2 ^ e) := by
    intro n hn
    have hvalue : (0 : ℚ) ≤ n * 2 ^ e := mul_nonneg (by exact_mod_cast hn) hpos.le
    rw [integerPart_tdiv_of_nonneg hn, integerPart_fdiv, towardZero, if_pos hvalue]
  rcases Int.le_total 0 n with hn | hn
  · exact hnonneg hn
  · have hneg := hnonneg (Int.neg_nonneg.mpr hn)
    rw [integerPart_tdiv_neg] at hneg
    push_cast at hneg
    rw [neg_mul, towardZero_neg] at hneg
    exact neg_injective hneg

theorem truncate_of_rational? {v : FloatValue} {q : ℚ} (hq : v.rational? = some q) (lo hi : Int) :
    v.truncate lo hi = max lo (min hi (towardZero q)) := by
  obtain ⟨negative, m, e, rfl⟩ := finite_of_rational? hq
  cases hq
  rw [← integerPart_tdiv]
  rfl

theorem abs_of_rational? {negative : Bool} {m : Nat} {e : Int} {q : ℚ}
    (hq : (finite negative m e).rational? = some q) : |q| = m * 2 ^ e := by
  have hpos : (0 : ℚ) < 2 ^ e := zpow_pos two_pos e
  cases hq
  rw [abs_mul, abs_of_pos hpos]
  cases negative <;> simp [signedSignificand]

theorem neg_iff_of_rational? {negative : Bool} {m : Nat} {e : Int} {q : ℚ}
    (hq : (finite negative m e).rational? = some q) (hzero : q ≠ 0) : q < 0 ↔ negative = true := by
  have habs := abs_of_rational? hq
  cases hq
  cases negative with
  | false =>
      have hself : (signedSignificand false m : ℚ) * 2 ^ e = m * 2 ^ e := by simp [signedSignificand]
      rw [hself, abs_eq_self] at habs
      simp [hself, not_lt.mpr habs]
  | true =>
      have hself : (signedSignificand true m : ℚ) * 2 ^ e = -(m * 2 ^ e) := by
        simp [signedSignificand]
      rw [hself, abs_neg, abs_eq_self] at habs
      rw [hself, neg_ne_zero] at hzero
      simp [hself, lt_of_le_of_ne habs hzero.symm]

theorem isNonneg_iff_of_rational? {v : FloatValue} {q : ℚ} (hq : v.rational? = some q) :
    v.isNonneg = true ↔ 0 ≤ q := by
  obtain ⟨negative, m, e, rfl⟩ := finite_of_rational? hq
  have habs := abs_of_rational? hq
  rcases eq_or_ne q 0 with rfl | hzero
  · rw [abs_zero, zero_eq_mul, or_iff_left (zpow_ne_zero e two_ne_zero)] at habs
    simp [isNonneg, Nat.cast_eq_zero.mp habs]
  · have hm : m ≠ 0 := by
      rintro rfl
      simp [hzero] at habs
    rw [← not_lt, neg_iff_of_rational? hq hzero]
    simp [isNonneg, hm]

/-- A number other than zero is one value in whatever form it is written. -/
theorem same_of_rational? {v v' : FloatValue} {q : ℚ} (hv : v.rational? = some q)
    (hv' : v'.rational? = some q) (hzero : q ≠ 0) : v.Same v' := by
  obtain ⟨negative, m, e, rfl⟩ := finite_of_rational? hv
  obtain ⟨negative', m', e', rfl⟩ := finite_of_rational? hv'
  have hsign := (neg_iff_of_rational? hv hzero).symm.trans (neg_iff_of_rational? hv' hzero)
  obtain rfl : negative = negative' := Bool.eq_iff_iff.mpr hsign
  have hvalue := (abs_of_rational? hv).symm.trans (abs_of_rational? hv')
  -- Both significands are written with the lesser exponent.
  refine .finite negative (e - e').toNat (e' - e).toNat ?_ (by omega)
  have hsplit : ∀ (n : Nat) (i j : Int), (n : ℚ) * 2 ^ i =
      n * 2 ^ (i - j).toNat * 2 ^ (i - (i - j).toNat) := by
    intro n i j
    rw [mul_assoc, ← zpow_natCast, ← zpow_add₀ two_ne_zero]
    congr 2
    omega
  rw [hsplit m e e', hsplit m' e' e,
    show e - (e - e').toNat = e' - (e' - e).toNat by omega] at hvalue
  exact_mod_cast mul_right_cancel₀ (zpow_ne_zero _ two_ne_zero) hvalue

theorem ne_nan_of_rational? {v : FloatValue} {q : ℚ} (hq : v.rational? = some q) : v ≠ .nan := by
  obtain ⟨negative, m, e, rfl⟩ := finite_of_rational? hq
  exact FloatValue.noConfusion

theorem round_eq_of_rational? {format : FloatFormat} {v : FloatValue} {pattern : BitVec format.width}
    {q : ℚ} (hv : v.rational? = some q) (hpattern : (format.value pattern).rational? = some q)
    (hzero : q ≠ 0) : format.round v = pattern :=
  FloatFormat.round_eq_of_same (same_of_rational? hpattern hv hzero) (ne_nan_of_rational? hv)

def withSign (negative : Bool) (t : ℚ) : ℚ :=
  if negative then -t else t

theorem rational?_finite (negative : Bool) (m : Nat) (e : Int) :
    (finite negative m e).rational? = some (withSign negative (m * 2 ^ e)) := by
  cases negative <;> simp [rational?, withSign, signedSignificand]

theorem abs_withSign_sub (negative : Bool) (t t' : ℚ) :
    |withSign negative t - withSign negative t'| = |t - t'| := by
  cases negative
  · rfl
  · rw [withSign, withSign, if_pos rfl, if_pos rfl, neg_sub_neg, abs_sub_comm]

theorem abs_withSign_sub_not (negative : Bool) {t t' : ℚ} (ht : 0 ≤ t) (ht' : 0 ≤ t') :
    |withSign negative t - withSign (!negative) t'| = t + t' := by
  cases negative
  · simp [withSign, abs_of_nonneg (add_nonneg ht ht')]
  · simp only [withSign, if_pos, Bool.not_true, Bool.false_eq_true, if_false]
    rw [← neg_add', abs_neg, abs_of_nonneg (add_nonneg ht ht')]

end Bitpack.FloatValue
