import Bitpack.Proofs.FloatFormat.Places

/-!
The nearest number of a format. Rounding finds it for every number, takes an even pattern in the middle
between two, and gives an infinity beyond the greatest one.
-/
namespace Bitpack.FloatFormat

variable {format : FloatFormat}

namespace Placed

variable {n t : ℚ} {k u : Nat} (h : format.Placed n t k u)

include h

theorem nearest_value (hn : 0 ≤ n) (negative : Bool) {other : BitVec format.width} {s : ℚ}
    (hs : (format.value other).rational? = some s) :
    |FloatValue.withSign negative n -
          FloatValue.withSign negative (u * 2 ^ (format.minExponent + k))| ≤
        |FloatValue.withSign negative n - s| ∧
      (|FloatValue.withSign negative n -
            FloatValue.withSign negative (u * 2 ^ (format.minExponent + k))| =
          |FloatValue.withSign negative n - s| →
        FloatValue.withSign negative (u * 2 ^ (format.minExponent + k)) = s ∨ u % 2 = 0) := by
  rw [FloatValue.abs_withSign_sub]
  rcases value_forms other with hvalue | ⟨_, -, hvalue⟩ | ⟨negative', m', k', hm', -, hvalue⟩
  · rw [hvalue] at hs
    cases hs
  · rw [hvalue] at hs
    cases hs
  · rw [hvalue, FloatValue.rational?_finite, Option.some.injEq] at hs
    subst hs
    by_cases hsame : negative' = negative ∨ m' = 0
    · have hsign : FloatValue.withSign negative' (m' * 2 ^ (format.minExponent + k')) =
          FloatValue.withSign negative (m' * 2 ^ (format.minExponent + k')) := by
        rcases hsame with rfl | rfl
        · rfl
        · cases negative <;> cases negative' <;> simp [FloatValue.withSign]
      obtain ⟨hle, heq⟩ := h.nearest_canonical hm'
      rw [hsign, FloatValue.abs_withSign_sub]
      exact ⟨hle, fun hequal => (heq hequal).imp_left (congrArg (FloatValue.withSign negative))⟩
    · -- A number of the other sign is farther away than zero, and zero is no nearer.
      obtain ⟨hother, hpositive⟩ := not_or.mp hsame
      have hmore : (0 : ℚ) < m' * 2 ^ (format.minExponent + k') :=
        mul_pos (Nat.cast_pos.mpr (Nat.pos_of_ne_zero hpositive)) (zpow_pos two_pos _)
      have hself := h.abs_sub_le hn
      rw [Bool.eq_not_of_ne hother, FloatValue.abs_withSign_sub_not negative hn hmore.le]
      exact ⟨by linarith, fun hequal => absurd hequal (by linarith)⟩

end Placed

/-- The pattern that a number is rounded to: the nearest number of the format, an even pattern if there
are two, and an infinity from half a last place above the greatest number. -/
structure RoundsTo (format : FloatFormat) (q : ℚ) (pattern : BitVec format.width) : Prop where
  infinite : format.overflow ≤ |q| → format.value pattern = .infinite (decide (q < 0))
  nearest : |q| < format.overflow → ∃ r, (format.value pattern).rational? = some r ∧
    ∀ (other : BitVec format.width) (s : ℚ), (format.value other).rational? = some s →
      |q - r| ≤ |q - s| ∧ (|q - r| = |q - s| → r = s ∨ pattern.toNat % 2 = 0)

theorem infinityCode_lt (format : FloatFormat) :
    format.infinityCode < 2 ^ (format.fractionBits + format.exponentBits) := by
  cases format <;> decide

theorem toNat_signed_mod_two (negative : Bool) {k u : Nat}
    (hcode : k * 2 ^ format.fractionBits + u < 2 ^ (format.fractionBits + format.exponentBits)) :
    (format.signed negative (k * 2 ^ format.fractionBits + u)).toNat % 2 = u % 2 := by
  have hbits : ∃ b, format.fractionBits = b + 1 := by cases format <;> exact ⟨_, rfl⟩
  obtain ⟨b, hb⟩ := hbits
  rw [toNat_signed negative hcode, hb, Nat.add_right_comm, Nat.pow_succ, Nat.pow_succ, ← Nat.mul_assoc]
  split <;> omega

theorem msb_round (format : FloatFormat) (negative : Bool) (m : Nat) (e : Int) :
    (format.round (.finite negative m e)).msb = negative :=
  msb_signed negative (Nat.lt_of_le_of_lt (format.magnitude_le m e) format.infinityCode_lt)

theorem magnitude_of_overflow_le {m : Nat} {e : Int} (hlarge : format.overflow ≤ (m : ℚ) * 2 ^ e) :
    format.magnitude m e = format.infinityCode := by
  obtain ⟨t, k, u, hplaced, hmagnitude⟩ := format.exists_placed m e
  have hcode := mt hplaced.code_lt_iff.mp (not_lt.mpr hlarge)
  rw [hmagnitude, Nat.min_eq_right (Nat.le_of_not_lt hcode)]

theorem round_of_overflow_le {v : FloatValue} {q : ℚ} (hq : v.rational? = some q)
    (hlarge : format.overflow ≤ |q|) :
    format.round v = format.signed (decide (q < 0)) format.infinityCode := by
  obtain ⟨negative, m, e, rfl⟩ := FloatValue.finite_of_rational? hq
  have hzero : q ≠ 0 := abs_pos.mp (format.overflow_pos.trans_le hlarge)
  have hsign : decide (q < 0) = negative :=
    (Bool.decide_congr (FloatValue.neg_iff_of_rational? hq hzero)).trans (Bool.decide_coe negative)
  rw [round, magnitude_of_overflow_le (FloatValue.abs_of_rational? hq ▸ hlarge), hsign]

theorem roundsTo_round (format : FloatFormat) {v : FloatValue} {q : ℚ} (hq : v.rational? = some q) :
    format.RoundsTo q (format.round v) := by
  constructor
  · intro hlarge
    rw [round_of_overflow_le hq hlarge, value_infinityCode]
  · intro hsmall
    obtain ⟨negative, m, e, rfl⟩ := FloatValue.finite_of_rational? hq
    have habs := FloatValue.abs_of_rational? hq
    obtain ⟨t, k, u, hplaced, hmagnitude⟩ := format.exists_placed m e
    rw [← habs] at hplaced
    have hcode := hplaced.code_lt_iff.mpr hsmall
    have hself : q = FloatValue.withSign negative |q| := by
      rw [habs]
      rw [FloatValue.rational?_finite] at hq
      exact (Option.some.inj hq).symm
    rw [round, hmagnitude, Nat.min_eq_left (Nat.le_of_lt hcode)]
    refine ⟨_, hplaced.rational?_value_signed negative hcode, fun other s hs => ?_⟩
    have hnear := hplaced.nearest_value (abs_nonneg q) negative hs
    rwa [← hself, ← toNat_signed_mod_two negative (hcode.trans format.infinityCode_lt)] at hnear

theorem overflow_le_of_infinite {v : FloatValue} {q : ℚ} {negative : Bool}
    (hq : v.rational? = some q) (hinfinite : format.nearest v = .infinite negative) :
    format.overflow ≤ |q| := by
  by_contra hsmall
  obtain ⟨r, hr, -⟩ := (format.roundsTo_round hq).nearest (not_le.mp hsmall)
  rw [nearest] at hinfinite
  rw [hinfinite] at hr
  cases hr

/-- The pattern of a number around `q`: no number of the format lies between, and an infinity stands
only for what lies beyond all of them. -/
structure Around (format : FloatFormat) (q : ℚ) (pattern : BitVec format.width) : Prop where
  ne_nan : format.value pattern ≠ .nan
  infinite : ∀ negative, format.value pattern = .infinite negative → negative = decide (q < 0) ∧
    ∀ (other : BitVec format.width) (s : ℚ), (format.value other).rational? = some s → |s| < |q|
  number : ∀ r, (format.value pattern).rational? = some r →
    ∀ (other : BitVec format.width) (s : ℚ), (format.value other).rational? = some s →
      (q ≤ s → r ≤ s) ∧ (s ≤ q → s ≤ r)

theorem lt_overflow {pattern : BitVec format.width} {s : ℚ}
    (hs : (format.value pattern).rational? = some s) : |s| < format.overflow := by
  by_contra hlarge
  have hinfinite := (format.roundsTo_round hs).infinite (not_lt.mp hlarge)
  rw [round_value (FloatValue.ne_nan_of_rational? hs)] at hinfinite
  rw [hinfinite] at hs
  cases hs

theorem RoundsTo.around {q : ℚ} {pattern : BitVec format.width} (h : format.RoundsTo q pattern) :
    format.Around q pattern := by
  rcases le_or_gt format.overflow |q| with hlarge | hsmall
  · have hvalue := h.infinite hlarge
    refine ⟨?_, fun negative hinfinite => ?_, fun r hr => ?_⟩
    · rw [hvalue]
      exact FloatValue.noConfusion
    · rw [hvalue] at hinfinite
      cases hinfinite
      exact ⟨rfl, fun _ _ hs => (lt_overflow hs).trans_le hlarge⟩
    · rw [hvalue] at hr
      cases hr
  · obtain ⟨r, hr, hnear⟩ := h.nearest hsmall
    refine ⟨FloatValue.ne_nan_of_rational? hr, fun negative hinfinite => ?_, fun r' hr' => ?_⟩
    · rw [hinfinite] at hr
      cases hr
    · obtain rfl : r = r' := Option.some.inj (hr.symm.trans hr')
      intro other s hs
      have hle := (hnear other s hs).1
      constructor
      · intro hqs
        rw [abs_sub_comm q s, abs_of_nonneg (sub_nonneg.mpr hqs)] at hle
        linarith [neg_abs_le (q - r)]
      · intro hsq
        rw [abs_of_nonneg (sub_nonneg.mpr hsq)] at hle
        linarith [le_abs_self (q - r)]

theorem exists_rational?_neg {pattern : BitVec format.width} {s : ℚ}
    (hs : (format.value pattern).rational? = some s) :
    ∃ other : BitVec format.width, (format.value other).rational? = some (-s) := by
  rcases value_forms pattern with hvalue | ⟨_, -, hvalue⟩ | ⟨negative, m, k, hcanonical, -, hvalue⟩
  · rw [hvalue] at hs
    cases hs
  · rw [hvalue] at hs
    cases hs
  · rw [hvalue, FloatValue.rational?_finite, Option.some.injEq] at hs
    refine ⟨_, (congrArg FloatValue.rational? (hcanonical.value_signed (!negative))).trans ?_⟩
    rw [FloatValue.rational?_finite, ← hs]
    cases negative <;> simp [FloatValue.withSign]

/-- A number around a number around `q` is around `q`, where the second format has all numbers of the
first one. -/
theorem Around.trans {wide : FloatFormat} (hwide : format.bytes ≤ wide.bytes) {q r : ℚ}
    {middle : BitVec wide.width} {pattern : BitVec format.width} (hq : wide.Around q middle)
    (hmiddle : (wide.value middle).rational? = some r) (hr : format.Around r pattern) :
    format.Around q pattern := by
  have hexists : ∀ {other : BitVec format.width} {s : ℚ}, (format.value other).rational? = some s →
      ∃ other' : BitVec wide.width, (wide.value other').rational? = some s := fun {other s} hs =>
    ⟨wide.round (format.value other), ((exact_value other).widen hwide).rational?_eq.trans hs⟩
  have hbetween := hq.number r hmiddle
  refine ⟨hr.ne_nan, fun negative hinfinite => ?_, fun t ht other s hs => ?_⟩
  · obtain ⟨hsign, hbeyond⟩ := hr.infinite negative hinfinite
    have hzero := (format.exact_zero false 0).rational?_eq
    have hrzero : r ≠ 0 := abs_pos.mp ((abs_nonneg _).trans_lt (hbeyond _ _ hzero))
    refine ⟨hsign.trans (decide_eq_decide.mpr ?_), fun other s hs => ?_⟩
    · obtain ⟨zero, hzero⟩ := hexists hzero
      obtain ⟨hnonpos, hnonneg⟩ := hbetween zero _ hzero
      simp only [FloatValue.signedSignificand, Nat.cast_zero, Int.cast_zero, zero_mul,
        Bool.false_eq_true, if_false] at hnonpos hnonneg
      constructor
      · intro hneg
        by_contra hq
        exact absurd hneg (not_lt.mpr (hnonneg (not_lt.mp hq)))
      · intro hneg
        exact lt_of_le_of_ne (hnonpos hneg.le) hrzero
    · by_contra hle
      have hbounds := abs_le.mp (not_lt.mp hle)
      obtain ⟨minus, hminus⟩ := exists_rational?_neg hs
      obtain ⟨plus, hplus⟩ := hexists hs
      obtain ⟨minus, hminus⟩ := hexists hminus
      obtain ⟨hplusle, hplusge⟩ := hbetween plus s hplus
      obtain ⟨hminusle, hminusge⟩ := hbetween minus (-s) hminus
      refine absurd (hbeyond other s hs) (not_lt.mpr (abs_le.mpr ?_))
      rcases le_total 0 s with hs | hs
      · rw [abs_of_nonneg hs] at hbounds ⊢
        exact ⟨hminusge hbounds.1, hplusle hbounds.2⟩
      · rw [abs_of_nonpos hs, neg_neg] at hbounds
        rw [abs_of_nonpos hs, neg_neg]
        exact ⟨hplusge hbounds.1, hminusle hbounds.2⟩
  · obtain ⟨other', hs'⟩ := hexists hs
    obtain ⟨hle, hge⟩ := hbetween other' s hs'
    obtain ⟨hle', hge'⟩ := hr.number t ht other s hs
    exact ⟨fun hqs => hle' (hle hqs), fun hsq => hge' (hge hsq)⟩

end Bitpack.FloatFormat
