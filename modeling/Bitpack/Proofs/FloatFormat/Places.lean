import Bitpack.Proofs.FloatFormat.Rational

/-!
Numbers counted in last places. The numbers of a format with as large an exponent are whole counts, and
all others lie below them, so that the nearest whole count is the nearest number. Half a last place
above the greatest number the infinities begin.
-/
namespace Bitpack.FloatFormat

variable {format : FloatFormat}

/-- A whole number nearest to `t`, and the even one if there are two. -/
structure NearestWhole (t : ℚ) (u : Nat) : Prop where
  close : |t - u| ≤ 1 / 2
  even : |t - u| = 1 / 2 → u % 2 = 0

theorem NearestWhole.self (u : Nat) : NearestWhole u u := by
  constructor <;> norm_num

theorem nearestWhole_halveEven (m k : Nat) : NearestWhole (m / 2 ^ k) (halveEven m k) := by
  obtain ⟨hle, hge, heven⟩ := nearest_halveEven m k
  have hpos : (0 : ℚ) < 2 ^ k := by positivity
  have hdist : |(m : ℚ) / 2 ^ k - halveEven m k| = |(m : ℚ) - halveEven m k * 2 ^ k| / 2 ^ k := by
    rw [div_sub' hpos.ne', abs_div, abs_of_pos hpos, mul_comm]
  have hle' : (2 * m : ℚ) ≤ 2 * (halveEven m k * 2 ^ k) + 2 ^ k := by exact_mod_cast hle
  have hge' : (2 * (halveEven m k * 2 ^ k) : ℚ) ≤ 2 * m + 2 ^ k := by exact_mod_cast hge
  constructor
  · rw [hdist, div_le_iff₀ hpos, abs_le]
    constructor <;> linarith
  · rw [hdist, div_eq_iff hpos.ne', abs_eq (by positivity)]
    intro hhalf
    apply heven
    rcases hhalf with hup | hdown
    · left
      have hup' : (2 * m : ℚ) = 2 * (halveEven m k * 2 ^ k) + 2 ^ k := by linarith
      exact_mod_cast hup'
    · right
      have hdown' : (2 * (halveEven m k * 2 ^ k) : ℚ) = 2 * m + 2 ^ k := by linarith
      exact_mod_cast hdown'

theorem half_le_abs_sub {t : ℚ} {u j : Nat} (hu : |t - u| ≤ 1 / 2) (hne : u ≠ j) :
    1 / 2 ≤ |t - j| := by
  have hone : (1 : ℚ) ≤ |(u : ℚ) - j| := by
    have hint : (1 : Int) ≤ |(u : Int) - j| :=
      Int.one_le_abs (sub_ne_zero.mpr (Nat.cast_injective.ne hne))
    exact_mod_cast hint
  have hsum := abs_sub_le (u : ℚ) t j
  rw [abs_sub_comm (u : ℚ) t] at hsum
  linarith

theorem NearestWhole.le {t : ℚ} {u : Nat} (h : NearestWhole t u) (j : Nat) : |t - u| ≤ |t - j| := by
  by_cases hne : u = j
  · rw [hne]
  · exact h.close.trans (half_le_abs_sub h.close hne)

theorem NearestWhole.eq_or_even {t : ℚ} {u j : Nat} (h : NearestWhole t u)
    (heq : |t - u| = |t - j|) : u = j ∨ u % 2 = 0 := by
  by_cases hne : u = j
  · exact .inl hne
  · exact .inr (h.even (le_antisymm h.close (heq ▸ half_le_abs_sub h.close hne)))

/-- The number `n` is `t` last places at an exponent, counted from the smallest one, that suits it, and
`u` is the nearest whole number of them. -/
structure Placed (format : FloatFormat) (n t : ℚ) (k u : Nat) : Prop where
  value_eq : n = t * 2 ^ (format.minExponent + k)
  lt : t < 2 ^ (format.fractionBits + 1)
  leading : k = 0 ∨ 2 ^ format.fractionBits ≤ t
  nearest : NearestWhole t u

theorem nearestWhole_units (m : Nat) (e q : Int) :
    NearestWhole (m * 2 ^ (e - q))
      (if q ≤ e then m * 2 ^ (e - q).toNat else halveEven m (q - e).toNat) := by
  split
  · rename_i hle
    obtain ⟨j, rfl⟩ := Int.le.dest hle
    have hself := NearestWhole.self (m * 2 ^ j)
    push_cast at hself
    rwa [add_sub_cancel_left, Int.toNat_natCast, zpow_natCast]
  · rename_i hgt
    obtain ⟨j, rfl⟩ := Int.le.dest (Int.le_of_lt (Int.not_le.mp hgt))
    rw [sub_add_cancel_left, add_sub_cancel_left, Int.toNat_natCast, zpow_neg, zpow_natCast,
      ← div_eq_mul_inv]
    exact nearestWhole_halveEven m j

theorem place_bounds {m k : Nat} {e : Int} (hm : m ≠ 0)
    (hplace : format.minExponent + k =
      max (e + m.log2 - format.fractionBits) format.minExponent) :
    (m : ℚ) * 2 ^ (e - (format.minExponent + k)) < 2 ^ (format.fractionBits + 1) ∧
      (k = 0 ∨ 2 ^ format.fractionBits ≤ (m : ℚ) * 2 ^ (e - (format.minExponent + k))) := by
  have hlow : (2 : ℚ) ^ m.log2 ≤ m := by exact_mod_cast Nat.log2_self_le hm
  have hhigh : (m : ℚ) < 2 ^ (m.log2 + 1) := by exact_mod_cast Nat.lt_log2_self
  have hpos : (0 : ℚ) < 2 ^ (e - (format.minExponent + k)) := zpow_pos two_pos _
  have hshift : ∀ i : Nat, (2 : ℚ) ^ i * 2 ^ (e - (format.minExponent + k)) =
      2 ^ (i + (e - (format.minExponent + k))) := by
    intro i
    rw [zpow_add₀ two_ne_zero, zpow_natCast]
  constructor
  · calc
      (m : ℚ) * 2 ^ (e - (format.minExponent + k)) <
          2 ^ (m.log2 + 1) * 2 ^ (e - (format.minExponent + k)) :=
        mul_lt_mul_of_pos_right hhigh hpos
      _ = 2 ^ ((m.log2 + 1 : Nat) + (e - (format.minExponent + k))) := hshift _
      _ ≤ 2 ^ ((format.fractionBits + 1 : Nat) : Int) := zpow_le_zpow_right₀ one_le_two (by omega)
      _ = 2 ^ (format.fractionBits + 1) := zpow_natCast _ _
  · rcases Nat.eq_zero_or_pos k with hzero | hnormal
    · exact .inl hzero
    · right
      calc
        (2 : ℚ) ^ format.fractionBits = 2 ^ (m.log2 + (e - (format.minExponent + k))) := by
          rw [← zpow_natCast]
          congr 1
          omega
        _ = 2 ^ m.log2 * 2 ^ (e - (format.minExponent + k)) := (hshift _).symm
        _ ≤ m * 2 ^ (e - (format.minExponent + k)) := mul_le_mul_of_nonneg_right hlow hpos.le

theorem exists_placed (format : FloatFormat) (m : Nat) (e : Int) :
    ∃ t k u, format.Placed (m * 2 ^ e) t k u ∧
      format.magnitude m e = min (k * 2 ^ format.fractionBits + u) format.infinityCode := by
  by_cases hm : m = 0
  · refine ⟨0, 0, 0, ⟨by simp [hm], by positivity, .inl rfl, by simpa using NearestWhole.self 0⟩, ?_⟩
    simp [magnitude, hm]
  · obtain ⟨k, hk⟩ := Int.le.dest
      (le_max_right (e + m.log2 - format.fractionBits) format.minExponent)
    obtain ⟨hlt, hleading⟩ := place_bounds hm hk
    refine ⟨_, k, _, ⟨?_, hlt, hleading, nearestWhole_units m e _⟩, ?_⟩
    · rw [mul_assoc, ← zpow_add₀ two_ne_zero, sub_add_cancel]
    · unfold magnitude
      dsimp only
      rw [if_neg hm, ← hk, add_sub_cancel_left, Int.toNat_natCast]

theorem Canonical.lt_of_lt {m' k' k : Nat} (hm' : format.Canonical m' k') (hk : k' < k) :
    m' * (2 : ℚ) ^ (format.minExponent + k') <
      2 ^ format.fractionBits * 2 ^ (format.minExponent + k) := by
  have hlt : (m' : ℚ) < 2 ^ (format.fractionBits + 1) := by exact_mod_cast hm'.lt
  calc
    m' * (2 : ℚ) ^ (format.minExponent + k') <
        2 ^ (format.fractionBits + 1) * 2 ^ (format.minExponent + k') :=
      mul_lt_mul_of_pos_right hlt (zpow_pos two_pos _)
    _ = 2 ^ format.fractionBits * 2 ^ (format.minExponent + k' + 1) := by
      rw [pow_succ, zpow_add_one₀ two_ne_zero, mul_assoc, mul_comm (2 : ℚ)]
    _ ≤ 2 ^ format.fractionBits * 2 ^ (format.minExponent + k) :=
      mul_le_mul_of_nonneg_left (zpow_le_zpow_right₀ one_le_two (by omega)) (by positivity)

namespace Placed

variable {n t : ℚ} {k u : Nat} (h : format.Placed n t k u)

include h

theorem le_carry : u ≤ 2 ^ (format.fractionBits + 1) := by
  by_contra hgt
  have hclose := abs_le.mp h.nearest.close
  have hlt := h.lt
  have hnext : (2 : ℚ) ^ (format.fractionBits + 1) + 1 ≤ u := by exact_mod_cast Nat.not_le.mp hgt
  linarith

theorem low : k = 0 ∨ 2 ^ format.fractionBits ≤ u := by
  refine h.leading.imp_right fun hlow => ?_
  by_contra hlt
  have hclose := abs_le.mp h.nearest.close
  have hless : (u : ℚ) + 1 ≤ 2 ^ format.fractionBits := by exact_mod_cast Nat.not_le.mp hlt
  linarith

theorem abs_sub_eq (j : ℚ) :
    |n - j * 2 ^ (format.minExponent + k)| = |t - j| * 2 ^ (format.minExponent + k) := by
  have hpos : (0 : ℚ) < 2 ^ (format.minExponent + k) := zpow_pos two_pos _
  rw [h.value_eq, ← sub_mul, abs_mul, abs_of_pos hpos]

theorem nearest_canonical {m' k' : Nat} (hm' : format.Canonical m' k') :
    |n - u * 2 ^ (format.minExponent + k)| ≤ |n - m' * 2 ^ (format.minExponent + k')| ∧
      (|n - u * 2 ^ (format.minExponent + k)| = |n - m' * 2 ^ (format.minExponent + k')| →
        (u : ℚ) * 2 ^ (format.minExponent + k) = m' * 2 ^ (format.minExponent + k') ∨ u % 2 = 0) := by
  have hpos : (0 : ℚ) < 2 ^ (format.minExponent + k) := zpow_pos two_pos _
  rcases Nat.lt_or_ge k' k with hless | hmore
  · -- The other number is farther away than the smallest count with this exponent.
    have hlow := h.leading.resolve_left (Nat.ne_zero_of_lt hless)
    have hbelow := hm'.lt_of_lt hless
    have hcount : (2 : ℚ) ^ format.fractionBits * 2 ^ (format.minExponent + k) ≤ n :=
      h.value_eq ▸ mul_le_mul_of_nonneg_right hlow hpos.le
    have hstrict : |n - u * 2 ^ (format.minExponent + k)| <
        |n - m' * 2 ^ (format.minExponent + k')| := by
      calc
        |n - u * 2 ^ (format.minExponent + k)| ≤
            |n - (2 ^ format.fractionBits : Nat) * 2 ^ (format.minExponent + k)| := by
          rw [h.abs_sub_eq, h.abs_sub_eq]
          exact mul_le_mul_of_nonneg_right (h.nearest.le _) hpos.le
        _ = n - 2 ^ format.fractionBits * 2 ^ (format.minExponent + k) := by
          push_cast
          exact abs_of_nonneg (sub_nonneg.mpr hcount)
        _ < n - m' * 2 ^ (format.minExponent + k') := sub_lt_sub_left hbelow n
        _ ≤ |n - m' * 2 ^ (format.minExponent + k')| := le_abs_self _
    exact ⟨hstrict.le, fun heq => absurd heq hstrict.ne⟩
  · obtain ⟨j, rfl⟩ := Nat.exists_eq_add_of_le hmore
    have hwhole : (m' : ℚ) * 2 ^ (format.minExponent + (k + j : Nat)) =
        (m' * 2 ^ j : Nat) * 2 ^ (format.minExponent + k) := by
      rw [Nat.cast_add, ← add_assoc, zpow_add₀ two_ne_zero, zpow_natCast]
      push_cast
      ring
    rw [hwhole, h.abs_sub_eq, h.abs_sub_eq]
    refine ⟨mul_le_mul_of_nonneg_right (h.nearest.le _) hpos.le, fun heq => ?_⟩
    refine (h.nearest.eq_or_even (mul_right_cancel₀ hpos.ne' heq)).imp_left fun hu => ?_
    rw [hu]

theorem abs_sub_le (hn : 0 ≤ n) : |n - u * 2 ^ (format.minExponent + k)| ≤ n := by
  have hzero : format.Canonical 0 0 :=
    ⟨Nat.two_pow_pos _, .inl rfl, by cases format <;> decide⟩
  have hnear := (h.nearest_canonical hzero).1
  rwa [Nat.cast_zero, zero_mul, sub_zero, abs_of_nonneg hn] at hnear

end Placed

/-- Half a last place above the greatest number of a format. -/
def overflow (format : FloatFormat) : ℚ :=
  (2 ^ (format.fractionBits + 1) - 1 / 2) *
    2 ^ (format.minExponent + (2 ^ format.exponentBits - 3 : Nat))

theorem overflow_pos (format : FloatFormat) : 0 < format.overflow := by
  have hone : (1 : ℚ) ≤ 2 ^ (format.fractionBits + 1) := one_le_pow₀ one_le_two
  exact mul_pos (by linarith) (zpow_pos two_pos _)

theorem overflow_half : overflow .half = 65520 := by
  norm_num [overflow, fractionBits, minExponent, exponentBits]

namespace Placed

variable {n t : ℚ} {k u : Nat} (h : format.Placed n t k u)

include h

theorem lt_overflow_of_lt (hk : k < 2 ^ format.exponentBits - 3) : n < format.overflow := by
  have hone : (1 : ℚ) ≤ 2 ^ format.fractionBits := one_le_pow₀ one_le_two
  have hpos : (0 : ℚ) < 2 ^ (format.minExponent + k) := zpow_pos two_pos _
  calc
    n = t * 2 ^ (format.minExponent + k) := h.value_eq
    _ < 2 ^ (format.fractionBits + 1) * 2 ^ (format.minExponent + k) :=
      mul_lt_mul_of_pos_right h.lt hpos
    _ = 2 ^ format.fractionBits * 2 ^ (format.minExponent + k + 1) := by
      rw [pow_succ, zpow_add_one₀ two_ne_zero, mul_assoc, mul_comm (2 : ℚ)]
    _ ≤ 2 ^ format.fractionBits * 2 ^ (format.minExponent + (2 ^ format.exponentBits - 3 : Nat)) :=
      mul_le_mul_of_nonneg_left (zpow_le_zpow_right₀ one_le_two (by omega)) (by positivity)
    _ ≤ format.overflow :=
      mul_le_mul_of_nonneg_right (by rw [pow_succ]; linarith) (zpow_pos two_pos _).le

theorem overflow_le_of_lt (hk : 2 ^ format.exponentBits - 3 < k) : format.overflow ≤ n := by
  have hlow := h.leading.resolve_left (Nat.ne_zero_of_lt hk)
  have hpos : (0 : ℚ) < 2 ^ (format.minExponent + k) := zpow_pos two_pos _
  calc
    format.overflow ≤ 2 ^ (format.fractionBits + 1) *
        2 ^ (format.minExponent + (2 ^ format.exponentBits - 3 : Nat)) :=
      mul_le_mul_of_nonneg_right (by linarith) (zpow_pos two_pos _).le
    _ = 2 ^ format.fractionBits *
        2 ^ (format.minExponent + (2 ^ format.exponentBits - 3 : Nat) + 1) := by
      rw [pow_succ, zpow_add_one₀ two_ne_zero, mul_assoc, mul_comm (2 : ℚ)]
    _ ≤ 2 ^ format.fractionBits * 2 ^ (format.minExponent + k) :=
      mul_le_mul_of_nonneg_left (zpow_le_zpow_right₀ one_le_two (by omega)) (by positivity)
    _ ≤ t * 2 ^ (format.minExponent + k) := mul_le_mul_of_nonneg_right hlow hpos.le
    _ = n := h.value_eq.symm

/-- The greatest count is odd, so that half a last place above it is rounded up. -/
theorem lt_carry_iff : u < 2 ^ (format.fractionBits + 1) ↔
    t < 2 ^ (format.fractionBits + 1) - 1 / 2 := by
  have hclose := abs_le.mp h.nearest.close
  constructor
  · intro hu
    have hlast : (u : ℚ) + 1 ≤ 2 ^ (format.fractionBits + 1) := by exact_mod_cast hu
    refine lt_of_le_of_ne (by linarith) fun hmiddle => ?_
    have hcount : (u : ℚ) + 1 = 2 ^ (format.fractionBits + 1) := by linarith
    have hodd : u + 1 = 2 ^ (format.fractionBits + 1) := by exact_mod_cast hcount
    have heven := h.nearest.even (by rw [abs_of_nonneg (by linarith)]; linarith)
    rw [pow_succ] at hodd
    omega
  · intro ht
    by_contra hu
    have hcarry : (2 : ℚ) ^ (format.fractionBits + 1) ≤ u := by exact_mod_cast Nat.not_lt.mp hu
    linarith

theorem code_lt_iff :
    k * 2 ^ format.fractionBits + u < format.infinityCode ↔ n < format.overflow := by
  have hfields : 3 ≤ 2 ^ format.exponentBits := by cases format <;> decide
  have hdouble := Nat.pow_succ (m := format.fractionBits) (n := 2)
  have hcarry := h.le_carry
  obtain ⟨top, htop⟩ := Nat.exists_eq_add_of_le' hfields
  have hinfinity : format.infinityCode = (top + 2) * 2 ^ format.fractionBits := by
    rw [infinityCode, htop]
    rfl
  have hlast : 2 ^ format.exponentBits - 3 = top := by omega
  rw [hinfinity]
  rcases Nat.lt_trichotomy k top with hless | rfl | hmore
  · have hcode : (k + 1) * 2 ^ format.fractionBits ≤ top * 2 ^ format.fractionBits :=
      Nat.mul_le_mul_right _ hless
    have hpos := Nat.two_pow_pos format.fractionBits
    refine iff_of_true ?_ (h.lt_overflow_of_lt (hlast ▸ hless))
    rw [Nat.add_mul] at hcode ⊢
    omega
  · rw [h.value_eq, overflow, hlast, mul_lt_mul_iff_left₀ (zpow_pos two_pos _), ← h.lt_carry_iff,
      Nat.add_mul]
    omega
  · have hcode : (top + 1) * 2 ^ format.fractionBits ≤ k * 2 ^ format.fractionBits :=
      Nat.mul_le_mul_right _ hmore
    have hlow := h.low.resolve_left (Nat.ne_zero_of_lt hmore)
    refine iff_of_false ?_ (not_lt.mpr (h.overflow_le_of_lt (hlast ▸ hmore)))
    rw [Nat.add_mul] at hcode ⊢
    omega

theorem rational?_value_signed (negative : Bool)
    (hcode : k * 2 ^ format.fractionBits + u < format.infinityCode) :
    (format.value (format.signed negative (k * 2 ^ format.fractionBits + u))).rational? =
      some (FloatValue.withSign negative (u * 2 ^ (format.minExponent + k))) := by
  have hfields : 3 ≤ 2 ^ format.exponentBits := by cases format <;> decide
  have hdouble := Nat.pow_succ (m := format.fractionBits) (n := 2)
  have hfield : ∀ j, j * 2 ^ format.fractionBits < format.infinityCode →
      j + 2 ≤ 2 ^ format.exponentBits := by
    intro j hj
    have hlt := Nat.lt_of_mul_lt_mul_right hj
    omega
  rcases Nat.lt_or_eq_of_le h.le_carry with hlt | hcarry
  · have hlast : k + 3 ≤ 2 ^ format.exponentBits := by
      rcases h.low with rfl | hlow
      · exact hfields
      · exact hfield (k + 1) (by rw [Nat.add_one_mul]; omega)
    rw [value_signed negative h.low hlt hlast, FloatValue.rational?_finite]
  · have hlast := hfield (k + 2) (by rw [Nat.add_mul]; omega)
    have hshift : k * 2 ^ format.fractionBits + u =
        (k + 1) * 2 ^ format.fractionBits + 2 ^ format.fractionBits := by
      rw [Nat.add_one_mul]
      omega
    rw [hshift, value_signed negative (.inr (Nat.le_refl _)) (Nat.pow_lt_pow_succ (by decide)) hlast,
      FloatValue.rational?_finite, hcarry]
    congr 2
    push_cast
    rw [← add_assoc, zpow_add_one₀ two_ne_zero, pow_succ]
    ring

end Placed

theorem magnitude_eq_zero {m : Nat} {e : Int}
    (hsmall : (m : ℚ) * 2 ^ e ≤ 2 ^ (format.minExponent - 1)) : format.magnitude m e = 0 := by
  obtain ⟨t, k, u, hplaced, hmagnitude⟩ := format.exists_placed m e
  have hpos : (0 : ℚ) < 2 ^ (format.minExponent + k) := zpow_pos two_pos _
  have hhalf : (2 : ℚ) ^ (format.minExponent - 1) ≤ 1 / 2 * 2 ^ (format.minExponent + k) := by
    rw [zpow_sub_one₀ two_ne_zero, mul_comm, ← one_div]
    refine mul_le_mul_of_nonneg_left ?_ (by norm_num)
    exact zpow_le_zpow_right₀ one_le_two (by omega)
  have ht : t ≤ 1 / 2 := by
    rw [hplaced.value_eq] at hsmall
    exact le_of_mul_le_mul_right (hsmall.trans hhalf) hpos
  have hone : (1 : ℚ) ≤ 2 ^ format.fractionBits := one_le_pow₀ one_le_two
  obtain rfl : k = 0 := hplaced.leading.resolve_right (by linarith)
  have hu : u = 0 := by
    by_contra hne
    have hle : (1 : ℚ) ≤ u := by exact_mod_cast Nat.one_le_iff_ne_zero.mpr hne
    have hclose := abs_le.mp hplaced.nearest.close
    have hu : (u : ℚ) = 1 := by linarith
    have heven := hplaced.nearest.even (by rw [hu, abs_sub_comm, abs_of_nonneg] <;> linarith)
    rw [Nat.cast_eq_one.mp hu] at heven
    cases heven
  rw [hmagnitude, hu, Nat.zero_mul]
  exact Nat.zero_min _

end Bitpack.FloatFormat
