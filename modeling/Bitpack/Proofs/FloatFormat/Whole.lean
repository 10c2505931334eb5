import Bitpack.Proofs.FloatFormat.Exact

/-!
Whole numbers in a format. A whole number is rounded to a whole number or to an infinity, and one below
a power of two is rounded up to it from half a last place below.
-/
namespace Bitpack.FloatFormat

variable {format : FloatFormat}

theorem log2_le_of_lt {u k : Nat} (hu : u < 2 ^ (k + 1)) : u.log2 ≤ k := by
  rcases Nat.eq_zero_or_pos u with rfl | hpos
  · exact Nat.zero_le k
  · exact Nat.le_of_lt_succ ((Nat.log2_lt hpos.ne').mpr hu)

/-- The number that is left of a whole one when only the bits of the format are kept. -/
def wholeNearest (format : FloatFormat) (u : Nat) : Nat :=
  halveEven u (u.log2 - format.fractionBits) * 2 ^ (u.log2 - format.fractionBits)

theorem wholeNearest_of_log2_le {u : Nat} (hlog : u.log2 ≤ format.fractionBits) :
    format.wholeNearest u = u := by
  have hexact := halveEven_exact u 0
  rw [Nat.pow_zero, Nat.mul_one] at hexact
  rw [wholeNearest, Nat.sub_eq_zero_of_le hlog, hexact, Nat.pow_zero, Nat.mul_one]

theorem wholeNearest_of_lt_log2 {u : Nat} (hlog : format.fractionBits < u.log2) :
    format.wholeNearest u = format.fitted u * 2 ^ (u.log2 - format.fractionBits) := by
  rw [wholeNearest, fitted, if_neg (Nat.not_le_of_lt hlog)]

theorem wholeNearest_ne_zero {u : Nat} (hu : u ≠ 0) : format.wholeNearest u ≠ 0 := by
  rcases Nat.lt_or_ge format.fractionBits u.log2 with hlog | hlog
  · have hlow := (format.fitted_bounds hu).1
    have hpos := Nat.two_pow_pos format.fractionBits
    rw [wholeNearest_of_lt_log2 hlog]
    exact Nat.mul_ne_zero (by omega) (Nat.two_pow_pos _).ne'
  · rwa [wholeNearest_of_log2_le hlog]

theorem two_pow_log2_le_wholeNearest {u : Nat} (hu : u ≠ 0) :
    2 ^ u.log2 ≤ format.wholeNearest u := by
  rcases Nat.lt_or_ge format.fractionBits u.log2 with hlog | hlog
  · rw [wholeNearest_of_lt_log2 hlog]
    calc
      2 ^ u.log2 = 2 ^ format.fractionBits * 2 ^ (u.log2 - format.fractionBits) := by
        rw [← Nat.pow_add, Nat.add_sub_cancel' (Nat.le_of_lt hlog)]
      _ ≤ format.fitted u * 2 ^ (u.log2 - format.fractionBits) :=
        Nat.mul_le_mul_right _ (format.fitted_bounds hu).1
  · rw [wholeNearest_of_log2_le hlog]
    exact Nat.log2_self_le hu

theorem wholeNearest_le (format : FloatFormat) {u b : Nat} (hu : u < 2 ^ b) :
    format.wholeNearest u ≤ 2 ^ b := by
  rcases Nat.lt_or_ge format.fractionBits u.log2 with hlog | hlog
  · have hne : u ≠ 0 := by
      rintro rfl
      exact absurd hlog (Nat.not_lt_zero _)
    have hlast := (Nat.log2_lt hne).mpr hu
    rw [wholeNearest_of_lt_log2 hlog]
    calc
      format.fitted u * 2 ^ (u.log2 - format.fractionBits) ≤
          2 ^ (format.fractionBits + 1) * 2 ^ (u.log2 - format.fractionBits) :=
        Nat.mul_le_mul_right _ (format.fitted_bounds hne).2
      _ = 2 ^ (format.fractionBits + 1 + (u.log2 - format.fractionBits)) := (Nat.pow_add ..).symm
      _ ≤ 2 ^ b := Nat.pow_le_pow_right (by decide) (by omega)
  · rw [wholeNearest_of_log2_le hlog]
    exact Nat.le_of_lt hu

theorem wholeNearest_eq_two_pow_iff_of_le {u b : Nat} (hu : u < 2 ^ b) (hlow : 2 ^ (b - 1) ≤ u)
    (hbits : format.fractionBits + 2 ≤ b) :
    format.wholeNearest u = 2 ^ b ↔ 2 ^ b ≤ u + 2 ^ (b - (format.fractionBits + 2)) := by
  obtain ⟨k, rfl⟩ := Nat.exists_eq_add_of_le hbits
  have hne : u ≠ 0 := (Nat.lt_of_lt_of_le (Nat.two_pow_pos _) hlow).ne'
  have hlog : u.log2 = format.fractionBits + 2 + k - 1 :=
    (Nat.log2_eq_iff hne).mpr ⟨hlow, by rwa [Nat.sub_add_cancel (by omega)]⟩
  have hplaces : u.log2 - format.fractionBits = k + 1 := by omega
  have htop : 2 ^ (format.fractionBits + 2 + k) = 2 ^ (format.fractionBits + 1) * 2 ^ (k + 1) := by
    rw [← Nat.pow_add]
    congr 1
    omega
  have heven : 2 ^ (format.fractionBits + 1) % 2 = 0 := by rw [Nat.pow_succ, Nat.mul_mod_left]
  have hhalf : 2 ^ (k + 1) = 2 * 2 ^ k := Nat.pow_succ'
  rw [wholeNearest, hplaces, htop, Nat.mul_right_cancel_iff (Nat.two_pow_pos _), halveEven_eq_iff,
    Nat.add_sub_cancel_left]
  rw [htop] at hu
  constructor
  · intro hnear
    have hge := hnear.ge
    omega
  · intro hge
    exact ⟨by omega, by omega, fun _ => heven⟩

theorem wholeNearest_lt {u b : Nat} (hu : u < 2 ^ b)
    (hsmall : b < format.fractionBits + 2 ∨ u < 2 ^ (b - 1) ∧ 0 < b) :
    format.wholeNearest u < 2 ^ b := by
  rcases hsmall with hbits | ⟨hless, hpos⟩
  · have hfew : u < 2 ^ (format.fractionBits + 1) :=
      Nat.lt_of_lt_of_le hu (Nat.pow_le_pow_right (by decide) (Nat.le_of_lt_succ hbits))
    rw [wholeNearest_of_log2_le (log2_le_of_lt hfew)]
    exact hu
  · have hlt : 2 ^ (b - 1) < 2 ^ b := Nat.pow_lt_pow_right (by decide) (Nat.sub_one_lt hpos.ne')
    exact Nat.lt_of_le_of_lt (format.wholeNearest_le hless) hlt

theorem wholeNearest_eq_two_pow_iff {u b : Nat} (hu : u < 2 ^ b) :
    format.wholeNearest u = 2 ^ b ↔
      format.fractionBits + 2 ≤ b ∧ 2 ^ b ≤ u + 2 ^ (b - (format.fractionBits + 2)) := by
  rcases Nat.lt_or_ge b (format.fractionBits + 2) with hbits | hbits
  · exact iff_of_false (wholeNearest_lt hu (.inl hbits)).ne fun h => Nat.not_le_of_lt hbits h.1
  · rw [and_iff_right hbits]
    rcases Nat.lt_or_ge u (2 ^ (b - 1)) with hless | hlow
    · have hgap : 2 ^ (b - (format.fractionBits + 2)) ≤ 2 ^ (b - 1) :=
        Nat.pow_le_pow_right (by decide) (by omega)
      have hdouble : 2 ^ b = 2 * 2 ^ (b - 1) := by
        rw [← Nat.pow_succ', Nat.succ_eq_add_one, Nat.sub_add_cancel (by omega)]
      exact iff_of_false (wholeNearest_lt hu (.inr ⟨hless, by omega⟩)).ne (by omega)
    · exact wholeNearest_eq_two_pow_iff_of_le hu hlow hbits

theorem nearest_fitted (negative : Bool) {m k : Nat} {e : Int} (hm : m ≠ 0)
    (hexponent : e + m.log2 - format.fractionBits = format.minExponent + k)
    (hcode : k * 2 ^ format.fractionBits + format.fitted m < format.infinityCode) :
    (format.nearest (.finite negative m e)).Same
      (.finite negative (format.fitted m) (e + m.log2 - format.fractionBits)) := by
  obtain ⟨hlow, hhigh⟩ := format.fitted_bounds hm
  have hfields : ∀ j, j * 2 ^ format.fractionBits < format.infinityCode →
      j + 2 ≤ 2 ^ format.exponentBits := by
    intro j hj
    have hlt := Nat.lt_of_mul_lt_mul_right hj
    omega
  have hdouble := Nat.pow_succ' (m := 2) (n := format.fractionBits)
  rcases Nat.lt_or_eq_of_le hhigh with hfitted | hcarry
  · have hfield := hfields (k + 1) (by rw [Nat.add_one_mul]; omega)
    rw [nearest_of_fitted_lt format negative hm hexponent (by omega) hfitted]
    exact .refl _
  · have hfield := hfields (k + 2) (by rw [Nat.add_mul]; omega)
    rw [nearest_of_carry format negative hm hexponent (by omega) hcarry, hcarry, Nat.pow_succ]
    exact (FloatValue.same_shift negative _ 1 _).symm

theorem same_wholeNearest (negative : Bool) {u : Nat} (hlog : format.fractionBits < u.log2) :
    FloatValue.Same (.finite negative (format.fitted u) (0 + u.log2 - format.fractionBits))
      (.finite negative (format.wholeNearest u) 0) := by
  have hshift := FloatValue.same_shift negative (format.fitted u)
    (u.log2 - format.fractionBits) 0
  rw [← wholeNearest_of_lt_log2 hlog,
    show (0 : Int) + (u.log2 - format.fractionBits : Nat) = 0 + u.log2 - format.fractionBits by omega]
    at hshift
  exact hshift.symm

theorem exact_of_log2_le (negative : Bool) {u : Nat} (hlog : u.log2 ≤ format.fractionBits) :
    format.Exact (.finite negative u 0) := by
  apply exact_of_fits
  refine ⟨Nat.lt_of_lt_of_le Nat.lt_log2_self (Nat.pow_le_pow_right (by decide) (by omega)), ?_, ?_⟩
  · cases format <;> decide
  · cases format <;> decide

theorem exact_of_le_two_pow (negative : Bool) {u : Nat} (hu : u ≤ 2 ^ (format.fractionBits + 1)) :
    format.Exact (.finite negative u 0) := by
  rcases Nat.lt_or_eq_of_le hu with hlt | rfl
  · exact exact_of_log2_le negative (log2_le_of_lt hlt)
  · have hleading : format.Fits (2 ^ format.fractionBits) 1 :=
      ⟨Nat.pow_lt_pow_succ (by decide), by cases format <;> decide, by cases format <;> decide⟩
    exact (exact_of_fits negative hleading).congr (FloatValue.same_shift negative _ 1 0).symm

theorem exponent_range (format : FloatFormat) :
    format.minExponent + format.fractionBits + (2 ^ format.exponentBits : Nat) =
      (2 ^ (format.exponentBits - 1) : Nat) + 2 := by
  cases format <;> decide

theorem nearest_whole (format : FloatFormat) (negative : Bool) (u : Nat) :
    (format.nearest (.finite negative u 0) = .infinite negative ∧
        2 ^ (format.exponentBits - 1) ≤ u.log2 + 1) ∨
      (format.nearest (.finite negative u 0)).Same (.finite negative (format.wholeNearest u) 0) := by
  rcases Nat.lt_or_ge format.fractionBits u.log2 with hlog | hlog
  · have hne : u ≠ 0 := by
      rintro rfl
      exact absurd hlog (Nat.not_lt_zero _)
    have hmin : format.minExponent ≤ 0 := by cases format <;> decide
    have hrange := format.exponent_range
    obtain ⟨k, hk⟩ := Int.le.dest (show format.minExponent ≤ 0 + u.log2 - format.fractionBits by omega)
    rcases Nat.lt_or_ge (k * 2 ^ format.fractionBits + format.fitted u) format.infinityCode with
      hfinite | hinfinite
    · exact .inr ((nearest_fitted negative hne hk.symm hfinite).trans (same_wholeNearest negative hlog))
    · refine .inl ⟨?_, ?_⟩
      · rw [nearest, round, magnitude_eq_min format hne hk.symm, min_eq_right hinfinite,
          value_infinityCode]
      · have hfield : (2 ^ format.exponentBits - 1) * 2 ^ format.fractionBits ≤
            (k + 2) * 2 ^ format.fractionBits := by
          calc
            (2 ^ format.exponentBits - 1) * 2 ^ format.fractionBits ≤
                k * 2 ^ format.fractionBits + format.fitted u := hinfinite
            _ ≤ k * 2 ^ format.fractionBits + 2 ^ (format.fractionBits + 1) :=
              Nat.add_le_add_left (format.fitted_bounds hne).2 _
            _ = (k + 2) * 2 ^ format.fractionBits := by rw [Nat.add_mul, Nat.pow_succ']
        have hle := Nat.le_of_mul_le_mul_right hfield (Nat.two_pow_pos _)
        omega
  · rw [wholeNearest_of_log2_le hlog]
    exact .inr (exact_of_log2_le negative hlog)

theorem nearest_whole_of_lt (format : FloatFormat) (negative : Bool) {u b : Nat} (hu : u < 2 ^ b)
    (hb : b < 2 ^ (format.exponentBits - 1)) :
    (format.nearest (.finite negative u 0)).Same (.finite negative (format.wholeNearest u) 0) := by
  refine (format.nearest_whole negative u).resolve_left ?_
  rintro ⟨-, hlog⟩
  rcases Nat.eq_zero_or_pos u with rfl | hpos
  · have hpositive : 1 < 2 ^ (format.exponentBits - 1) := by cases format <;> decide
    exact absurd hlog (Nat.not_le_of_lt hpositive)
  · have hlast := (Nat.log2_lt hpos.ne').mpr hu
    omega

theorem lt_of_value_same {pattern : BitVec format.width} {negative : Bool} {u : Nat}
    (hsame : (format.value pattern).Same (.finite negative u 0)) :
    u < 2 ^ 2 ^ (format.exponentBits - 1) := by
  rcases value_forms pattern with hvalue | ⟨negative, -, hvalue⟩ |
    ⟨negative, m, k, hcanonical, -, hvalue⟩
  · rw [hvalue] at hsame
    cases hsame
  · rw [hvalue] at hsame
    cases hsame
  · rw [hvalue] at hsame
    cases hsame with
    | finite _ i j hm he =>
        have hrange := format.exponent_range
        have hfield := hcanonical.field
        have hlt : u * 2 ^ j < 2 ^ 2 ^ (format.exponentBits - 1) * 2 ^ j := by
          calc
            u * 2 ^ j = m * 2 ^ i := hm.symm
            _ < 2 ^ (format.fractionBits + 1) * 2 ^ i :=
              Nat.mul_lt_mul_of_pos_right hcanonical.lt (Nat.two_pow_pos i)
            _ = 2 ^ (format.fractionBits + 1 + i) := (Nat.pow_add ..).symm
            _ ≤ 2 ^ (2 ^ (format.exponentBits - 1) + j) :=
              Nat.pow_le_pow_right (by decide) (by omega)
            _ = 2 ^ 2 ^ (format.exponentBits - 1) * 2 ^ j := Nat.pow_add ..
        exact Nat.lt_of_mul_lt_mul_right hlt

end Bitpack.FloatFormat
