import Bitpack.Proofs.FloatFormat.Same

/-!
Values that a format has. The value of a pattern is rounded to the pattern itself, a number has a
pattern if its significand and its exponent fit, and a format has every value of a narrower one.
-/
namespace Bitpack.FloatFormat

variable {format : FloatFormat}

/-- A significand and an exponent, counted from the smallest one, as they stand in a pattern. -/
structure Canonical (format : FloatFormat) (m k : Nat) : Prop where
  lt : m < 2 ^ (format.fractionBits + 1)
  leading : k = 0 ∨ 2 ^ format.fractionBits ≤ m
  field : k + 3 ≤ 2 ^ format.exponentBits

theorem Canonical.value_signed {m k : Nat} (hm : format.Canonical m k) (negative : Bool) :
    format.value (format.signed negative (k * 2 ^ format.fractionBits + m)) =
      .finite negative m (format.minExponent + k) :=
  FloatFormat.value_signed negative hm.leading hm.lt hm.field

theorem Canonical.magnitude_eq {m k : Nat} (hm : format.Canonical m k) :
    format.magnitude m (format.minExponent + k) = k * 2 ^ format.fractionBits + m := by
  have hpos := Nat.two_pow_pos format.fractionBits
  have hleading := hm.leading
  unfold magnitude
  dsimp only
  split
  · obtain rfl : k = 0 := by omega
    omega
  · rename_i hzero
    have hlog : m.log2 ≤ format.fractionBits := Nat.le_of_lt_succ ((Nat.log2_lt hzero).mpr hm.lt)
    have hplace : max (format.minExponent + k + m.log2 - format.fractionBits) format.minExponent =
        format.minExponent + k := by
      rcases hleading with rfl | hnormal
      · omega
      · have hfull := (Nat.le_log2 hzero).mpr hnormal
        omega
    rw [hplace, if_pos (Int.le_refl _), Int.sub_self, Int.toNat_zero, Nat.pow_zero, Nat.mul_one,
      show (format.minExponent + k - format.minExponent).toNat = k by omega,
      min_eq_left (code_le (Nat.le_of_lt hm.lt) hm.field)]

theorem exists_canonical {code : Nat} (hcode : code < format.infinityCode) :
    ∃ m k, format.Canonical m k ∧ code = k * 2 ^ format.fractionBits + m := by
  have hpos := Nat.two_pow_pos format.fractionBits
  have hfield : code / 2 ^ format.fractionBits < 2 ^ format.exponentBits - 1 :=
    (Nat.div_lt_iff_lt_mul hpos).mpr hcode
  clear hcode
  have hrest := Nat.mod_lt code hpos
  have hsplit := Nat.div_add_mod' code (2 ^ format.fractionBits)
  have hdouble := Nat.pow_succ' (m := 2) (n := format.fractionBits)
  rcases Nat.eq_zero_or_pos (code / 2 ^ format.fractionBits) with hzero | hnormal
  · rw [hzero] at hsplit hfield
    exact ⟨code, 0, ⟨by omega, .inl rfl, by cases format <;> decide⟩, by omega⟩
  · obtain ⟨k, hk⟩ := Nat.exists_eq_add_of_lt hnormal
    rw [hk, Nat.zero_add, Nat.add_one_mul] at hsplit
    exact ⟨2 ^ format.fractionBits + code % 2 ^ format.fractionBits, k,
      ⟨by omega, .inr (by omega), by omega⟩, by omega⟩

theorem value_infinityCode (format : FloatFormat) (negative : Bool) :
    format.value (format.signed negative format.infinityCode) = .infinite negative := by
  cases format <;> cases negative <;> decide

theorem value_of_infinityCode_lt (negative : Bool) {code : Nat} (hcode : format.infinityCode < code)
    (hlt : code < 2 ^ (format.fractionBits + format.exponentBits)) :
    format.value (format.signed negative code) = .nan := by
  have hpos := Nat.two_pow_pos format.fractionBits
  have hlow : 2 ^ format.exponentBits - 1 ≤ code / 2 ^ format.fractionBits :=
    (Nat.le_div_iff_mul_le hpos).mpr (Nat.le_of_lt hcode)
  have hhigh : code / 2 ^ format.fractionBits < 2 ^ format.exponentBits := by
    rwa [Nat.div_lt_iff_lt_mul hpos, ← Nat.pow_add, Nat.add_comm]
  have hfield : code / 2 ^ format.fractionBits = 2 ^ format.exponentBits - 1 := by omega
  have hsplit := Nat.div_add_mod' code (2 ^ format.fractionBits)
  have hfraction : code % 2 ^ format.fractionBits ≠ 0 := by
    intro hzero
    rw [hfield, hzero] at hsplit
    exact hcode.ne hsplit
  unfold value
  dsimp only
  rw [msb_signed negative hlt, toNat_signed_mod negative hlt, if_pos hfield, if_neg hfraction]

theorem code_lt_of_pattern (pattern : BitVec format.width) :
    pattern.toNat % 2 ^ (format.width - 1) < 2 ^ (format.fractionBits + format.exponentBits) := by
  have hwidth : format.width - 1 = format.fractionBits + format.exponentBits := by
    rw [width_eq, Nat.add_sub_cancel]
  rw [hwidth]
  exact Nat.mod_lt _ (Nat.two_pow_pos _)

theorem signed_msb (pattern : BitVec format.width) :
    format.signed pattern.msb (pattern.toNat % 2 ^ (format.width - 1)) = pattern := by
  have hwidth : format.width - 1 = format.fractionBits + format.exponentBits := by
    rw [width_eq, Nat.add_sub_cancel]
  have hlt := pattern.isLt
  have hdouble : 2 ^ format.width = 2 * 2 ^ (format.width - 1) := by
    rw [← Nat.pow_succ', Nat.succ_eq_add_one, Nat.sub_add_cancel (by cases format <;> decide)]
  apply BitVec.eq_of_toNat_eq
  rw [toNat_signed _ (code_lt_of_pattern pattern), ← hwidth, BitVec.msb_eq_decide]
  rcases Nat.lt_or_ge pattern.toNat (2 ^ (format.width - 1)) with hsmall | hlarge
  · rw [Nat.mod_eq_of_lt hsmall, decide_eq_false (Nat.not_le_of_lt hsmall)]
    exact Nat.zero_add _
  · rw [Nat.mod_eq_sub_mod hlarge, Nat.mod_eq_of_lt (by omega), decide_eq_true hlarge]
    exact Nat.add_sub_cancel' hlarge

theorem value_forms (pattern : BitVec format.width) :
    format.value pattern = .nan ∨
      (∃ negative, pattern = format.signed negative format.infinityCode ∧
        format.value pattern = .infinite negative) ∨
      ∃ negative m k, format.Canonical m k ∧
        pattern = format.signed negative (k * 2 ^ format.fractionBits + m) ∧
        format.value pattern = .finite negative m (format.minExponent + k) := by
  have hpattern := signed_msb pattern
  have hlt := code_lt_of_pattern pattern
  generalize pattern.toNat % 2 ^ (format.width - 1) = code at hpattern hlt
  rw [← hpattern]
  rcases Nat.lt_trichotomy code format.infinityCode with hfinite | rfl | hnan
  · obtain ⟨m, k, hcanonical, rfl⟩ := exists_canonical hfinite
    exact .inr (.inr ⟨_, m, k, hcanonical, rfl, hcanonical.value_signed _⟩)
  · exact .inr (.inl ⟨_, rfl, value_infinityCode format _⟩)
  · exact .inl (value_of_infinityCode_lt _ hnan hlt)

theorem round_value {pattern : BitVec format.width} (hnan : format.value pattern ≠ .nan) :
    format.round (format.value pattern) = pattern := by
  rcases value_forms pattern with hvalue | ⟨negative, hpattern, hvalue⟩ |
    ⟨negative, m, k, hcanonical, hpattern, hvalue⟩
  · exact absurd hvalue hnan
  · rw [hvalue]
    exact hpattern.symm
  · rw [hvalue]
    exact (congrArg (format.signed negative) hcanonical.magnitude_eq).trans hpattern.symm

theorem nearest_value (pattern : BitVec format.width) :
    format.nearest (format.value pattern) = format.value pattern := by
  by_cases hnan : format.value pattern = .nan
  · rw [hnan]
    cases format <;> decide
  · rw [nearest, round_value hnan]

theorem magnitude_le (format : FloatFormat) (m : Nat) (e : Int) :
    format.magnitude m e ≤ format.infinityCode := by
  unfold magnitude
  dsimp only
  split
  · exact Nat.zero_le _
  · exact Nat.min_le_right ..

theorem nearest_finite (format : FloatFormat) (negative : Bool) (m : Nat) (e : Int) :
    format.nearest (.finite negative m e) = .infinite negative ∨
      ∃ m' k, format.Canonical m' k ∧
        format.nearest (.finite negative m e) = .finite negative m' (format.minExponent + k) := by
  rcases Nat.lt_or_eq_of_le (format.magnitude_le m e) with hfinite | hinfinite
  · obtain ⟨m', k, hcanonical, hcode⟩ := exists_canonical hfinite
    refine .inr ⟨m', k, hcanonical, ?_⟩
    rw [nearest, round, hcode, hcanonical.value_signed]
  · rw [nearest, round, hinfinite]
    exact .inl (value_infinityCode format negative)

theorem nearest_ne_nan {v : FloatValue} (hv : v ≠ .nan) : format.nearest v ≠ .nan := by
  cases v with
  | nan => exact absurd rfl hv
  | infinite negative =>
      rw [nearest, round, value_infinityCode]
      exact FloatValue.noConfusion
  | finite negative m e =>
      rcases format.nearest_finite negative m e with hvalue | ⟨m', k, _, hvalue⟩ <;> rw [hvalue] <;>
        exact FloatValue.noConfusion

/-- The format has the value. -/
def Exact (format : FloatFormat) (v : FloatValue) : Prop :=
  (format.nearest v).Same v

theorem exact_value (pattern : BitVec format.width) : format.Exact (format.value pattern) := by
  rw [Exact, nearest_value]
  exact .refl _

theorem exact_infinite (format : FloatFormat) (negative : Bool) :
    format.Exact (.infinite negative) := by
  rw [Exact, nearest, round, value_infinityCode]
  exact .refl _

theorem Exact.congr {v v' : FloatValue} (hv : format.Exact v) (hsame : v.Same v') :
    format.Exact v' := by
  have hround := hsame.round_eq format
  unfold Exact nearest at *
  rw [← hround]
  exact hv.trans hsame

theorem round_eq_of_same {pattern : BitVec format.width} {v : FloatValue}
    (hsame : (format.value pattern).Same v) (hnan : v ≠ .nan) : format.round v = pattern := by
  rw [← hsame.round_eq]
  apply round_value
  intro hvalue
  rw [hvalue] at hsame
  cases hsame
  exact hnan rfl

/-- A significand and an exponent that need no rounding. -/
structure Fits (format : FloatFormat) (m : Nat) (e : Int) : Prop where
  lt : m < 2 ^ (format.fractionBits + 1)
  ge : format.minExponent ≤ e
  le : e + 3 ≤ format.minExponent + (2 ^ format.exponentBits : Nat)

theorem Canonical.fits {m k : Nat} (hm : format.Canonical m k) :
    format.Fits m (format.minExponent + k) where
  lt := hm.lt
  ge := by omega
  le := by have := hm.field; omega

theorem Fits.exists_canonical {m n : Nat} (hfits : format.Fits m (format.minExponent + n)) :
    ∃ j ≤ n, format.Canonical (m * 2 ^ j) (n - j) := by
  obtain ⟨hlt, -, hle⟩ := hfits
  rcases Nat.eq_zero_or_pos m with rfl | hpos
  · refine ⟨n, Nat.le_refl n, ?_, .inl (Nat.sub_self n), by omega⟩
    rw [Nat.zero_mul]
    exact Nat.two_pow_pos _
  · have hlog : m.log2 ≤ format.fractionBits :=
      Nat.le_of_lt_succ ((Nat.log2_lt hpos.ne').mpr hlt)
    -- Shifted until the leading bit is in its place or the exponent is the smallest one.
    refine ⟨min (format.fractionBits - m.log2) n, Nat.min_le_right .., ?_, ?_, by omega⟩
    · calc
        m * 2 ^ min (format.fractionBits - m.log2) n <
            2 ^ (m.log2 + 1) * 2 ^ min (format.fractionBits - m.log2) n :=
          Nat.mul_lt_mul_of_pos_right Nat.lt_log2_self (Nat.two_pow_pos _)
        _ = 2 ^ (m.log2 + 1 + min (format.fractionBits - m.log2) n) := (Nat.pow_add ..).symm
        _ ≤ 2 ^ (format.fractionBits + 1) := Nat.pow_le_pow_right (by decide) (by omega)
    · rcases Nat.le_total (format.fractionBits - m.log2) n with hfull | hsmall
      · right
        rw [Nat.min_eq_left hfull]
        calc
          2 ^ format.fractionBits = 2 ^ m.log2 * 2 ^ (format.fractionBits - m.log2) := by
            rw [← Nat.pow_add, Nat.add_sub_cancel' hlog]
          _ ≤ m * 2 ^ (format.fractionBits - m.log2) :=
            Nat.mul_le_mul_right _ (Nat.log2_self_le hpos.ne')
      · left
        rw [Nat.min_eq_right hsmall, Nat.sub_self]

theorem exact_of_fits (negative : Bool) {m : Nat} {e : Int} (hfits : format.Fits m e) :
    format.Exact (.finite negative m e) := by
  obtain ⟨n, rfl⟩ := Int.le.dest hfits.ge
  obtain ⟨j, hj, hcanonical⟩ := hfits.exists_canonical
  have hshift := FloatValue.same_shift negative m j (format.minExponent + (n - j : Nat))
  rw [show format.minExponent + (n - j : Nat) + j = format.minExponent + n by omega] at hshift
  refine Exact.congr ?_ hshift
  rw [← hcanonical.value_signed negative]
  exact exact_value _

theorem fits_of_value {pattern : BitVec format.width} {negative : Bool} {m : Nat} {e : Int}
    (hvalue : format.value pattern = .finite negative m e) : format.Fits m e := by
  rcases value_forms pattern with hform | ⟨_, -, hform⟩ | ⟨_, m', k, hcanonical, -, hform⟩
  · rw [hvalue] at hform
    cases hform
  · rw [hvalue] at hform
    cases hform
  · rw [hvalue] at hform
    cases hform
    exact hcanonical.fits

theorem exact_zero (format : FloatFormat) (negative : Bool) (e : Int) :
    format.Exact (.finite negative 0 e) := by
  have hfits : format.Fits 0 0 := ⟨Nat.two_pow_pos _, by cases format <;> decide,
    by cases format <;> decide⟩
  exact (exact_of_fits negative hfits).congr (FloatValue.same_zero negative 0 e)

theorem Fits.of_le {m m' : Nat} {e e' : Int} (hfits : format.Fits m e) (hm : m' ≤ m) (he : e ≤ e')
    (he' : e' ≤ max e 0) : format.Fits m' e' := by
  obtain ⟨hlt, hge, hle⟩ := hfits
  refine ⟨Nat.lt_of_le_of_lt hm hlt, Int.le_trans hge he, ?_⟩
  have hzero : (0 : Int) + 3 ≤ format.minExponent + (2 ^ format.exponentBits : Nat) := by
    cases format <;> decide
  omega

theorem Fits.widen {wide : FloatFormat} (hwide : format.bytes ≤ wide.bytes) {m : Nat} {e : Int}
    (hfits : format.Fits m e) : wide.Fits m e := by
  obtain ⟨hlt, hge, hle⟩ := hfits
  have hfraction : format.fractionBits ≤ wide.fractionBits := by
    cases format <;> cases wide <;> first | decide | exact absurd hwide (by decide)
  have hlow : wide.minExponent ≤ format.minExponent := by
    cases format <;> cases wide <;> first | decide | exact absurd hwide (by decide)
  have hhigh : format.minExponent + (2 ^ format.exponentBits : Nat) ≤
      wide.minExponent + (2 ^ wide.exponentBits : Nat) := by
    cases format <;> cases wide <;> first | decide | exact absurd hwide (by decide)
  exact ⟨Nat.lt_of_lt_of_le hlt (Nat.pow_le_pow_right (by decide) (by omega)), by omega, by omega⟩

theorem Exact.widen {wide : FloatFormat} (hwide : format.bytes ≤ wide.bytes) {v : FloatValue}
    (hv : format.Exact v) : wide.Exact v := by
  refine Exact.congr ?_ hv
  rcases value_forms (format.round v) with hvalue | ⟨negative, -, hvalue⟩ |
    ⟨negative, m, k, hcanonical, -, hvalue⟩
  · rw [nearest, hvalue, Exact, show wide.nearest .nan = .nan by cases wide <;> decide]
    exact .nan
  · rw [nearest, hvalue]
    exact wide.exact_infinite negative
  · rw [nearest, hvalue]
    exact exact_of_fits negative (hcanonical.fits.widen hwide)

end Bitpack.FloatFormat
