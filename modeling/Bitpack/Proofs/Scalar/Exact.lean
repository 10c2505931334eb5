import Bitpack.Proofs.Platform
import Bitpack.Scalar.Cast

/-!
Conversions that change nothing, and what the others leave. An integer passes unchanged through the
doubles if some format has it, and otherwise it becomes another integer.
-/
namespace Bitpack

namespace FloatValue

theorem ofInt_natCast (u : Nat) : ofInt u = .finite false u 0 :=
  congrArg (finite · u 0) (decide_eq_false (Int.not_lt.mpr (Int.natCast_nonneg u)))

theorem ofInt_signedSignificand (negative : Bool) {m : Nat} (hm : m ≠ 0) :
    ofInt (signedSignificand negative m) = .finite negative m 0 := by
  cases negative with
  | false => exact ofInt_natCast m
  | true =>
      unfold ofInt signedSignificand
      rw [if_pos rfl, Int.natAbs_neg, Int.natAbs_natCast, decide_eq_true (by omega)]

theorem ofInt_ne_nan (n : Int) : ofInt n ≠ .nan :=
  FloatValue.noConfusion

end FloatValue

namespace Scalar

open FloatFormat (Exact wholeNearest)

variable {format : FloatFormat}

theorem doubleOfInt_same {n : Int} (hn : format.Exact (.ofInt n)) :
    (doubleOfInt n).Same (.ofInt n) :=
  hn.widen (by cases format <;> decide)

theorem round_doubleOfInt {n : Int} (hn : format.Exact (.ofInt n)) :
    format.round (doubleOfInt n) = format.round (.ofInt n) :=
  (doubleOfInt_same hn).round_eq format

def roundedInt (format : FloatFormat) (n : Int) : Int :=
  FloatValue.signedSignificand (decide (n < 0)) (format.wholeNearest n.natAbs)

theorem same_roundedInt (format : FloatFormat) (n : Int) :
    FloatValue.Same (.finite (decide (n < 0)) (format.wholeNearest n.natAbs) 0)
      (.ofInt (roundedInt format n)) := by
  rcases Int.lt_or_le n 0 with hneg | hnonneg
  · rw [roundedInt, FloatValue.ofInt_signedSignificand _
      (FloatFormat.wholeNearest_ne_zero (Int.natAbs_ne_zero.mpr hneg.ne))]
    exact .refl _
  · rw [roundedInt, decide_eq_false (Int.not_lt.mpr hnonneg)]
    exact FloatValue.ofInt_natCast _ ▸ .refl _

theorem nearest_ofInt (format : FloatFormat) (n : Int) :
    (∃ negative, format.nearest (.ofInt n) = .infinite negative) ∨
      (format.nearest (.ofInt n)).Same (.ofInt (roundedInt format n)) := by
  rcases format.nearest_whole (decide (n < 0)) n.natAbs with ⟨hinfinite, -⟩ | hsame
  · exact .inl ⟨_, hinfinite⟩
  · exact .inr (hsame.trans (same_roundedInt format n))

theorem doubleOfInt_same_roundedInt {n : Int} (hn : n.natAbs < 2 ^ 64) :
    (doubleOfInt n).Same (.ofInt (roundedInt .double n)) :=
  (FloatFormat.double.nearest_whole_of_lt _ hn (by decide)).trans (same_roundedInt .double n)

theorem roundedInt_nonneg (format : FloatFormat) {n : Int} (hn : 0 ≤ n) :
    0 ≤ roundedInt format n := by
  rw [roundedInt, decide_eq_false (Int.not_lt.mpr hn)]
  exact Int.natCast_nonneg _

theorem roundedInt_double {n : Int} (hn : n.natAbs < 2 ^ 53) : roundedInt .double n = n := by
  rw [roundedInt, FloatFormat.wholeNearest_of_log2_le (FloatFormat.log2_le_of_lt hn)]
  unfold FloatValue.signedSignificand
  split <;> rename_i hsign <;> simp only [decide_eq_true_eq] at hsign <;> omega

theorem half_magnitude_of_le {u : Nat} (hu : 2 ^ 53 ≤ u) :
    FloatFormat.half.magnitude u 0 = FloatFormat.half.infinityCode := by
  have hlarge : (2 ^ 53 : ℚ) ≤ u := by exact_mod_cast hu
  apply FloatFormat.magnitude_of_overflow_le
  rw [FloatFormat.overflow_half, zpow_zero, mul_one]
  linarith

theorem half_round_doubleOfInt {n : Int} (hn : n.natAbs < 2 ^ 64) :
    FloatFormat.half.round (doubleOfInt n) = FloatFormat.half.round (.ofInt n) := by
  rcases Nat.le_total n.natAbs (2 ^ 53) with hshort | hlong
  · have hexact : FloatFormat.double.Exact (.ofInt n) := FloatFormat.exact_of_le_two_pow _ hshort
    exact (doubleOfInt_same hexact).round_eq .half
  · have hne : n.natAbs ≠ 0 := (Nat.lt_of_lt_of_le (Nat.two_pow_pos 53) hlong).ne'
    have hkept : 2 ^ 53 ≤ FloatFormat.double.wholeNearest n.natAbs := by
      calc
        2 ^ 53 ≤ 2 ^ n.natAbs.log2 := Nat.pow_le_pow_right (by decide) ((Nat.le_log2 hne).mpr hlong)
        _ ≤ FloatFormat.double.wholeNearest n.natAbs := FloatFormat.two_pow_log2_le_wholeNearest hne
    have hdouble := FloatFormat.double.nearest_whole_of_lt (decide (n < 0)) hn (by decide)
    calc
      FloatFormat.half.round (doubleOfInt n) = FloatFormat.half.round
          (.finite (decide (n < 0)) (FloatFormat.double.wholeNearest n.natAbs) 0) :=
        hdouble.round_eq .half
      _ = FloatFormat.half.round (.ofInt n) := by
        rw [FloatValue.ofInt, FloatFormat.round, FloatFormat.round, half_magnitude_of_le hkept,
          half_magnitude_of_le hlong]

section

variable [Platform] [LawfulPlatform]

theorem ofDouble_doubleOfInt (format : FloatFormat) (n : Int) :
    format.ofDouble (doubleOfInt n) = format.round (doubleOfInt n) := by
  rcases nearest_ofInt .double n with ⟨negative, hinfinite⟩ | hsame
  · rw [doubleOfInt, hinfinite]
    exact FloatFormat.ofDouble_of_infinite (format.value_infinityCode negative)
  · exact FloatFormat.ofDouble_of_whole hsame

theorem floatOfInt_eq_round {n : Int} (hn : format.Exact (.ofInt n)) :
    floatOfInt format n = format.round (.ofInt n) := by
  cases format with
  | half => exact (ofDouble_doubleOfInt .half n).trans (round_doubleOfInt hn)
  | single => rfl
  | double => rfl

theorem value_floatOfInt {n : Int} (hn : format.Exact (.ofInt n)) :
    (format.value (floatOfInt format n)).Same (.ofInt n) := by
  rw [floatOfInt_eq_round hn]
  exact hn

theorem floatOfInt_eq_of_same {n : Int} {pattern : BitVec format.width}
    (hpattern : (format.value pattern).Same (.ofInt n)) : floatOfInt format n = pattern := by
  rw [floatOfInt_eq_round ((FloatFormat.exact_value pattern).congr hpattern)]
  exact FloatFormat.round_eq_of_same hpattern (FloatValue.ofInt_ne_nan n)

theorem floatOfInt_eq_round_of_lt (format : FloatFormat) {n : Int} (hn : n.natAbs < 2 ^ 64) :
    floatOfInt format n = format.round (.ofInt n) := by
  cases format with
  | half => exact (ofDouble_doubleOfInt .half n).trans (half_round_doubleOfInt hn)
  | single => rfl
  | double => rfl

theorem floatOfInt_natCast (format : FloatFormat) {u : Nat} (hu : u < 2 ^ 64) :
    floatOfInt format u = format.round (.ofInt u) :=
  floatOfInt_eq_round_of_lt format hu

theorem value_floatOfInt_natCast (format : FloatFormat) {u b : Nat} (hu : u < 2 ^ b) (hb : b ≤ 64) :
    (format.value (floatOfInt format u) = .infinite false ∧
        2 ^ (format.exponentBits - 1) ≤ b) ∨
      ∃ v : Nat, (format.value (floatOfInt format u)).Same (.ofInt v) ∧ v ≤ 2 ^ b ∧
        (v = 2 ^ b ↔ b < 2 ^ (format.exponentBits - 1) ∧ format.fractionBits + 2 ≤ b ∧
          2 ^ b ≤ u + 2 ^ (b - (format.fractionBits + 2))) := by
  have hsize : u < 2 ^ 64 := Nat.lt_of_lt_of_le hu (Nat.pow_le_pow_right (by decide) hb)
  have hvalue : format.value (floatOfInt format u) = format.nearest (.finite false u 0) := by
    rw [floatOfInt_natCast format hsize, FloatValue.ofInt_natCast]
    rfl
  rw [hvalue]
  rcases Nat.lt_or_ge b (2 ^ (format.exponentBits - 1)) with hsmall | hlarge
  · refine .inr ⟨_, ?_, format.wholeNearest_le hu, ?_⟩
    · rw [FloatValue.ofInt_natCast]
      exact format.nearest_whole_of_lt false hu hsmall
    · rw [FloatFormat.wholeNearest_eq_two_pow_iff hu]
      exact (and_iff_right hsmall).symm
  · rcases format.nearest_whole false u with ⟨hinfinite, -⟩ | hsame
    · exact .inl ⟨hinfinite, hlarge⟩
    · have hlt := Nat.lt_of_lt_of_le (FloatFormat.lt_of_value_same hsame)
        (Nat.pow_le_pow_right (by decide) hlarge)
      refine .inr ⟨_, ?_, Nat.le_of_lt hlt, iff_of_false hlt.ne ?_⟩
      · rw [FloatValue.ofInt_natCast]
        exact hsame
      · rintro ⟨hsmall, -⟩
        omega

end

end Scalar

end Bitpack
