import Bitpack.Proofs.FloatFormat.Magnitude
import Bitpack.Scalar.Cast

/-!
Integers as doubles and singles. An integer of 64 bits becomes a single directly or by way of a
double, and the two ways part where the double lies between two singles in the wrong place.
-/
namespace Bitpack.Scalar

open FloatFormat (fitted halveEven Skewed)

/-- The nearest double of an integer lies in the middle between two singles, and the even one of these
is farther from the integer than the other one. -/
def RoundsTwice (n : Int) : Prop :=
  match doubleOfInt n with
  | .finite _ m e => 0 < e ∧ 2 * (m % 2 ^ 29) = 2 ^ 29 ∧
    if m / 2 ^ 29 % 2 = 0 then m * 2 ^ e.toNat < n.natAbs else n.natAbs < m * 2 ^ e.toNat
  | _ => False

theorem roundsTwice_iff {n : Int} {negative : Bool} {m : Nat} {e : Int}
    (hdouble : doubleOfInt n = .finite negative m e) :
    RoundsTwice n ↔ 0 < e ∧ 2 * (m % 2 ^ 29) = 2 ^ 29 ∧
      if m / 2 ^ 29 % 2 = 0 then m * 2 ^ e.toNat < n.natAbs else n.natAbs < m * 2 ^ e.toNat := by
  rw [RoundsTwice, hdouble]

section

variable {n : Int} (hn : n.natAbs ≠ 0) (hlog : n.natAbs.log2 ≤ 63)

include hn hlog

theorem doubleOfInt_of_fitted_lt (hfitted : fitted .double n.natAbs < 2 ^ 53) :
    doubleOfInt n = .finite (decide (n < 0)) (fitted .double n.natAbs) (n.natAbs.log2 - 52) := by
  have hnearest := FloatFormat.nearest_of_fitted_lt .double (k := n.natAbs.log2 + 1022)
    (e := 0) (decide (n < 0)) hn
  simp only [FloatFormat.fractionBits, FloatFormat.minExponent, FloatFormat.exponentBits] at hnearest
  rw [Int.zero_add] at hnearest
  exact hnearest (by omega) (by omega) hfitted

theorem doubleOfInt_of_carry (hfitted : fitted .double n.natAbs = 2 ^ 53) :
    doubleOfInt n = .finite (decide (n < 0)) (2 ^ 52) (n.natAbs.log2 - 52 + 1) := by
  have hnearest := FloatFormat.nearest_of_carry .double (k := n.natAbs.log2 + 1022)
    (e := 0) (decide (n < 0)) hn
  simp only [FloatFormat.fractionBits, FloatFormat.minExponent, FloatFormat.exponentBits] at hnearest
  rw [Int.zero_add] at hnearest
  exact hnearest (by omega) (by omega) hfitted

end

theorem single_magnitude {m k : Nat} {e : Int} (hm : m ≠ 0) (hlast : e + m.log2 = k)
    (hsmall : k ≤ 64) :
    FloatFormat.single.magnitude m e = (k + 126) * 2 ^ 23 + fitted .single m := by
  have hcode := FloatFormat.magnitude_eq .single (k := k + 126) (e := e) hm
  simp only [FloatFormat.fractionBits, FloatFormat.minExponent, FloatFormat.exponentBits] at hcode
  exact hcode (by omega) (by omega)

theorem single_signed_inj {negative : Bool} {m m' k : Nat} (hm : m ≠ 0) (hm' : m' ≠ 0)
    (hsmall : k ≤ 64) :
    FloatFormat.single.signed negative ((k + 126) * 2 ^ 23 + fitted .single m) =
        FloatFormat.single.signed negative ((k + 126) * 2 ^ 23 + fitted .single m') ↔
      fitted .single m = fitted .single m' := by
  have hfield : k + 126 + 3 ≤ 2 ^ FloatFormat.exponentBits .single := by
    simp only [FloatFormat.exponentBits]
    omega
  rw [← Nat.add_left_cancel_iff (n := (k + 126) * 2 ^ 23)]
  exact FloatFormat.signed_inj
    (FloatFormat.code_lt (FloatFormat.fitted_bounds .single hm).2 hfield)
    (FloatFormat.code_lt (FloatFormat.fitted_bounds .single hm').2 hfield)

theorem fitted_single_of_bounds {u : Nat} (hlow : 2 ^ 52 ≤ u) (hhigh : u < 2 ^ 53) :
    u.log2 = 52 ∧ fitted .single u = halveEven u 29 := by
  have hlog : u.log2 = 52 := (Nat.log2_eq_iff (by omega)).mpr ⟨hlow, hhigh⟩
  refine ⟨hlog, ?_⟩
  simp [fitted, hlog, FloatFormat.fractionBits]

theorem fitted_of_lt_log2 {m : Nat} (hlong : 52 < m.log2) :
    fitted .double m = halveEven m (m.log2 - 52) ∧
      fitted .single m = halveEven m (m.log2 - 52 + 29) := by
  constructor
  · exact if_neg (Nat.not_le_of_lt hlong)
  · rw [show m.log2 - 52 + 29 = m.log2 - 23 by omega]
    exact if_neg (show ¬m.log2 ≤ 23 by omega)

theorem fitted_single_fitted_double_iff {m : Nat} (hm : m ≠ 0)
    (hfitted : fitted .double m < 2 ^ 53) :
    fitted .single (fitted .double m) = fitted .single m ↔
      ¬(52 < m.log2 ∧ Skewed m (m.log2 - 52) 29) := by
  by_cases hlong : 52 < m.log2
  · obtain ⟨hdouble, hsingle⟩ := fitted_of_lt_log2 hlong
    rw [(fitted_single_of_bounds (FloatFormat.fitted_bounds .double hm).1 hfitted).2, hdouble, hsingle,
      FloatFormat.halveEven_halveEven_iff (by decide)]
    simp [hlong]
  · have hexact : fitted .double m = m * 2 ^ (52 - m.log2) := if_pos (Nat.le_of_not_lt hlong)
    rw [hexact, FloatFormat.fitted_mul_two_pow .single hm]
    simp [hlong]

theorem fitted_single_of_carry {m : Nat} (hcarry : fitted .double m = 2 ^ 53) :
    fitted .single m = 2 ^ 24 := by
  have hlong : 52 < m.log2 := by
    by_contra hshort
    have hexact : fitted .double m = m * 2 ^ (52 - m.log2) := if_pos (Nat.le_of_not_lt hshort)
    have hlt := Nat.mul_lt_mul_of_pos_right (Nat.lt_log2_self (n := m))
      (Nat.two_pow_pos (52 - m.log2))
    rw [← hexact, hcarry, ← Nat.pow_add, show m.log2 + 1 + (52 - m.log2) = 53 by omega] at hlt
    exact Nat.lt_irrefl _ hlt
  obtain ⟨hdouble, hsingle⟩ := fitted_of_lt_log2 hlong
  rw [hdouble] at hcarry
  rw [hsingle, ← FloatFormat.halveEven_halveEven_of_ne (by decide) (by rw [hcarry]; decide), hcarry]
  decide

theorem single_round_doubleOfInt_iff {n : Int} (hsize : n.natAbs < 2 ^ 64) :
    FloatFormat.single.round (doubleOfInt n) = FloatFormat.single.round (.ofInt n) ↔
      ¬RoundsTwice n := by
  rcases Nat.eq_zero_or_pos n.natAbs with hzero | hpos
  · cases Int.natAbs_eq_zero.mp hzero
    have hdouble : doubleOfInt 0 = .finite false 0 (-1074) := by decide
    rw [roundsTwice_iff hdouble, hdouble]
    exact iff_of_true (by decide) (by omega)
  · have hn : n.natAbs ≠ 0 := hpos.ne'
    have hlog : n.natAbs.log2 ≤ 63 := Nat.le_of_lt_succ ((Nat.log2_lt hn).mpr hsize)
    have hdirect : FloatFormat.single.round (.ofInt n) = FloatFormat.single.signed (decide (n < 0))
        ((n.natAbs.log2 + 126) * 2 ^ 23 + fitted .single n.natAbs) := by
      unfold FloatValue.ofInt FloatFormat.round
      dsimp only
      rw [single_magnitude hn (Int.zero_add _) (by omega)]
    obtain ⟨hlow, hhigh⟩ := FloatFormat.fitted_bounds .double hn
    rw [hdirect]
    -- The double has the exponent of the integer, or the next one, and then it is a power of two and
    -- nowhere near a middle.
    rcases Nat.lt_or_eq_of_le hhigh with hfitted | hcarry
    · have hdouble := doubleOfInt_of_fitted_lt hn hlog hfitted
      have hlast := (fitted_single_of_bounds hlow hfitted).1
      have hu : fitted .double n.natAbs ≠ 0 := (Nat.lt_of_lt_of_le (by decide) hlow).ne'
      rw [roundsTwice_iff hdouble, hdouble]
      unfold FloatFormat.round
      dsimp only
      rw [single_magnitude (k := n.natAbs.log2) hu (by omega) (by omega),
        single_signed_inj hu hn (by omega), fitted_single_fitted_double_iff hn hfitted]
      have hexponent : 0 < (n.natAbs.log2 : Int) - 52 ↔ 52 < n.natAbs.log2 := by omega
      have hshift : ((n.natAbs.log2 : Int) - 52).toNat = n.natAbs.log2 - 52 := by omega
      rw [hexponent, hshift]
      refine not_congr (and_congr_right fun hlong => ?_)
      rw [(fitted_of_lt_log2 hlong).1, Skewed]
    · have hdouble := doubleOfInt_of_carry hn hlog hcarry
      have hexponent : (n.natAbs.log2 : Int) - 52 + 1 + ((2 ^ 52 : Nat).log2 : Nat) =
          (n.natAbs.log2 + 1 : Nat) := by
        rw [Nat.log2_two_pow]
        omega
      have hsingle : fitted .single (2 ^ 52) = 2 ^ 23 := by decide
      rw [roundsTwice_iff hdouble, hdouble]
      unfold FloatFormat.round
      dsimp only
      rw [single_magnitude (k := n.natAbs.log2 + 1) (by decide) hexponent (by omega),
        fitted_single_of_carry hcarry, hsingle]
      refine iff_of_true (congrArg _ (by omega)) fun hmiddle => absurd hmiddle.2.1 (by decide)

end Bitpack.Scalar
