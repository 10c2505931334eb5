import Bitpack.Proofs.FloatFormat.Rounding

/-!
Patterns of finite numbers. Away from the ends of a format the pattern of a number is its exponent,
counted from the smallest one, in front of its significand, fitted to the bits of the format.
-/
namespace Bitpack.FloatFormat

variable {format : FloatFormat}

theorem width_eq (format : FloatFormat) :
    format.width = format.fractionBits + format.exponentBits + 1 := by
  cases format <;> rfl

theorem toNat_signed (negative : Bool) {code : Nat}
    (hcode : code < 2 ^ (format.fractionBits + format.exponentBits)) :
    (format.signed negative code).toNat =
      (if negative then 2 ^ (format.fractionBits + format.exponentBits) else 0) + code := by
  have hdouble := Nat.pow_succ' (m := 2) (n := format.fractionBits + format.exponentBits)
  unfold signed
  rw [BitVec.toNat_ofNat, width_eq, Nat.add_sub_cancel, Nat.mod_eq_of_lt]
  · cases negative <;> simp
  · split <;> omega

theorem toNat_signed_mod (negative : Bool) {code : Nat}
    (hcode : code < 2 ^ (format.fractionBits + format.exponentBits)) :
    (format.signed negative code).toNat % 2 ^ (format.width - 1) = code := by
  rw [toNat_signed negative hcode, width_eq, Nat.add_sub_cancel]
  cases negative <;> simp [Nat.mod_eq_of_lt hcode]

theorem msb_signed (negative : Bool) {code : Nat}
    (hcode : code < 2 ^ (format.fractionBits + format.exponentBits)) :
    (format.signed negative code).msb = negative := by
  rw [BitVec.msb_eq_decide, toNat_signed negative hcode, width_eq, Nat.add_sub_cancel]
  cases negative
  · simpa using hcode
  · simp

theorem signed_inj {negative : Bool} {code code' : Nat}
    (hcode : code < 2 ^ (format.fractionBits + format.exponentBits))
    (hcode' : code' < 2 ^ (format.fractionBits + format.exponentBits)) :
    format.signed negative code = format.signed negative code' ↔ code = code' := by
  rw [← BitVec.toNat_inj, toNat_signed negative hcode, toNat_signed negative hcode',
    Nat.add_left_cancel_iff]

/-- A number shifted until it has just the bits of a format; bits that get lost are rounded. -/
def fitted (format : FloatFormat) (m : Nat) : Nat :=
  if m.log2 ≤ format.fractionBits then m * 2 ^ (format.fractionBits - m.log2)
  else halveEven m (m.log2 - format.fractionBits)

theorem fitted_bounds (format : FloatFormat) {m : Nat} (hm : m ≠ 0) :
    2 ^ format.fractionBits ≤ format.fitted m ∧
      format.fitted m ≤ 2 ^ (format.fractionBits + 1) := by
  have hlow := Nat.log2_self_le hm
  have hhigh := Nat.lt_log2_self (n := m)
  unfold fitted
  split
  · rename_i hlog
    have hpos := Nat.two_pow_pos (format.fractionBits - m.log2)
    constructor
    · calc
        2 ^ format.fractionBits = 2 ^ m.log2 * 2 ^ (format.fractionBits - m.log2) := by
          rw [← Nat.pow_add, Nat.add_sub_cancel' hlog]
        _ ≤ m * 2 ^ (format.fractionBits - m.log2) := Nat.mul_le_mul_right _ hlow
    · calc
        m * 2 ^ (format.fractionBits - m.log2) ≤
            2 ^ (m.log2 + 1) * 2 ^ (format.fractionBits - m.log2) :=
          Nat.mul_le_mul_right _ (Nat.le_of_lt hhigh)
        _ = 2 ^ (format.fractionBits + 1) := by
          rw [← Nat.pow_add]
          congr 1
          omega
  · rename_i hlog
    have hsum : m.log2 = format.fractionBits + (m.log2 - format.fractionBits) := by omega
    have hquotient : 2 ^ format.fractionBits ≤ m / 2 ^ (m.log2 - format.fractionBits) := by
      rw [Nat.le_div_iff_mul_le (Nat.two_pow_pos _), ← Nat.pow_add, ← hsum]
      exact hlow
    have hquotient' : m / 2 ^ (m.log2 - format.fractionBits) < 2 ^ (format.fractionBits + 1) := by
      rw [Nat.div_lt_iff_lt_mul (Nat.two_pow_pos _), ← Nat.pow_add, Nat.add_right_comm, ← hsum]
      exact hhigh
    unfold halveEven
    dsimp only
    split <;> omega

theorem log2_mul_two_pow {m : Nat} (hm : m ≠ 0) (k : Nat) : (m * 2 ^ k).log2 = m.log2 + k := by
  have hpos := Nat.two_pow_pos k
  rw [Nat.log2_eq_iff (Nat.mul_ne_zero hm hpos.ne'), Nat.pow_add, Nat.add_right_comm, Nat.pow_add]
  exact ⟨Nat.mul_le_mul_right _ (Nat.log2_self_le hm),
    Nat.mul_lt_mul_of_pos_right Nat.lt_log2_self hpos⟩

theorem fitted_mul_two_pow (format : FloatFormat) {m : Nat} (hm : m ≠ 0) (k : Nat) :
    format.fitted (m * 2 ^ k) = format.fitted m := by
  unfold fitted
  rw [log2_mul_two_pow hm]
  split
  · rename_i hsum
    rw [if_pos (by omega), Nat.mul_assoc, ← Nat.pow_add]
    congr 2
    omega
  · rename_i hsum
    split
    · rename_i hlog
      have hexact := halveEven_exact (m * 2 ^ (format.fractionBits - m.log2))
        (m.log2 + k - format.fractionBits)
      rw [Nat.mul_assoc, ← Nat.pow_add,
        show format.fractionBits - m.log2 + (m.log2 + k - format.fractionBits) = k by omega] at hexact
      exact hexact
    · rw [show m.log2 + k - format.fractionBits = m.log2 - format.fractionBits + k by omega,
        halveEven_mul_two_pow]

/-- A significand has the same code however far it is shifted against its exponent. -/
theorem magnitude_mul_two_pow (format : FloatFormat) (m k : Nat) (e : Int) :
    format.magnitude (m * 2 ^ k) e = format.magnitude m (e + k) := by
  unfold magnitude
  dsimp only
  rcases Nat.eq_zero_or_pos m with rfl | hpos
  · rw [Nat.zero_mul]
    rfl
  · have hm : m ≠ 0 := hpos.ne'
    rw [if_neg (Nat.mul_ne_zero hm (Nat.two_pow_pos k).ne'), if_neg hm, log2_mul_two_pow hm,
      show e + (m.log2 + k : Nat) - format.fractionBits = e + k + m.log2 - format.fractionBits by
        omega]
    generalize max (e + k + m.log2 - format.fractionBits) format.minExponent = q
    -- The last place is the same, and the bits of the shift are cut off before any others.
    have hunits : (if q ≤ e then m * 2 ^ k * 2 ^ (e - q).toNat
          else halveEven (m * 2 ^ k) (q - e).toNat) =
        if q ≤ e + k then m * 2 ^ (e + k - q).toNat else halveEven m (q - (e + k)).toNat := by
      split
      · rw [if_pos (by omega), Nat.mul_assoc, ← Nat.pow_add]
        congr 2
        omega
      · split
        · have hexact := halveEven_exact (m * 2 ^ (e + k - q).toNat) (q - e).toNat
          rwa [Nat.mul_assoc, ← Nat.pow_add,
            show (e + k - q).toNat + (q - e).toNat = k by omega] at hexact
        · rw [show (q - e).toNat = (q - (e + k)).toNat + k by omega, halveEven_mul_two_pow]
    rw [hunits]

theorem code_le {u k : Nat} (hu : u ≤ 2 ^ (format.fractionBits + 1))
    (hfield : k + 3 ≤ 2 ^ format.exponentBits) :
    k * 2 ^ format.fractionBits + u ≤ format.infinityCode := by
  have hfields : (k + 2) * 2 ^ format.fractionBits ≤ format.infinityCode :=
    Nat.mul_le_mul_right _ (by omega)
  rw [Nat.add_mul, ← Nat.pow_succ'] at hfields
  omega

theorem magnitude_eq_min (format : FloatFormat) {m k : Nat} {e : Int} (hm : m ≠ 0)
    (hexponent : e + m.log2 - format.fractionBits = format.minExponent + k) :
    format.magnitude m e =
      min (k * 2 ^ format.fractionBits + format.fitted m) format.infinityCode := by
  unfold magnitude
  dsimp only
  rw [if_neg hm, hexponent, max_eq_left (by omega)]
  have hunits : (if format.minExponent + (k : Int) ≤ e then
        m * 2 ^ (e - (format.minExponent + k)).toNat
      else halveEven m (format.minExponent + k - e).toNat) = format.fitted m := by
    unfold fitted
    split
    · rw [if_pos (by omega)]
      congr 2
      omega
    · rw [if_neg (by omega)]
      congr 1
      omega
  rw [hunits, show (format.minExponent + k - format.minExponent).toNat = k by omega]

theorem magnitude_eq (format : FloatFormat) {m k : Nat} {e : Int} (hm : m ≠ 0)
    (hexponent : e + m.log2 - format.fractionBits = format.minExponent + k)
    (hfield : k + 3 ≤ 2 ^ format.exponentBits) :
    format.magnitude m e = k * 2 ^ format.fractionBits + format.fitted m := by
  rw [magnitude_eq_min format hm hexponent,
    min_eq_left (code_le (format.fitted_bounds hm).2 hfield)]

theorem code_lt {u k : Nat} (hu : u ≤ 2 ^ (format.fractionBits + 1))
    (hfield : k + 3 ≤ 2 ^ format.exponentBits) :
    k * 2 ^ format.fractionBits + u < 2 ^ (format.fractionBits + format.exponentBits) := by
  have hpos := Nat.two_pow_pos format.fractionBits
  have hfields : (k + 3) * 2 ^ format.fractionBits ≤
      2 ^ format.exponentBits * 2 ^ format.fractionBits := Nat.mul_le_mul_right _ hfield
  rw [Nat.add_mul] at hfields
  rw [Nat.pow_succ] at hu
  rw [Nat.add_comm format.fractionBits, Nat.pow_add]
  omega

theorem value_signed (negative : Bool) {u k : Nat} (hlow : k = 0 ∨ 2 ^ format.fractionBits ≤ u)
    (hhigh : u < 2 ^ (format.fractionBits + 1)) (hfield : k + 3 ≤ 2 ^ format.exponentBits) :
    format.value (format.signed negative (k * 2 ^ format.fractionBits + u)) =
      .finite negative u (format.minExponent + k) := by
  have hlt := code_lt (Nat.le_of_lt hhigh) hfield
  unfold value
  dsimp only
  rw [msb_signed negative hlt, toNat_signed_mod negative hlt]
  rcases Nat.lt_or_ge u (2 ^ format.fractionBits) with hsmall | hnormal
  · obtain rfl : k = 0 := hlow.resolve_right (Nat.not_le_of_lt hsmall)
    rw [Nat.zero_mul, Nat.zero_add, Nat.div_eq_of_lt hsmall, Nat.mod_eq_of_lt hsmall,
      if_neg (by omega), if_pos rfl, Nat.cast_zero, Int.add_zero]
  · obtain ⟨fraction, rfl⟩ := Nat.exists_eq_add_of_le hnormal
    have hfraction : fraction < 2 ^ format.fractionBits := by
      rw [Nat.pow_succ] at hhigh
      omega
    have hcode : k * 2 ^ format.fractionBits + (2 ^ format.fractionBits + fraction) =
        (k + 1) * 2 ^ format.fractionBits + fraction := by rw [Nat.add_one_mul, Nat.add_assoc]
    rw [hcode, Nat.mul_add_mod', Nat.mod_eq_of_lt hfraction, Nat.mul_comm,
      Nat.mul_add_div (Nat.two_pow_pos _), Nat.div_eq_of_lt hfraction, if_neg (by omega),
      if_neg (by omega), Nat.add_zero, Nat.add_sub_cancel]

theorem nearest_of_fitted_lt (format : FloatFormat) (negative : Bool) {m k : Nat} {e : Int}
    (hm : m ≠ 0)
    (hexponent : e + m.log2 - format.fractionBits = format.minExponent + k)
    (hfield : k + 3 ≤ 2 ^ format.exponentBits)
    (hfitted : format.fitted m < 2 ^ (format.fractionBits + 1)) :
    format.nearest (.finite negative m e) =
      .finite negative (format.fitted m) (e + m.log2 - format.fractionBits) := by
  unfold nearest round
  dsimp only
  rw [magnitude_eq format hm hexponent hfield,
    value_signed negative (.inr (format.fitted_bounds hm).1) hfitted hfield, hexponent]

theorem nearest_of_carry (format : FloatFormat) (negative : Bool) {m k : Nat} {e : Int}
    (hm : m ≠ 0)
    (hexponent : e + m.log2 - format.fractionBits = format.minExponent + k)
    (hfield : k + 4 ≤ 2 ^ format.exponentBits)
    (hfitted : format.fitted m = 2 ^ (format.fractionBits + 1)) :
    format.nearest (.finite negative m e) =
      .finite negative (2 ^ format.fractionBits) (e + m.log2 - format.fractionBits + 1) := by
  have hcode : k * 2 ^ format.fractionBits + 2 ^ (format.fractionBits + 1) =
      (k + 1) * 2 ^ format.fractionBits + 2 ^ format.fractionBits := by ring
  unfold nearest round
  dsimp only
  rw [magnitude_eq format hm hexponent (by omega), hfitted, hcode,
    value_signed negative (.inr (Nat.le_refl _)) (Nat.pow_lt_pow_succ (by decide)) (by omega), hexponent,
    Nat.cast_succ, Int.add_assoc]

end Bitpack.FloatFormat
