import Bitpack.Proofs.FloatFormat.Magnitude

/-!
Values that stand for one number. A significand can be shifted against its exponent, and what is
computed from the number does not depend on where it stands.
-/
namespace Bitpack.FloatValue

/-- Two forms of one value; zeros differ by their sign. -/
inductive Same : FloatValue → FloatValue → Prop
  | nan : Same .nan .nan
  | infinite (negative : Bool) : Same (.infinite negative) (.infinite negative)
  | finite (negative : Bool) {m m' : Nat} {e e' : Int} (j k : Nat) (hm : m * 2 ^ j = m' * 2 ^ k)
      (he : e + k = e' + j) : Same (.finite negative m e) (.finite negative m' e')

theorem Same.refl : (v : FloatValue) → Same v v
  | .nan => .nan
  | .infinite negative => .infinite negative
  | .finite negative _ _ => .finite negative 0 0 rfl rfl

theorem Same.symm {v v' : FloatValue} : Same v v' → Same v' v
  | .nan => .nan
  | .infinite negative => .infinite negative
  | .finite negative j k hm he => .finite negative k j hm.symm he.symm

theorem Same.trans {v v' v'' : FloatValue} (hv : Same v v') (hv' : Same v' v'') : Same v v'' := by
  cases hv with
  | nan => exact hv'
  | infinite negative => exact hv'
  | @finite negative m m' e e' j k hm he =>
      cases hv' with
      | @finite _ _ m'' _ e'' j' k' hm' he' =>
          refine .finite negative (j + j') (k + k') ?_ (by omega)
          calc
            m * 2 ^ (j + j') = m' * 2 ^ k * 2 ^ j' := by rw [Nat.pow_add, ← Nat.mul_assoc, hm]
            _ = m' * 2 ^ j' * 2 ^ k := Nat.mul_right_comm ..
            _ = m'' * 2 ^ (k + k') := by
              rw [hm', Nat.mul_assoc, ← Nat.pow_add, Nat.add_comm k']

theorem same_shift (negative : Bool) (m k : Nat) (e : Int) :
    Same (.finite negative (m * 2 ^ k) e) (.finite negative m (e + k)) :=
  .finite negative 0 k (Nat.mul_one _) (Int.add_zero _).symm

theorem same_zero (negative : Bool) (e e' : Int) :
    Same (.finite negative 0 e) (.finite negative 0 e') := by
  refine .finite negative (e - e').toNat (e' - e).toNat ?_ (by omega)
  rw [Nat.zero_mul, Nat.zero_mul]

theorem eq_of_shift {α : Type} (f : Nat → Int → α)
    (hf : ∀ m k e, f (m * 2 ^ k) e = f m (e + (k : Nat))) {m m' j k : Nat} {e e' : Int}
    (hm : m * 2 ^ j = m' * 2 ^ k) (he : e + k = e' + j) : f m e = f m' e' := by
  have hleft := hf m j (e - j)
  have hright := hf m' k (e' - k)
  rw [Int.sub_add_cancel] at hleft hright
  rw [← hleft, ← hright, hm, show e - j = e' - k by omega]

theorem Same.scale {v v' : FloatValue} (hv : Same v v') (n : Int) :
    Same (v.scale n) (v'.scale n) := by
  cases hv with
  | nan => exact .nan
  | infinite negative => exact .infinite negative
  | finite negative j k hm he => exact .finite negative j k hm (by omega)

theorem scale_scale (v : FloatValue) (j k : Int) : (v.scale j).scale k = v.scale (j + k) := by
  cases v with
  | nan => rfl
  | infinite negative => rfl
  | finite negative m e => exact congrArg (finite negative m) (Int.add_assoc e j k)

theorem scale_zero (v : FloatValue) : v.scale 0 = v := by
  cases v with
  | nan => rfl
  | infinite negative => rfl
  | finite negative m e => exact congrArg (finite negative m) (Int.add_zero e)

theorem scale_ofInt (n k : Int) : (ofInt n).scale k = .finite (decide (n < 0)) n.natAbs k :=
  congrArg (finite _ _) (Int.zero_add k)

theorem Same.isNonneg_eq {v v' : FloatValue} (hv : Same v v') : v.isNonneg = v'.isNonneg := by
  cases hv with
  | nan => rfl
  | infinite negative => rfl
  | finite negative j k hm he =>
      have hzero : ∀ (m k : Nat) (e : Int), (m * 2 ^ k == 0) = (m == 0) := by
        intro m k _
        rw [Bool.eq_iff_iff, beq_iff_eq, beq_iff_eq, Nat.mul_eq_zero,
          or_iff_left (Nat.two_pow_pos k).ne']
      exact congrArg (!negative || ·) (eq_of_shift (fun m _ => m == 0) hzero hm he)

/-- A division that cuts off: a common factor does not count, and nothing is added. -/
structure CutsOff (cut : Int → Int → Int) : Prop where
  cancel : ∀ n b c, 0 < c → cut (n * c) (b * c) = cut n b
  one : ∀ n, cut n 1 = n
  natAbs_le : ∀ n b, (cut n b).natAbs ≤ n.natAbs

theorem cutsOff_tdiv : CutsOff Int.tdiv where
  cancel n b _ hc := Int.mul_tdiv_mul_of_pos_left n b hc
  one := Int.tdiv_one
  natAbs_le := Int.natAbs_tdiv_le_natAbs

theorem cutsOff_fdiv : CutsOff Int.fdiv where
  cancel n b _ hc := Int.mul_fdiv_mul_of_pos_left n b hc
  one := Int.fdiv_one
  natAbs_le := Int.natAbs_fdiv_le_natAbs

theorem signedSignificand_mul (negative : Bool) (m n : Nat) :
    signedSignificand negative (m * n) = signedSignificand negative m * n := by
  cases negative with
  | false => exact Int.natCast_mul m n
  | true => exact (congrArg Neg.neg (Int.natCast_mul m n)).trans (Int.neg_mul ..).symm

theorem integerPart_mul_two_pow {cut : Int → Int → Int} (hcut : CutsOff cut) (n : Int) (k : Nat)
    (e : Int) :
    integerPart cut (n * 2 ^ k) e = integerPart cut n (e + k) := by
  have hpos : ∀ k : Nat, (0 : Int) < 2 ^ k := fun k => Int.pow_pos (by decide)
  unfold integerPart
  split
  · rename_i he
    rw [if_pos (by omega), Int.mul_assoc, ← Int.pow_add]
    congr 2
    omega
  · rename_i he
    split
    · rename_i hsum
      -- The number is an integer, and the division takes away no more than the shift.
      have hsplit : k = (e + k).toNat + (-e).toNat := by omega
      have hcancel := hcut.cancel (n * 2 ^ (e + k).toNat) 1 (2 ^ (-e).toNat) (hpos _)
      rw [Int.one_mul, hcut.one, Int.mul_assoc, ← Int.pow_add, ← hsplit] at hcancel
      exact hcancel
    · rename_i hsum
      rw [show (-e).toNat = (-(e + k)).toNat + k by omega, Int.pow_add]
      exact hcut.cancel n _ _ (hpos k)

theorem Same.integerPart_eq {negative negative' : Bool} {m m' : Nat} {e e' : Int}
    (hv : Same (.finite negative m e) (.finite negative' m' e')) {cut : Int → Int → Int}
    (hcut : CutsOff cut) :
    integerPart cut (signedSignificand negative m) e =
      integerPart cut (signedSignificand negative' m') e' := by
  cases hv with
  | finite _ j k hm he =>
      refine eq_of_shift (fun m e => integerPart cut (signedSignificand negative m) e) ?_ hm he
      intro m k e
      rw [signedSignificand_mul, ← integerPart_mul_two_pow hcut]
      push_cast
      rfl

theorem Same.toInt_eq {v v' : FloatValue} (hv : Same v v') {cut : Int → Int → Int}
    (hcut : CutsOff cut) (lo hi : Int) : v.toInt cut lo hi = v'.toInt cut lo hi := by
  cases hv with
  | nan => rfl
  | infinite negative => rfl
  | finite negative j k hm he =>
      exact congrArg (fun z => max lo (min hi z)) (integerPart_eq (.finite negative j k hm he) hcut)

theorem Same.truncate_eq {v v' : FloatValue} (hv : Same v v') (lo hi : Int) :
    v.truncate lo hi = v'.truncate lo hi :=
  hv.toInt_eq cutsOff_tdiv lo hi

theorem Same.floor_eq {v v' : FloatValue} (hv : Same v v') (lo hi : Int) :
    v.floor lo hi = v'.floor lo hi :=
  hv.toInt_eq cutsOff_fdiv lo hi

theorem toInt_scale_cases {v : FloatValue} (hv : v ≠ .nan) (cut : Int → Int → Int) (lo hi k : Int) :
    (v.scale k).toInt cut lo hi = lo ∨ (v.scale k).toInt cut lo hi = hi ∨
      ∃ negative m e, v = .finite negative m e ∧
        (v.scale k).toInt cut lo hi = integerPart cut (signedSignificand negative m) (e + k) := by
  cases v with
  | nan => exact absurd rfl hv
  | infinite negative =>
      cases negative with
      | false => exact .inr (.inl rfl)
      | true => exact .inl rfl
  | finite negative m e =>
      have hclamped : ∀ z : Int, max lo (min hi z) = lo ∨ max lo (min hi z) = hi ∨
          max lo (min hi z) = z := by omega
      rcases hclamped (integerPart cut (signedSignificand negative m) (e + k)) with
        hlow | hhigh | hpart
      · exact .inl hlow
      · exact .inr (.inl hhigh)
      · exact .inr (.inr ⟨negative, m, e, rfl, hpart⟩)

theorem integerPart_ofInt (cut : Int → Int → Int) (n : Int) (k : Nat) :
    integerPart cut (signedSignificand (decide (n < 0)) n.natAbs) k = n * 2 ^ k := by
  have hsigned : signedSignificand (decide (n < 0)) n.natAbs = n := by
    unfold signedSignificand
    split <;> rename_i hn <;> simp only [decide_eq_true_eq] at hn <;> omega
  rw [integerPart, hsigned, if_pos (Int.natCast_nonneg k), Int.toNat_natCast]

theorem toInt_ofInt (cut : Int → Int → Int) (lo hi n : Int) :
    (ofInt n).toInt cut lo hi = max lo (min hi n) := by
  have hpart := integerPart_ofInt cut n 0
  rw [Int.pow_zero, Int.mul_one] at hpart
  exact congrArg (fun z => max lo (min hi z)) hpart

theorem Same.round_eq {v v' : FloatValue} (hv : Same v v') (format : FloatFormat) :
    format.round v = format.round v' := by
  cases hv with
  | nan => rfl
  | infinite negative => rfl
  | finite negative j k hm he =>
      exact congrArg (format.signed negative)
        (eq_of_shift format.magnitude format.magnitude_mul_two_pow hm he)

end Bitpack.FloatValue
