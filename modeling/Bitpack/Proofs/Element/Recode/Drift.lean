import Bitpack.Proofs.Element.Recode.FixedInteger
import Bitpack.Proofs.Element.Recode.Unsigned

/-!
Which scalars settle. After one time in a slot nothing changes any more, save for the floats that were
rounded out of an unsigned slot and for the halves that lost the last place of a fixed-point number;
those are zero the next time.
-/
namespace Bitpack.ElementType

variable [Platform] {d : Dtype}

/-- What a scalar leaves in a slot changes once more when it goes back. -/
def Drifts (e : ElementType) (x : Scalar d) : Prop :=
  match d, e with
  | .float format, uint width =>
      RoundsPast format width.bits ((uint width).encode (d := .float format) x).toNat
  | .float format, fixed width intBits le =>
      Vanishes format width.bits (width.bits - intBits)
        ((fixed width intBits le).encode (d := .float format) x).toNat
  | _, _ => False

theorem not_drifts_of_integer (e : ElementType) (hd : d.isFloat = false) (x : Scalar d) :
    ¬e.Drifts x := by
  cases d with
  | int size => cases e <;> exact id
  | uint size => cases e <;> exact id
  | float format => cases hd

instance (e : ElementType) (x : Scalar d) : Decidable (e.Drifts x) :=
  match d, e with
  | .int _, e => .isFalse (e.not_drifts_of_integer rfl x)
  | .uint _, e => .isFalse (e.not_drifts_of_integer rfl x)
  | .float _, uint _ => inferInstanceAs (Decidable (RoundsPast _ _ _))
  | .float _, fixed _ _ _ => inferInstanceAs (Decidable (Vanishes _ _ _ _))
  | .float _, int _ => .isFalse id
  | .float _, bipolar => .isFalse id
  | .float _, float32 => .isFalse id
  | .float _, float16 => .isFalse id

section

variable [LawfulPlatform]

theorem recode_of_integer (e : ElementType) (hd : d.isFloat = false) (x : Scalar d) :
    e.recode (e.recode x) = e.recode x := by
  cases e with
  | int width => exact recode_integer rfl hd x
  | uint width => exact recode_integer rfl hd x
  | bipolar => exact recode_bipolar x
  | fixed width intBits le => exact recode_fixed_integer hd x
  | float32 => exact recode_integer_of_format rfl hd x
  | float16 => exact recode_integer_of_format rfl hd x

theorem recode_of_not_drifts {e : ElementType} {x : Scalar d} (hx : x.toDouble ≠ .nan)
    (hdrift : ¬e.Drifts x) : e.recode (e.recode x) = e.recode x := by
  cases d with
  | int size => exact recode_of_integer e rfl x
  | uint size => exact recode_of_integer e rfl x
  | float format =>
      cases e with
      | int width => exact recode_int_float width x hx
      | uint width => exact recode_uint_of_not_roundsPast width x hdrift
      | bipolar => exact recode_bipolar x
      | fixed width intBits le => exact recode_fixed_of_not_vanishes x hx hdrift
      | float32 => exact recode_float_of_format rfl x hx
      | float16 => exact recode_float_of_format rfl x hx

theorem recode_of_drifts {e : ElementType} {x : Scalar d} (hdrift : e.Drifts x) :
    ((e.recode x).toDouble.Same (.ofInt (2 ^ e.bits : Nat)) ∨
        (e.recode x).toDouble.Same (.finite true 0 0)) ∧
      e.recode (e.recode x) = 0 := by
  cases d with
  | int size => exact absurd hdrift (not_drifts_of_integer e rfl x)
  | uint size => exact absurd hdrift (not_drifts_of_integer e rfl x)
  | float format =>
      cases e with
      | uint width =>
          obtain ⟨hsame, hzero⟩ := recode_uint_of_roundsPast width x hdrift
          exact ⟨.inl hsame, hzero⟩
      | fixed width intBits le =>
          obtain ⟨hminus, hzero⟩ := recode_fixed_of_vanishes hdrift
          have hvalue : (format.value (format.signed true 0)).Same (.finite true 0 0) := by
            cases format <;> exact FloatValue.same_zero true _ 0
          exact ⟨.inr (hminus ▸ hvalue), hzero⟩
      | int width => exact hdrift.elim
      | bipolar => exact hdrift.elim
      | float32 => exact hdrift.elim
      | float16 => exact hdrift.elim

theorem recode_ne_zero_of_drifts {e : ElementType} {x : Scalar d} (hdrift : e.Drifts x) :
    e.recode x ≠ 0 := by
  cases d with
  | int size => exact absurd hdrift (not_drifts_of_integer e rfl x)
  | uint size => exact absurd hdrift (not_drifts_of_integer e rfl x)
  | float format =>
      intro hzero
      have hvalue : (format.value 0).Same (.finite false 0 0) := by
        cases format <;> exact FloatValue.same_zero false _ 0
      obtain ⟨hsame | hsame, -⟩ := recode_of_drifts hdrift
      · rw [hzero, FloatValue.ofInt_natCast] at hsame
        cases hvalue.symm.trans hsame with
        | finite _ j k hm he =>
            have hpos := Nat.mul_pos (Nat.two_pow_pos e.bits) (Nat.two_pow_pos k)
            omega
      · rw [hzero] at hsame
        cases hvalue.symm.trans hsame

theorem recode_recode_iff {e : ElementType} {x : Scalar d} (hx : x.toDouble ≠ .nan) :
    e.recode (e.recode x) = e.recode x ↔ ¬e.Drifts x := by
  refine ⟨fun hsettled hdrift => ?_, recode_of_not_drifts hx⟩
  rw [(recode_of_drifts hdrift).2] at hsettled
  exact recode_ne_zero_of_drifts hdrift hsettled.symm

end

end Bitpack.ElementType
