import Bitpack.Proofs.Element.Recode.Basic
import Mathlib.Data.Int.ModEq
import Mathlib.Tactic.Positivity

/-!
Integer elements of integer scalars as arithmetic. A slot of `b` bits keeps the number of a scalar
modulo `2^b` and stands for one of its own numbers; the scalar that is read from it is congruent to
that one modulo the size of its type.
-/
namespace Bitpack

theorem ofInt_eq_ofInt_iff {w : Nat} (m n : Int) :
    BitVec.ofInt w m = BitVec.ofInt w n ↔ m ≡ n [ZMOD 2 ^ w] := by
  have hpos : ((2 ^ w : Nat) : Int) ≠ 0 := Int.natCast_ne_zero.mpr (Nat.two_pow_pos w).ne'
  rw [← BitVec.toNat_inj, BitVec.toNat_ofInt, BitVec.toNat_ofInt, ← Int.natCast_inj,
    Int.toNat_of_nonneg (Int.emod_nonneg m hpos), Int.toNat_of_nonneg (Int.emod_nonneg n hpos)]
  push_cast
  rfl

namespace Scalar

variable {d : Dtype}

theorem ofInt_whole (hd : d.isFloat = false) (x : Scalar d) : BitVec.ofInt d.width x.whole = x := by
  cases d with
  | int size => exact BitVec.ofInt_toInt
  | uint size =>
      rw [whole, BitVec.ofInt_natCast, BitVec.ofNat_toNat, BitVec.setWidth_eq]
  | float format => cases hd

theorem eq_ofInt_iff (hd : d.isFloat = false) {x : Scalar d} (n : Int) :
    BitVec.ofInt d.width n = x ↔ x.whole ≡ n [ZMOD 2 ^ d.width] := by
  rw [Int.modEq_comm, ← ofInt_eq_ofInt_iff, ofInt_whole hd]

theorem toSigned_eq_ofInt (hd : d.isFloat = false) (x : Scalar d) :
    x.toSigned = BitVec.ofInt 64 x.whole := by
  cases d with
  | int size => rfl
  | uint size =>
      rw [whole, BitVec.ofInt_natCast, BitVec.ofNat_toNat]
      rfl
  | float format => cases hd

end Scalar

namespace ElementType

variable {d : Dtype} {e : ElementType}

/-- Whether an integer is one of those that a slot of an integer type stands for. -/
def Holds (e : ElementType) (n : Int) : Prop :=
  if e.isSigned then -2 ^ (e.bits - 1) ≤ n ∧ n < 2 ^ (e.bits - 1) else 0 ≤ n ∧ n < 2 ^ e.bits

instance (e : ElementType) (n : Int) : Decidable (e.Holds n) :=
  inferInstanceAs (Decidable (ite _ _ _))

/-- The integer of a slot that is congruent to a given one. -/
def remainder (e : ElementType) (n : Int) : Int :=
  if e.isSigned then n.bmod (2 ^ e.bits) else n % 2 ^ e.bits

theorem remainder_modEq (e : ElementType) (n : Int) : e.remainder n ≡ n [ZMOD 2 ^ e.bits] := by
  unfold remainder
  split
  · exact_mod_cast Int.bmod_emod
  · exact Int.mod_modEq n _

theorem two_pow_bits (e : ElementType) : (2 : Int) ^ e.bits = 2 * 2 ^ (e.bits - 1) := by
  rw [← pow_succ', Nat.sub_add_cancel e.bits_pos]

theorem holds_remainder (e : ElementType) (n : Int) : e.Holds (e.remainder n) := by
  have hhalf := e.two_pow_bits
  unfold Holds remainder
  split
  · have hlow := Int.le_bmod (x := n) (Nat.two_pow_pos e.bits)
    have hhigh := Int.bmod_lt (x := n) (Nat.two_pow_pos e.bits)
    push_cast at hlow hhigh
    omega
  · exact ⟨Int.emod_nonneg n (by positivity), Int.emod_lt_of_pos n (by positivity)⟩

theorem eq_of_holds {m n : Int} (hm : e.Holds m) (hn : e.Holds n) (hmod : m ≡ n [ZMOD 2 ^ e.bits]) :
    m = n := by
  have hhalf := e.two_pow_bits
  have hless : |m - n| < 2 ^ e.bits := by
    rw [abs_lt]
    unfold Holds at hm hn
    split at hm
    · rw [if_pos ‹_›] at hn
      omega
    · rw [if_neg ‹_›] at hn
      omega
  have hzero := Int.eq_zero_of_abs_lt_dvd hmod.symm.dvd hless
  omega

theorem remainder_eq_iff {m n : Int} :
    e.remainder n = m ↔ e.Holds m ∧ m ≡ n [ZMOD 2 ^ e.bits] := by
  constructor
  · rintro rfl
    exact ⟨e.holds_remainder n, e.remainder_modEq n⟩
  · rintro ⟨hholds, hmod⟩
    exact eq_of_holds (e.holds_remainder n) hholds ((e.remainder_modEq n).trans hmod.symm)

section

variable [Platform]

theorem encode_integer (he : e.kind = .integer) (hd : d.isFloat = false) (x : Scalar d) :
    e.encode x = BitVec.ofInt 64 x.whole &&& Slot.mask e.bits := by
  rw [← Scalar.toSigned_eq_ofInt hd, ← wholeBits_eq_toSigned e hd]
  cases e <;> first | rfl | cases he

theorem toNat_encode_integer (he : e.kind = .integer) (hd : d.isFloat = false) (x : Scalar d) :
    ((e.encode x).toNat : Int) = x.whole % 2 ^ e.bits := by
  rw [encode_integer he hd, Slot.toNat_ofInt_and_mask _ e.bits_le]

theorem recode_eq_ofInt (he : e.kind = .integer) (hd : d.isFloat = false) (x : Scalar d) :
    e.recode x = BitVec.ofInt d.width (e.remainder x.whole) := by
  rw [recode_eq]
  cases e with
  | int width =>
      rw [encode_integer he hd]
      refine (Scalar.ofSigned_eq_ofInt hd _).trans (congrArg (BitVec.ofInt d.width) ?_)
      exact Slot.toInt_signExtend_ofInt _ width.pos width.le
  | uint width =>
      have hremainder : (uint width).remainder x.whole = ((uint width).encode x).toNat :=
        (toNat_encode_integer he hd x).symm
      rw [hremainder, BitVec.ofInt_natCast, BitVec.ofNat_toNat, ofSlot,
        Scalar.ofUnsigned_eq_ofSigned hd, Scalar.ofSigned_eq_ofInt hd,
        ← setWidth_ofInt (Scalar.width_le d), BitVec.ofInt_toInt]
  | bipolar => cases he
  | fixed width intBits le => cases he
  | float32 => cases he
  | float16 => cases he

end

end ElementType

/-- The codec of integers is modular arithmetic, for every pair of an integer scalar and an integer
element. The slot of a scalar is its number modulo `2^b`. The slot stands for the one number that is
congruent to it and in the range of the element, and the scalar that is read is congruent to that
number; it is the scalar itself if the range or the slot is wide enough. Where the scalar is at least
as wide as the slot, it carries all the bits of one. -/
theorem ElementType.integer_codec_modular [Platform] {e : ElementType} (he : e.kind = .integer)
    {d : Dtype} (hd : d.isFloat = false) (x : Scalar d) :
    (∀ n : Nat, (e.encode x).toNat = n ↔ n < 2 ^ e.bits ∧ n ≡ x.whole [ZMOD 2 ^ e.bits]) ∧
      (∃! r : Int, e.Holds r ∧ r ≡ x.whole [ZMOD 2 ^ e.bits]) ∧
      (∀ r : Int, e.Holds r → r ≡ x.whole [ZMOD 2 ^ e.bits] → ∀ y : Scalar d,
        e.decode d (e.encode x) = y ↔ y.whole ≡ r [ZMOD 2 ^ d.width]) ∧
      (e.Holds x.whole ∨ d.width ≤ e.bits → e.decode d (e.encode x) = x) ∧
      (e.bits ≤ d.width → ∀ raw : BitVec 64,
        (e.encode (e.decode d raw)).toNat = raw.toNat % 2 ^ e.bits) := by
  have hencode := toNat_encode_integer he hd x
  have hlt := e.toNat_encode_lt x
  refine ⟨fun n => ⟨?_, ?_⟩, ?_, ?_, ?_, ?_⟩
  · rintro rfl
    exact ⟨hlt, hencode ▸ Int.mod_modEq _ _⟩
  · rintro ⟨hn, hmod⟩
    have hmod' : (n : Int) % 2 ^ e.bits = x.whole % 2 ^ e.bits := hmod
    rw [← hencode, Int.emod_eq_of_lt (Int.natCast_nonneg n) (by exact_mod_cast hn)] at hmod'
    exact (Int.natCast_inj.mp hmod').symm
  · exact ⟨e.remainder x.whole, remainder_eq_iff.mp rfl, fun r hr => (remainder_eq_iff.mpr hr).symm⟩
  · intro r hholds hmod y
    rw [← remainder_eq_iff.mpr ⟨hholds, hmod⟩, ← Scalar.eq_ofInt_iff hd]
    exact Eq.congr_left (recode_eq_ofInt he hd x)
  · rintro (hholds | hwide)
    · refine (recode_eq_ofInt he hd x).trans ?_
      rw [remainder_eq_iff.mpr ⟨hholds, .refl _⟩]
      exact Scalar.ofInt_whole hd x
    · exact recode_integer_of_le he hd hwide x
  · intro hwidth raw
    rw [encode_decode he hd hwidth, and_mask_eq, BitVec.toNat_setWidth_of_le e.bits_le,
      BitVec.toNat_setWidth]

open scoped Platform.Release

theorem ElementType.integer_codec_modular_mixed :
    (int ⟨4, by decide, by decide⟩).kind = .integer ∧ (Dtype.uint .one).isFloat = false ∧
      ((int ⟨4, by decide, by decide⟩).encode (d := .uint .one) 47).toNat = 15 ∧
      (int ⟨4, by decide, by decide⟩).decode (.uint .one)
        ((int ⟨4, by decide, by decide⟩).encode (d := .uint .one) 47) = 255 ∧
      (int ⟨4, by decide, by decide⟩).decode (.uint .one)
        ((int ⟨4, by decide, by decide⟩).encode (d := .uint .one) 7) = 7 ∧
      ((int ⟨4, by decide, by decide⟩).encode
        ((int ⟨4, by decide, by decide⟩).decode (.uint .one) 0x19)).toNat = 9 := by
  obtain ⟨hslot, -, hback, -, hraw⟩ :=
    integer_codec_modular (e := int ⟨4, by decide, by decide⟩) rfl (d := .uint .one) rfl 47
  obtain ⟨-, -, -, hsame, -⟩ :=
    integer_codec_modular (e := int ⟨4, by decide, by decide⟩) rfl (d := .uint .one) rfl 7
  exact ⟨rfl, rfl, (hslot 15).mpr (by decide), (hback (-1) (by decide) (by decide) 255).mpr (by decide),
    hsame (.inl (by decide)), hraw (by decide) 0x19⟩

end Bitpack
