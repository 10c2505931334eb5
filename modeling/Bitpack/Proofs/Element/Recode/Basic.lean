import Bitpack.Proofs.Element.Wrap
import Bitpack.Proofs.Scalar.Integer

/-!
Encoding and decoding over and over. What comes out of a slot goes back into it unchanged, unless the
scalar type had to round it; the element types that are no integers of another family than the scalar
are settled here.
-/
namespace Bitpack.ElementType

variable {d : Dtype} {format : FloatFormat}

theorem isNonneg_doubleOfInt {n : Int} (hn : 0 ≤ n) (hsize : n.natAbs < 2 ^ 64) :
    (Scalar.doubleOfInt n).isNonneg = true := by
  have hnonneg := Scalar.roundedInt_nonneg .double hn
  rw [(Scalar.doubleOfInt_same_roundedInt hsize).isNonneg_eq, FloatValue.ofInt,
    decide_eq_false (Int.not_lt.mpr hnonneg)]
  rfl

theorem isNonneg_toDouble_uint {size : IntSize} (x : Scalar (.uint size)) :
    x.toDouble.isNonneg = true := by
  have hbits : x.toNat < 2 ^ 64 := Nat.lt_of_lt_of_le x.isLt
    (Nat.pow_le_pow_right (by decide) (Scalar.width_le (.uint size)))
  exact isNonneg_doubleOfInt (Int.natCast_nonneg _) hbits

section

variable [Platform]

/-- What is left of a scalar after it was in a slot. -/
def recode (e : ElementType) (x : Scalar d) : Scalar d :=
  e.decode d (e.encode x)

theorem encode_and_mask (e : ElementType) (x : Scalar d) :
    e.encode x &&& Slot.mask e.bits = e.encode x := by
  rw [encode, BitVec.and_assoc, BitVec.and_self]

theorem recode_eq (e : ElementType) (x : Scalar d) : e.recode x = e.ofSlot d (e.encode x) := by
  rw [recode, decode, encode_and_mask]

theorem recode_of_encode {e : ElementType} {x y : Scalar d} (hencode : e.encode y = e.encode x)
    (hy : e.recode x = y) : e.recode y = y := by
  rw [recode, hencode]
  exact hy

theorem recode_bipolar_eq (x : Scalar d) :
    bipolar.recode x = .ofSigned d (if x.toDouble.isNonneg then 1 else -1) := by
  have hencode : bipolar.encode x = if x.toDouble.isNonneg then 1 else 0 := by
    unfold encode castBits
    dsimp only
    split <;> decide
  rw [recode_eq, hencode]
  cases x.toDouble.isNonneg <;> rfl

theorem recode_integer_of_le {e : ElementType} (he : e.kind = .integer) (hd : d.isFloat = false)
    (hwide : d.width ≤ e.bits) (x : Scalar d) : e.recode x = x := by
  apply BitVec.eq_of_getLsbD_eq
  intro i hi
  have hi' : i < e.bits := Nat.lt_of_lt_of_le hi hwide
  rw [recode_eq, getLsbD_ofSlot he hd _ hi' hi, getLsbD_encode he hd _ hi' hi]

theorem recode_integer {e : ElementType} (he : e.kind = .integer) (hd : d.isFloat = false)
    (x : Scalar d) : e.recode (e.recode x) = e.recode x := by
  rcases Nat.le_total e.bits d.width with hnarrow | hwide
  · refine recode_of_encode ?_ rfl
    rw [recode, encode_decode he hd hnarrow, encode_and_mask]
  · rw [recode_integer_of_le he hd hwide, recode_integer_of_le he hd hwide]

end

/-- The format of a float element. -/
def format? : ElementType → Option FloatFormat
  | float32 => some .single
  | float16 => some .half
  | _ => none

section

variable [Platform]

theorem encode_of_format {e : ElementType} (he : e.format? = some format) (x : Scalar d) :
    e.encode x = (format.ofDouble x.toDouble).setWidth 64 := by
  cases e <;> cases he <;> exact setWidth_and_mask (by decide) _

theorem ofSlot_of_format {e : ElementType} (he : e.format? = some format)
    (pattern : BitVec format.width) :
    e.ofSlot d (pattern.setWidth 64) = .ofDouble d (format.value pattern) := by
  have hwidth : (pattern.setWidth 64).setWidth format.width = pattern := by
    rw [BitVec.setWidth_setWidth_of_le _ (by cases format <;> decide), BitVec.setWidth_eq]
  cases e <;> cases he <;>
    exact congrArg (fun p => Scalar.ofDouble d (FloatFormat.value _ p)) hwidth

theorem recode_of_format {e : ElementType} (he : e.format? = some format) (x : Scalar d) :
    e.recode x = .ofDouble d (format.value (format.ofDouble x.toDouble)) := by
  rw [recode_eq, encode_of_format he, ofSlot_of_format he]

end

section

variable [Platform] [LawfulPlatform]

theorem recode_float_of_le {e : ElementType} (he : e.format? = some format) {scalar : FloatFormat}
    (hwide : scalar.bytes ≤ format.bytes) {x : Scalar (.float scalar)} (hx : x.toDouble ≠ .nan) :
    e.recode x = x := by
  have hscalar : scalar.Exact x.toDouble := FloatFormat.exact_value x
  have hexact : format.Exact x.toDouble := hscalar.widen hwide
  have hback : Scalar.ofDouble (.float scalar) (format.nearest x.toDouble) =
      scalar.round (format.nearest x.toDouble) :=
    FloatFormat.ofDouble_of_exact (hscalar.congr hexact.symm)
  rw [recode_of_format he, FloatFormat.ofDouble_of_exact hexact]
  exact hback.trans ((hexact.round_eq scalar).trans (FloatFormat.round_value hx))

theorem encode_ofDouble_value {e : ElementType} (he : e.format? = some format) {scalar : FloatFormat}
    (hnarrow : format.bytes ≤ scalar.bytes) {pattern : BitVec format.width}
    (hnan : format.value pattern ≠ .nan) :
    e.encode (Scalar.ofDouble (.float scalar) (format.value pattern)) = pattern.setWidth 64 := by
  have hformat : format.Exact (format.value pattern) := FloatFormat.exact_value pattern
  have hexact : scalar.Exact (format.value pattern) := hformat.widen hnarrow
  have hscalar : Scalar.ofDouble (.float scalar) (format.value pattern) =
      scalar.round (format.value pattern) :=
    FloatFormat.ofDouble_of_exact hexact
  rw [encode_of_format he, hscalar]
  refine congrArg _ ?_
  calc
    format.ofDouble (scalar.nearest (format.value pattern)) =
        format.round (scalar.nearest (format.value pattern)) :=
      FloatFormat.ofDouble_of_exact (hformat.congr hexact.symm)
    _ = format.round (format.value pattern) := hexact.round_eq format
    _ = pattern := FloatFormat.round_value hnan

theorem recode_float_of_format {e : ElementType} (he : e.format? = some format)
    {scalar : FloatFormat} (x : Scalar (.float scalar)) (hx : x.toDouble ≠ .nan) :
    e.recode (e.recode x) = e.recode x := by
  rcases Nat.le_total format.bytes scalar.bytes with hnarrow | hwide
  · refine recode_of_encode ?_ rfl
    rw [recode_of_format he, encode_ofDouble_value he hnarrow (FloatFormat.ofDouble_ne_nan hx),
      encode_of_format he]
  · rw [recode_float_of_le he hwide hx, recode_float_of_le he hwide hx]

theorem encode_of_format_integer {e : ElementType} (he : e.format? = some format)
    (hd : d.isFloat = false) (x : Scalar d) :
    e.encode x = (format.round (Scalar.doubleOfInt x.whole)).setWidth 64 := by
  rw [encode_of_format he, Scalar.toDouble_eq hd, Scalar.ofDouble_doubleOfInt]

theorem recode_of_format_integer {e : ElementType} (he : e.format? = some format)
    (hd : d.isFloat = false) (x : Scalar d) :
    e.recode x = .ofDouble d (format.nearest (Scalar.doubleOfInt x.whole)) := by
  rw [recode_of_format he, Scalar.toDouble_eq hd, Scalar.ofDouble_doubleOfInt]
  rfl

theorem recode_limits {e : ElementType} (he : e.format? = some format) (hd : d.isFloat = false) :
    e.recode (BitVec.ofInt d.width d.lowest : Scalar d) = BitVec.ofInt d.width d.lowest ∧
      e.recode (BitVec.ofInt d.width d.highest : Scalar d) = BitVec.ofInt d.width d.highest := by
  rw [recode_of_format_integer he hd, recode_of_format_integer he hd, Scalar.ofDouble_eq hd,
    Scalar.ofDouble_eq hd]
  cases d with
  | int size => cases e <;> cases he <;> cases size <;> decide +kernel
  | uint size => cases e <;> cases he <;> cases size <;> decide +kernel
  | float format => cases hd

/-- A float of an integer is a whole number again. It comes back, or the type stops at a limit. -/
theorem recode_integer_of_format {e : ElementType} (he : e.format? = some format)
    (hd : d.isFloat = false) (x : Scalar d) : e.recode (e.recode x) = e.recode x := by
  obtain ⟨hlowest, hhighest⟩ := recode_limits (d := d) he hd
  have hlimits := d.limits
  have hsize : x.whole.natAbs < 2 ^ 64 := Scalar.natAbs_whole_lt hd x
  have hround := (Scalar.doubleOfInt_same_roundedInt hsize).round_eq format
  have hrecode : e.recode x =
      .ofDouble d (format.nearest (.ofInt (Scalar.roundedInt .double x.whole))) := by
    rw [recode_of_format_integer he hd, FloatFormat.nearest, hround]
    rfl
  rcases Scalar.nearest_ofInt format (Scalar.roundedInt .double x.whole) with
    ⟨negative, hinfinite⟩ | hsame
  · rw [hrecode, hinfinite, Scalar.ofDouble_infinite hd]
    cases negative with
    | false => exact hhighest
    | true => exact hlowest
  · generalize hk : Scalar.roundedInt format (Scalar.roundedInt .double x.whole) = k at hsame
    rw [Scalar.ofDouble_of_same hd hsame] at hrecode
    rcases Int.lt_or_le k d.lowest with hlow | hlow
    · rw [hrecode, show max d.lowest (min d.highest k) = d.lowest by omega]
      exact hlowest
    · rcases Int.lt_or_le d.highest k with hhigh | hhigh
      · rw [hrecode, show max d.lowest (min d.highest k) = d.highest by omega]
        exact hhighest
      · rw [show max d.lowest (min d.highest k) = k by omega] at hrecode
        refine recode_of_encode ?_ rfl
        rw [encode_of_format_integer he hd, encode_of_format_integer he hd x, hrecode,
          Scalar.whole_ofInt hd hlow hhigh, hround]
        have hexact : format.Exact (.ofInt k) := (FloatFormat.exact_value _).congr hsame
        rw [Scalar.round_doubleOfInt hexact, FloatFormat.round_eq_of_same hsame
          (FloatValue.ofInt_ne_nan k)]

theorem isNonneg_ofSigned (hd : ∀ size, d ≠ .uint size) (positive : Bool) :
    (Scalar.ofSigned d (if positive then 1 else -1)).toDouble.isNonneg = positive := by
  cases d with
  | int size =>
      rw [Scalar.ofSigned_eq_ofInt rfl]
      cases positive <;> cases size <;> decide +kernel
  | uint size => exact absurd rfl (hd size)
  | float format =>
      have hsame : ∀ n : Int, n.natAbs = 1 →
          (format.value (Scalar.floatOfInt format n)).Same (.ofInt n) := fun n hn =>
        Scalar.value_floatOfInt (FloatFormat.exact_of_log2_le _ (by rw [hn]; exact Nat.zero_le _))
      have hcarrier : (if positive then 1 else -1 : BitVec 64).toInt = if positive then 1 else -1 := by
        cases positive <;> decide
      change (format.value (Scalar.floatOfInt format (BitVec.toInt _))).isNonneg = positive
      rw [hcarrier, (hsame _ (by cases positive <;> rfl)).isNonneg_eq]
      cases positive <;> rfl

theorem recode_bipolar (x : Scalar d) : bipolar.recode (bipolar.recode x) = bipolar.recode x := by
  rw [recode_bipolar_eq, recode_bipolar_eq]
  cases d with
  | int size => rw [isNonneg_ofSigned (by simp)]
  | uint size => rw [isNonneg_toDouble_uint, isNonneg_toDouble_uint]
  | float format => rw [isNonneg_ofSigned (by simp)]

end

end Bitpack.ElementType
