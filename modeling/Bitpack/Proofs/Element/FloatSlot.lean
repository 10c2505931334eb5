import Bitpack.Proofs.Element.Recode.Basic

/-!
Float scalars in float slots. A value is widened to a double, which has it exactly, and rounded to the
other format, so that nothing is lost between two formats on the way through the wider one. The way
through the narrower one loses the last places.
-/
namespace Bitpack.ElementType

variable {e : ElementType} {format scalar : FloatFormat}

theorem bits_of_format (he : e.format? = some format) : e.bits = format.width := by
  cases e <;> cases he <;> rfl

theorem setWidth_setWidth_of_lt (he : e.format? = some format) {raw : BitVec 64}
    (hraw : raw.toNat < 2 ^ e.bits) : (raw.setWidth format.width).setWidth 64 = raw := by
  apply BitVec.eq_of_toNat_eq
  rw [BitVec.toNat_setWidth, BitVec.toNat_setWidth, ← bits_of_format he, Nat.mod_eq_of_lt hraw,
    Nat.mod_eq_of_lt raw.isLt]

section

variable [Platform]

theorem decode_of_format (he : e.format? = some format) (d : Dtype) (raw : BitVec 64) :
    e.decode d raw = .ofDouble d (format.value (raw.setWidth format.width)) := by
  rw [decode, and_mask_eq, bits_of_format he, ofSlot_of_format he]

variable [LawfulPlatform]

theorem exists_raw_lost (he : e.format? = some format) (hlt : scalar.bytes < format.bytes) :
    ∃ raw : BitVec 64, raw.toNat < 2 ^ e.bits ∧ format.value (raw.setWidth format.width) ≠ .nan ∧
      e.encode (e.decode (.float scalar) raw) ≠ raw := by
  obtain ⟨rfl, rfl⟩ : format = .single ∧ scalar = .half := by
    cases e <;> cases he <;> cases scalar <;> first
      | exact ⟨rfl, rfl⟩
      | exact absurd hlt (by decide)
  have hvalue : FloatFormat.single.value ((0x3F800008 : BitVec 64).setWidth _) =
      .finite false ((2 ^ 20 + 1) * 2 ^ 3) (-23) := by decide +kernel
  have hone : Scalar.ofDouble (.float .half)
      (FloatFormat.single.value ((0x3F800008 : BitVec 64).setWidth _)) = 0x3C00 := by
    have hshort := FloatValue.same_shift false (2 ^ 20 + 1) 3 (-23)
    have hround : FloatFormat.half.round (.finite false ((2 ^ 20 + 1) * 2 ^ 3) (-23)) = 0x3C00 := by
      decide +kernel
    rw [hvalue]
    exact (FloatFormat.ofDouble_of_short hshort (by decide)).trans hround
  refine ⟨0x3F800008, by rw [bits_of_format he]; decide, by rw [hvalue]; exact FloatValue.noConfusion, ?_⟩
  rw [decode_of_format he, hone, encode_of_format he]
  change (FloatFormat.single.round (FloatFormat.half.value 0x3C00)).setWidth 64 ≠ 0x3F800008
  decide +kernel

theorem exists_scalar_lost (he : e.format? = some format) (hlt : format.bytes < scalar.bytes) :
    ∃ x : Scalar (.float scalar), scalar.value x ≠ .nan ∧
      e.decode (.float scalar) (e.encode x) ≠ x := by
  have hsmallest : scalar.value (BitVec.ofNat scalar.width 1) =
      .finite false 1 scalar.minExponent := by
    cases scalar <;> decide +kernel
  have hlost : format.ofDouble (.finite false 1 scalar.minExponent) = format.signed false 0 := by
    rw [FloatFormat.ofDouble_of_short (.refl _) (by decide)]
    cases e <;> cases he <;> cases scalar <;> first
      | exact absurd hlt (by decide)
      | decide +kernel
  have hzero : (format.value (format.signed false 0)).Same (.finite false 0 0) := by
    cases format <;> exact FloatValue.same_zero false _ 0
  have hback : scalar.ofDouble (format.value (format.signed false 0)) ≠ BitVec.ofNat scalar.width 1 := by
    rw [FloatFormat.ofDouble_of_short hzero (by decide), hzero.round_eq]
    cases scalar <;> decide
  refine ⟨BitVec.ofNat scalar.width 1, by rw [hsmallest]; exact FloatValue.noConfusion, ?_⟩
  rw [← hlost, ← hsmallest] at hback
  intro hself
  exact hback ((recode_of_format he _).symm.trans hself)

/-- A float in a float slot. Exactly the scalar types that are not narrower than the slot carry every
pattern of it, and exactly those that are not wider come back bit for bit, signed zeros, infinities and
subnormal numbers among them. -/
theorem float_slot_carries (he : e.format? = some format) (scalar : FloatFormat) :
    (format.bytes ≤ scalar.bytes ↔
        ∀ raw : BitVec 64, raw.toNat < 2 ^ e.bits →
          format.value (raw.setWidth format.width) ≠ .nan →
          e.encode (e.decode (.float scalar) raw) = raw) ∧
      (scalar.bytes ≤ format.bytes ↔
        ∀ x : Scalar (.float scalar), scalar.value x ≠ .nan →
          e.decode (.float scalar) (e.encode x) = x) := by
  refine ⟨⟨fun hnarrow raw hraw hnan => ?_, fun hcarries => ?_⟩,
    ⟨fun hwide x hnan => recode_float_of_le he hwide hnan, fun hcarries => ?_⟩⟩
  · rw [decode_of_format he, encode_ofDouble_value he hnarrow hnan, setWidth_setWidth_of_lt he hraw]
  · by_contra hlt
    obtain ⟨raw, hraw, hnan, hlost⟩ := exists_raw_lost he (Nat.lt_of_not_le hlt)
    exact hlost (hcarries raw hraw hnan)
  · by_contra hlt
    obtain ⟨x, hnan, hlost⟩ := exists_scalar_lost he (Nat.lt_of_not_le hlt)
    exact hlost (hcarries x hnan)

end

open scoped Platform.Release

theorem float_slot_carries_subnormal :
    float16.format? = some .half ∧
      FloatFormat.half.value 0x03FF = .finite false 1023 (-24) ∧
      float16.encode (float16.decode (.float .double) 0x03FF) = 0x03FF ∧
      float32.format? = some .single ∧
      float32.decode (.float .half) (float32.encode (d := .float .half) 0x8000) = 0x8000 ∧
      float32.decode (.float .half) (float32.encode (d := .float .half) 0xFC00) = 0xFC00 := by
  obtain ⟨hslot, -⟩ := float_slot_carries (e := float16) rfl .double
  obtain ⟨-, hscalar⟩ := float_slot_carries (e := float32) rfl .half
  exact ⟨rfl, by decide, hslot.mp (by decide) 0x03FF (by decide) (by decide), rfl,
    hscalar.mp (by decide) 0x8000 (by decide), hscalar.mp (by decide) 0xFC00 (by decide)⟩

end Bitpack.ElementType
