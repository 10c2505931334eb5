import Bitpack.Proofs.Word.Access
import Bitpack.Proofs.Word.HexReading

/-!
Words as they are made and written to. A word that was made of nothing, of limbs or of text stays
well-formed under every sequence of writes, refused ones included, so that it can be read as a vector
of bits throughout.
-/
namespace Bitpack.Word

inductive Built (width : Nat) : Word → Prop where
  | zero : Built width (zero width)
  | ofLimbs {limbs : List (BitVec 64)} {w : Word} : ofLimbs width limbs = .ok w → Built width w
  | ofHex {text : String} {w : Word} : ofHex text width = .ok w → Built width w

inductive Write where
  | bits (lo length : Nat) (value : BitVec 64)
  | slot (i elementBits : Nat) (raw : BitVec 64)

def Write.perform (w : Word) : Write → Except RangeFault Word
  | .bits lo length value => w.setBits lo length value
  | .slot i elementBits raw => w.setSlot i elementBits raw

def afterWrite (w : Word) (write : Write) : Word :=
  match write.perform w with
  | .ok v => v
  | .error _ => w

def afterWrites (w : Word) (writes : List Write) : Word :=
  writes.foldl afterWrite w

theorem wellFormed_of_ofHex {text : String} {width : Nat} {w : Word}
    (h : ofHex text width = .ok w) : w.width = width ∧ w.WellFormed :=
  ⟨(spells_of_ofHexChars h).width_eq, (spells_of_ofHexChars h).wellFormed⟩

theorem Built.wellFormed {width : Nat} {w : Word} (h : Built width w) :
    w.width = width ∧ w.WellFormed := by
  cases h with
  | zero => exact ⟨rfl, wellFormed_zero width⟩
  | ofLimbs h => exact ⟨(wellFormed_of_ofLimbs h).1, (wellFormed_of_ofLimbs h).2.1⟩
  | ofHex h => exact wellFormed_of_ofHex h

theorem WellFormed.afterWrite {w : Word} (hw : w.WellFormed) (write : Write) :
    (w.afterWrite write).width = w.width ∧ (w.afterWrite write).WellFormed := by
  have hslice (lo length : Nat) (value : BitVec 64) {v : Word}
      (hv : w.setBits lo length value = .ok v) : v.width = w.width ∧ v.WellFormed := by
    by_cases hrange : length ≤ 64 ∧ lo + length ≤ w.width
    · obtain ⟨u, hu, hwf, hwidth, _⟩ := setBits_of_range hw value hrange.1 hrange.2
      rw [hu] at hv
      cases hv
      exact ⟨hwidth, hwf⟩
    · obtain ⟨fault, hfault⟩ := setBits_of_not_range value hrange
      rw [hfault] at hv
      cases hv
  unfold Word.afterWrite
  split
  · rename_i v hv
    cases write with
    | bits lo length value => exact hslice lo length value hv
    | slot i elementBits raw => exact hslice _ elementBits raw hv
  · exact ⟨rfl, hw⟩

theorem WellFormed.afterWrites {w : Word} (hw : w.WellFormed) (writes : List Write) :
    (w.afterWrites writes).width = w.width ∧ (w.afterWrites writes).WellFormed := by
  unfold Word.afterWrites
  induction writes generalizing w with
  | nil => exact ⟨rfl, hw⟩
  | cons write rest ih =>
      obtain ⟨hwidth, hwf⟩ := hw.afterWrite write
      obtain ⟨hwidth', hwf'⟩ := ih hwf
      exact ⟨hwidth'.trans hwidth, hwf'⟩

theorem Built.afterWrites {width : Nat} {w : Word} (h : Built width w) (writes : List Write) :
    (w.afterWrites writes).width = width ∧ (w.afterWrites writes).WellFormed := by
  obtain ⟨hwidth, hwf⟩ := h.wellFormed
  obtain ⟨hwidth', hwf'⟩ := hwf.afterWrites writes
  exact ⟨hwidth'.trans hwidth, hwf'⟩

theorem afterWrites_concat (w : Word) (writes : List Write) (write : Write) :
    w.afterWrites (writes ++ [write]) = (w.afterWrites writes).afterWrite write := by
  unfold afterWrites
  rw [List.foldl_append]
  rfl

theorem afterWrite_of_ok {w v : Word} {write : Write} (h : write.perform w = .ok v) :
    w.afterWrite write = v := by
  unfold afterWrite
  rw [h]

theorem afterWrite_of_error {w : Word} {write : Write} {fault : RangeFault}
    (h : write.perform w = .error fault) : w.afterWrite write = w := by
  unfold afterWrite
  rw [h]

/-- However a word came about, it is a vector of as many bits as it is wide. A slice is refused exactly
where it is too long or reaches beyond the width, and then nothing changes; otherwise writing sets the
bits of its range alone and reading shows just these. Two such words are equal exactly where their
widths and their bits are. -/
theorem afterWrites_refines_bits {width : Nat} {start : Word} (hstart : Built width start)
    (writes : List Write) :
    (start.afterWrites writes).width = width ∧
      (start.afterWrites writes).limbs.length = (width + 63) / 64 ∧
      (∀ i, width ≤ i → (start.afterWrites writes).testBit i = false) ∧
      (∀ lo length value,
        if length ≤ 64 ∧ lo + length ≤ width then
          ∃ v, (start.afterWrites writes).setBits lo length value = .ok v ∧
            start.afterWrites (writes ++ [.bits lo length value]) = v ∧
            (∀ t, t < length → v.testBit (lo + t) = value.getLsbD t) ∧
            ∀ i, i < lo ∨ lo + length ≤ i → v.testBit i = (start.afterWrites writes).testBit i
        else
          (∃ fault, (start.afterWrites writes).setBits lo length value = .error fault) ∧
            start.afterWrites (writes ++ [.bits lo length value]) = start.afterWrites writes) ∧
      (∀ lo length,
        if length ≤ 64 ∧ lo + length ≤ width then
          ∃ raw, (start.afterWrites writes).bits lo length = .ok raw ∧
            ∀ t, raw.toNat.testBit t =
              (decide (t < length) && (start.afterWrites writes).testBit (lo + t))
        else ∃ fault, (start.afterWrites writes).bits lo length = .error fault) ∧
      ∀ (width' : Nat) (start' : Word) (writes' : List Write), Built width' start' →
        (start.afterWrites writes = start'.afterWrites writes' ↔
          width = width' ∧ ∀ i, i < width →
            (start.afterWrites writes).testBit i = (start'.afterWrites writes').testBit i) := by
  obtain ⟨hwidth, hwf⟩ := hstart.afterWrites writes
  refine ⟨hwidth, ?_, ?_, ?_, ?_, ?_⟩
  · rw [hwf.length_limbs, hwidth]
    rfl
  · intro i hi
    exact hwf.testBit_of_ge (by omega)
  · intro lo length value
    split
    · rename_i hrange
      obtain ⟨v, hv, _, _, hbits⟩ := setBits_of_range hwf value hrange.1
        (by rw [hwidth]; exact hrange.2)
      refine ⟨v, hv, ?_, ?_, ?_⟩
      · rw [afterWrites_concat]
        exact afterWrite_of_ok hv
      · intro t ht
        rw [hbits, if_pos (by omega), Nat.add_sub_cancel_left]
      · intro i hi
        rw [hbits, if_neg (by omega)]
    · rename_i hrange
      obtain ⟨fault, hfault⟩ := setBits_of_not_range (w := start.afterWrites writes) value
        (by rwa [hwidth])
      refine ⟨⟨fault, hfault⟩, ?_⟩
      rw [afterWrites_concat]
      exact afterWrite_of_error hfault
  · intro lo length
    split
    · rename_i hrange
      obtain ⟨raw, hraw, hbits⟩ := bits_of_range (start.afterWrites writes) hrange.1
        (by rw [hwidth]; exact hrange.2)
      exact ⟨raw, hraw, hbits⟩
    · rename_i hrange
      exact bits_of_not_range (by rwa [hwidth])
  · intro width' start' writes' hstart'
    obtain ⟨hwidth', hwf'⟩ := hstart'.afterWrites writes'
    rw [hwf.eq_iff_testBit hwf', hwidth, hwidth']

theorem afterWrites_refines_bits_across_limbs :
    Built 72 ⟨72, [0xF000000000000034, 0x12]⟩ ∧ Built 72 (zero 72) ∧
      ((⟨72, [0xF000000000000034, 0x12]⟩ : Word).afterWrites
        [.bits 60 12 0xFAB5, .bits 70 3 1]).limbs.length = 2 ∧
      (⟨72, [0xF000000000000034, 0x12]⟩ : Word).afterWrites [.bits 60 12 0xFAB5, .bits 70 3 1] =
        (zero 72).afterWrites [.slot 15 4 5, .slot 0 8 0x34, .slot 8 8 0xAB] := by
  have hhex : Built 72 ⟨72, [0xF000000000000034, 0x12]⟩ :=
    .ofHex (show ofHex "0x12_F000_0000_0000_0034" 72 = _ by rfl)
  obtain ⟨_, hlimbs, _, _, _, heq⟩ :=
    afterWrites_refines_bits hhex [.bits 60 12 0xFAB5, .bits 70 3 1]
  exact ⟨hhex, .zero, hlimbs,
    (heq 72 (zero 72) [.slot 15 4 5, .slot 0 8 0x34, .slot 8 8 0xAB] .zero).mpr ⟨rfl, by decide⟩⟩

end Bitpack.Word
