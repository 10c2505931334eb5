import Bitpack.Proofs.Word.Bits

/-!
Reading and writing slices and slots. A write either is refused for its range or changes the bits of
its range alone; writes into different slots leave each other's bits as they are, and add up where
the slots were clear.
-/
namespace Bitpack.Word

theorem checkRange_of_range {w : Word} {lo length : Nat} (hlength : length ≤ 64)
    (hrange : lo + length ≤ w.width) : w.checkRange lo length = .ok () := by
  unfold checkRange
  rw [if_neg (by omega), if_neg (by omega)]

theorem checkRange_of_not_range {w : Word} {lo length : Nat}
    (hrange : ¬(length ≤ 64 ∧ lo + length ≤ w.width)) :
    ∃ fault, w.checkRange lo length = .error fault := by
  unfold checkRange
  by_cases hlength : 64 < length
  · exact ⟨_, if_pos hlength⟩
  · rw [if_neg hlength, if_pos (by omega)]
    exact ⟨_, rfl⟩

theorem setBits_of_range {w : Word} (hw : w.WellFormed) {lo length : Nat} (bits : BitVec 64)
    (hlength : length ≤ 64) (hrange : lo + length ≤ w.width) :
    ∃ v, w.setBits lo length bits = .ok v ∧ v.WellFormed ∧ v.width = w.width ∧
      ∀ i, v.testBit i =
        if lo ≤ i ∧ i < lo + length then bits.getLsbD (i - lo) else w.testBit i := by
  unfold setBits
  rw [checkRange_of_range hlength hrange]
  by_cases hempty : length = 0
  · refine ⟨w, ?_, hw, rfl, fun i => ?_⟩
    · simp only [hempty]
      rfl
    · rw [if_neg (by omega)]
  · have hpos : 0 < length := Nat.pos_of_ne_zero hempty
    refine ⟨w.splice lo length bits, ?_, hw.splice bits hpos hlength hrange, width_splice .., ?_⟩
    · simp only [hempty]
      rfl
    · intro i
      exact testBit_splice w lo length bits i hw.length_limbs hpos hlength hrange

theorem setBits_of_not_range {w : Word} {lo length : Nat} (bits : BitVec 64)
    (hrange : ¬(length ≤ 64 ∧ lo + length ≤ w.width)) :
    ∃ fault, w.setBits lo length bits = .error fault := by
  obtain ⟨fault, hfault⟩ := checkRange_of_not_range hrange
  refine ⟨fault, ?_⟩
  unfold setBits
  rw [hfault]
  rfl

theorem bits_of_range (w : Word) {lo length : Nat} (hlength : length ≤ 64)
    (hrange : lo + length ≤ w.width) :
    ∃ raw, w.bits lo length = .ok raw ∧
      ∀ t, raw.getLsbD t = (decide (t < length) && w.testBit (lo + t)) := by
  unfold bits
  rw [checkRange_of_range hlength hrange]
  by_cases hempty : length = 0
  · refine ⟨0, ?_, fun t => ?_⟩
    · simp only [hempty]
      rfl
    · simp [hempty]
  · refine ⟨w.slice lo length, ?_, fun t => getLsbD_slice w lo length t hlength⟩
    simp only [hempty]
    rfl

theorem bits_of_not_range {w : Word} {lo length : Nat}
    (hrange : ¬(length ≤ 64 ∧ lo + length ≤ w.width)) :
    ∃ fault, w.bits lo length = .error fault := by
  obtain ⟨fault, hfault⟩ := checkRange_of_not_range hrange
  refine ⟨fault, ?_⟩
  unfold bits
  rw [hfault]
  rfl

end Bitpack.Word
