import Bitpack.Proofs.Word.Bits

/-!
Words from limbs. A list of limbs makes a word exactly where its value is below two to the width.
-/
namespace Bitpack.Word

theorem getD_resize (limbs : List (BitVec 64)) (count j : Nat) :
    (resize limbs count).getD j 0 = if j < count then limbs.getD j 0 else 0 := by
  unfold resize
  simp only [List.getD_eq_getElem?_getD]
  by_cases hj : j < (limbs.take count).length
  · rw [List.getElem?_append_left hj, List.getElem?_take]
    rw [List.length_take] at hj
    rw [if_pos (by omega), if_pos (by omega)]
  · rw [List.getElem?_append_right (by omega), List.getElem?_replicate]
    rw [List.length_take] at hj
    by_cases hcount : j < count
    · rw [if_pos hcount, List.getElem?_eq_none (by omega)]
      split <;> rfl
    · rw [if_neg hcount]
      split <;> rfl

theorem length_resize (limbs : List (BitVec 64)) (count : Nat) :
    (resize limbs count).length = count := by
  unfold resize
  rw [List.length_append, List.length_take, List.length_replicate]
  omega

theorem limbValue_resize {width : Nat} {limbs : List (BitVec 64)}
    (hlt : limbValue limbs < 2 ^ width) :
    limbValue (resize limbs (limbCount width)) = limbValue limbs := by
  apply Nat.eq_of_testBit_eq
  intro i
  rw [testBit_limbValue, getD_resize]
  split
  · rw [testBit_limbValue]
  · rename_i hi
    have hwidth : width ≤ i := by
      unfold limbCount at hi
      omega
    rw [Nat.testBit_lt_two_pow (Nat.lt_of_lt_of_le hlt (Nat.pow_le_pow_right (by decide) hwidth))]
    exact BitVec.getLsbD_zero

theorem wellFormed_resize {width : Nat} {limbs : List (BitVec 64)}
    (hlt : limbValue limbs < 2 ^ width) :
    (⟨width, resize limbs (limbCount width)⟩ : Word).WellFormed where
  length_limbs := length_resize limbs _
  value_lt := by
    rw [value, limbValue_resize hlt]
    exact hlt

private theorem getLsbD_getD_of_lt {width : Nat} {limbs : List (BitVec 64)}
    (hlt : limbValue limbs < 2 ^ width) {j t : Nat} (ht : t < 64) (hwidth : width ≤ 64 * j + t) :
    (limbs.getD j 0).getLsbD t = false := by
  have hbit : (limbValue limbs).testBit (64 * j + t) = false :=
    Nat.testBit_lt_two_pow (Nat.lt_of_lt_of_le hlt (Nat.pow_le_pow_right (by decide) hwidth))
  rwa [testBit_limbValue, show (64 * j + t) / 64 = j by omega,
    show (64 * j + t) % 64 = t by omega] at hbit

private theorem tests_of_lt {width : Nat} {limbs : List (BitVec 64)}
    (hlt : limbValue limbs < 2 ^ width) :
    (limbs.drop (limbCount width)).any (· != 0) = false ∧
      ¬(width % 64 ≠ 0 ∧ (resize limbs (limbCount width)).getD (limbCount width - 1) 0 >>>
        (width % 64) ≠ 0) := by
  constructor
  · rw [List.any_eq_false]
    intro limb hlimb
    obtain ⟨j, hj, rfl⟩ := List.mem_iff_getElem.mp hlimb
    rw [List.length_drop] at hj
    rw [List.getElem_drop, Bool.not_eq_true, bne_eq_false_iff_eq]
    apply BitVec.eq_of_getLsbD_eq
    intro t ht
    have hbit := getLsbD_getD_of_lt hlt (j := limbCount width + j) ht (by unfold limbCount; omega)
    rw [List.getD_eq_getElem?_getD, List.getElem?_eq_getElem (by omega), Option.getD_some] at hbit
    rw [hbit]
    exact BitVec.getLsbD_zero.symm
  · rintro ⟨hwidth, htop⟩
    apply htop
    apply BitVec.eq_of_getLsbD_eq
    intro t ht
    rw [getD_resize, if_pos (by unfold limbCount; omega), BitVec.getLsbD_ushiftRight]
    by_cases hinside : width % 64 + t < 64
    · rw [getLsbD_getD_of_lt hlt hinside (by unfold limbCount; omega)]
      exact BitVec.getLsbD_zero.symm
    · rw [BitVec.getLsbD_of_ge _ _ (by omega)]
      exact BitVec.getLsbD_zero.symm

private theorem lt_of_tests {width : Nat} {limbs : List (BitVec 64)}
    (hrest : ¬(limbs.drop (limbCount width)).any (· != 0) = true)
    (htop : ¬(width % 64 ≠ 0 ∧ (resize limbs (limbCount width)).getD (limbCount width - 1) 0 >>>
      (width % 64) ≠ 0)) :
    limbValue limbs < 2 ^ width := by
  apply Nat.lt_pow_two_of_testBit
  intro i hi
  rw [testBit_limbValue]
  by_cases hlimb : limbCount width ≤ i / 64
  · -- The bit belongs to a limb that is dropped, and those are zero.
    suffices hzero : limbs.getD (i / 64) 0 = 0 by
      rw [hzero]
      exact BitVec.getLsbD_zero
    rw [List.getD_eq_getElem?_getD]
    cases hget : limbs[i / 64]? with
    | none => rfl
    | some limb =>
        rw [Bool.not_eq_true, List.any_eq_false] at hrest
        have hmem : limb ∈ limbs.drop (limbCount width) := by
          rw [List.mem_iff_getElem?]
          exact ⟨i / 64 - limbCount width, by rw [List.getElem?_drop, Nat.add_sub_cancel' hlimb, hget]⟩
        simpa using hrest limb hmem
  · -- The bit belongs to the last limb, above the bits of the width.
    have hwidth : width % 64 ≠ 0 := by
      unfold limbCount at hlimb
      omega
    have hlast : i / 64 = limbCount width - 1 := by
      unfold limbCount at hlimb ⊢
      omega
    have hzero : (resize limbs (limbCount width)).getD (limbCount width - 1) 0 >>> (width % 64) = 0 :=
      Decidable.byContradiction fun hne => htop ⟨hwidth, hne⟩
    rw [getD_resize, ← hlast, if_pos (by omega)] at hzero
    have hbit := congrArg (fun limb => limb.getLsbD (i % 64 - width % 64)) hzero
    simp only [BitVec.getLsbD_ushiftRight] at hbit
    rw [show width % 64 + (i % 64 - width % 64) = i % 64 by unfold limbCount at hlast; omega] at hbit
    rw [hbit]
    exact BitVec.getLsbD_zero

theorem ofLimbs_eq (width : Nat) (limbs : List (BitVec 64)) :
    ofLimbs width limbs =
      if limbValue limbs < 2 ^ width then .ok ⟨width, resize limbs (limbCount width)⟩
      else .error (.format (.wordOverflow width)) := by
  unfold ofLimbs limb
  dsimp only
  by_cases hlt : limbValue limbs < 2 ^ width
  · obtain ⟨hrest, htop⟩ := tests_of_lt hlt
    rw [if_pos hlt, if_neg (by rw [hrest]; decide), if_neg htop]
  · rw [if_neg hlt]
    split
    · rfl
    · rename_i hrest
      split
      · rfl
      · rename_i htop
        exact absurd (lt_of_tests hrest htop) hlt

theorem wellFormed_of_ofLimbs {width : Nat} {limbs : List (BitVec 64)} {w : Word}
    (h : ofLimbs width limbs = .ok w) :
    w.width = width ∧ w.WellFormed ∧ w.value = limbValue limbs := by
  rw [ofLimbs_eq] at h
  split at h
  · rename_i hlt
    cases h
    exact ⟨rfl, wellFormed_resize hlt, limbValue_resize hlt⟩
  · cases h

theorem sum_zipIdx_limbs (limbs : List (BitVec 64)) (start : Nat) :
    ((limbs.zipIdx start).map fun (limb, i) => limb.toNat * 2 ^ (64 * i)).sum =
      2 ^ (64 * start) * limbValue limbs := by
  induction limbs generalizing start with
  | nil => rfl
  | cons limb rest ih =>
      have hnext : 2 ^ (64 * (start + 1)) = 2 ^ (64 * start) * 2 ^ 64 := by
        rw [Nat.mul_succ, Nat.pow_add]
      rw [List.zipIdx_cons, List.map_cons, List.sum_cons, ih, hnext, limbValue, Nat.mul_add,
        Nat.mul_assoc]
      exact congrArg (· + _) (Nat.mul_comm limb.toNat _)

/-- Limbs of any length make a word exactly where the number that they add up to is below two to the
width. The word has that number, as many limbs as its width needs, and no bit above. -/
theorem ofLimbs_admits_fitting (width : Nat) (limbs : List (BitVec 64)) :
    let number := (limbs.zipIdx.map fun (limb, i) => limb.toNat * 2 ^ (64 * i)).sum
    if number < 2 ^ width then
      ∃ w, ofLimbs width limbs = .ok w ∧ w.width = width ∧ w.limbs.length = (width + 63) / 64 ∧
        (∀ i, width ≤ i → w.testBit i = false) ∧ w.value = number
    else ofLimbs width limbs = .error (.format (.wordOverflow width)) := by
  intro number
  have hnumber : number = limbValue limbs := by
    rw [← Nat.one_mul (limbValue limbs)]
    exact sum_zipIdx_limbs limbs 0
  rw [hnumber]
  have heq := ofLimbs_eq width limbs
  split
  · rename_i hlt
    rw [if_pos hlt] at heq
    obtain ⟨hwidth, hwf, hvalue⟩ := wellFormed_of_ofLimbs heq
    exact ⟨_, heq, hwidth, hwf.length_limbs, fun i hi => hwf.testBit_of_ge hi, hvalue⟩
  · rename_i hge
    rwa [if_neg hge] at heq

example : ofLimbs 65 [7, 1, 0] = .ok ⟨65, [7, 1]⟩ ∧
    ofLimbs 65 [7, 2] = .error (.format (.wordOverflow 65)) ∧ ofLimbs 0 [0] = .ok ⟨0, []⟩ :=
  ⟨rfl, rfl, rfl⟩

end Bitpack.Word
