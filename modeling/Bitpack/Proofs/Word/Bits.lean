import Bitpack.Word.Basic

/-!
Words as vectors of bits. Every operation on limbs is read through `Word.testBit`: a slice shows the
bits of its range, a splice changes these and no others, and a well-formed word is determined by its
width and the bits below it.
-/
namespace Bitpack

@[simp] theorem Slot.getLsbD_mask (bits i : Nat) :
    (mask bits).getLsbD i = decide (i < bits ∧ i < 64) := by
  unfold mask
  split
  · rw [BitVec.getLsbD_allOnes]
    exact decide_eq_decide.mpr (by omega)
  · rw [BitVec.getLsbD_ofNat, Nat.testBit_two_pow_sub_one]
    simp only [Bool.decide_and, Bool.and_comm]

namespace Word

/-- Bit `i` of a word, which stands in limb `i / 64`; there are only zeros beyond the last limb. -/
def testBit (w : Word) (i : Nat) : Bool :=
  (w.limb (i / 64)).getLsbD (i % 64)

theorem testBit_limbValue (limbs : List (BitVec 64)) (i : Nat) :
    (limbValue limbs).testBit i = (limbs.getD (i / 64) 0).getLsbD (i % 64) := by
  induction limbs generalizing i with
  | nil => simp [limbValue]
  | cons limb rest ih =>
      rw [limbValue, Nat.add_comm, Nat.testBit_two_pow_mul_add _ limb.isLt]
      split
      · rename_i hlow
        rw [Nat.div_eq_of_lt hlow, Nat.mod_eq_of_lt hlow]
        rfl
      · rename_i hhigh
        obtain ⟨j, rfl⟩ : ∃ j, i = j + 64 := ⟨i - 64, by omega⟩
        rw [Nat.add_sub_cancel, ih, Nat.add_mod_right, Nat.add_div_right j (by decide),
          List.getD_cons_succ]

@[simp] theorem testBit_value (w : Word) (i : Nat) : w.value.testBit i = w.testBit i :=
  testBit_limbValue w.limbs i

theorem getLsbD_limb (w : Word) (i t : Nat) (ht : t < 64) :
    (w.limb i).getLsbD t = w.testBit (64 * i + t) := by
  unfold testBit
  rw [show (64 * i + t) / 64 = i by omega, show (64 * i + t) % 64 = t by omega]

@[simp] theorem testBit_zero (width i : Nat) : (zero width).testBit i = false := by
  unfold testBit limb zero
  rw [List.getD_eq_getElem?_getD, List.getElem?_replicate]
  split <;> exact BitVec.getLsbD_zero

theorem getD_set {limbs : List (BitVec 64)} {i : Nat} (hi : i < limbs.length) (x : BitVec 64)
    (j : Nat) : (limbs.set i x).getD j 0 = if j = i then x else limbs.getD j 0 := by
  simp only [List.getD_eq_getElem?_getD]
  by_cases hj : j = i
  · rw [if_pos hj, hj, List.getElem?_set_self hi, Option.getD_some]
  · rw [if_neg hj, List.getElem?_set_ne (Ne.symm hj)]

theorem getLsbD_slice (w : Word) (lo length t : Nat) (hlength : length ≤ 64) :
    (w.slice lo length).getLsbD t = (decide (t < length) && w.testBit (lo + t)) := by
  by_cases ht : t < length
  · have hmask : (Slot.mask length).getLsbD t = true := by
      rw [Slot.getLsbD_mask]
      exact decide_eq_true (by omega)
    simp only [slice, BitVec.getLsbD_and, hmask, Bool.and_true, ht, decide_true, Bool.true_and]
    by_cases hfirst : lo % 64 + t < 64
    · -- The bit is one of the lower limb: the limb above it is shifted past it.
      have hbit : (w.limb (lo / 64)).getLsbD (lo % 64 + t) = w.testBit (lo + t) := by
        rw [getLsbD_limb _ _ _ hfirst]
        congr 1
        omega
      split
      · rw [BitVec.getLsbD_or, BitVec.getLsbD_ushiftRight, BitVec.getLsbD_shiftLeft, hbit]
        simp [show t < 64 - lo % 64 by omega]
      · rw [BitVec.getLsbD_ushiftRight, hbit]
    · rw [if_pos (by omega), BitVec.getLsbD_or, BitVec.getLsbD_ushiftRight,
        BitVec.getLsbD_shiftLeft, BitVec.getLsbD_of_ge _ _ (by omega),
        getLsbD_limb _ _ _ (by omega)]
      simp only [show t < 64 by omega, show ¬t < 64 - lo % 64 by omega, decide_true, decide_false,
        Bool.not_false, Bool.and_true, Bool.true_and, Bool.false_or]
      congr 1
      omega
  · simp [slice, ht]

private theorem getLsbD_spliceLow (limb bits : BitVec 64) {lo length i : Nat}
    (hi : i / 64 = lo / 64) :
    ((limb &&& ~~~(Slot.mask length <<< (lo % 64))) |||
        (bits &&& Slot.mask length) <<< (lo % 64)).getLsbD (i % 64) =
      if lo ≤ i ∧ i < lo + length then bits.getLsbD (i - lo) else limb.getLsbD (i % 64) := by
  have ht : i % 64 < 64 := Nat.mod_lt _ (by decide)
  simp only [BitVec.getLsbD_or, BitVec.getLsbD_and, BitVec.getLsbD_not, BitVec.getLsbD_shiftLeft,
    Slot.getLsbD_mask, ht, decide_true, Bool.true_and]
  by_cases hlo : lo ≤ i
  · rw [show i % 64 - lo % 64 = i - lo by omega]
    by_cases hlength : i - lo < length
    · rw [if_pos (by omega)]
      simp [hlength, show ¬i % 64 < lo % 64 by omega, show i - lo < 64 by omega]
    · rw [if_neg (by omega)]
      simp [hlength]
  · rw [if_neg (by omega)]
    simp [show i % 64 < lo % 64 by omega]

private theorem getLsbD_spliceHigh (limb bits : BitVec 64) {lo length i : Nat}
    (hi : i / 64 = lo / 64 + 1) (hlength : length ≤ 64) (hspill : 64 < lo % 64 + length) :
    ((limb &&& ~~~Slot.mask (lo % 64 + length - 64)) |||
        (bits &&& Slot.mask length) >>> (64 - lo % 64)).getLsbD (i % 64) =
      if lo ≤ i ∧ i < lo + length then bits.getLsbD (i - lo) else limb.getLsbD (i % 64) := by
  have ht : i % 64 < 64 := Nat.mod_lt _ (by decide)
  simp only [BitVec.getLsbD_or, BitVec.getLsbD_and, BitVec.getLsbD_not, BitVec.getLsbD_ushiftRight,
    Slot.getLsbD_mask, ht, decide_true, Bool.true_and]
  rw [show 64 - lo % 64 + i % 64 = i - lo by omega]
  by_cases hinside : i - lo < length
  · rw [if_pos (by omega)]
    simp [hinside, show i % 64 < lo % 64 + length - 64 by omega, show i - lo < 64 by omega]
  · rw [if_neg (by omega)]
    simp [hinside, show ¬i % 64 < lo % 64 + length - 64 by omega]

theorem testBit_splice (w : Word) (lo length : Nat) (bits : BitVec 64) (i : Nat)
    (hlimbs : w.limbs.length = limbCount w.width) (hpos : 0 < length) (hlength : length ≤ 64)
    (hrange : lo + length ≤ w.width) :
    (w.splice lo length bits).testBit i =
      if lo ≤ i ∧ i < lo + length then bits.getLsbD (i - lo) else w.testBit i := by
  have hlow : lo / 64 < w.limbs.length := by
    rw [hlimbs, limbCount]
    omega
  unfold splice testBit limb
  dsimp only
  split
  · rename_i hspill
    have hhigh : lo / 64 + 1 < w.limbs.length := by
      rw [hlimbs, limbCount]
      omega
    rw [getD_set (by simpa using hhigh), getD_set hlow]
    by_cases hsecond : i / 64 = lo / 64 + 1
    · rw [if_pos hsecond, getLsbD_spliceHigh _ _ hsecond hlength hspill, hsecond]
    · rw [if_neg hsecond]
      by_cases hfirst : i / 64 = lo / 64
      · rw [if_pos hfirst, getLsbD_spliceLow _ _ hfirst, hfirst]
      · rw [if_neg hfirst, if_neg (by omega)]
  · rename_i hfits
    rw [getD_set hlow]
    by_cases hfirst : i / 64 = lo / 64
    · rw [if_pos hfirst, getLsbD_spliceLow _ _ hfirst, hfirst]
    · rw [if_neg hfirst, if_neg (by omega)]

@[simp] theorem width_splice (w : Word) (lo length : Nat) (bits : BitVec 64) :
    (w.splice lo length bits).width = w.width := by
  unfold splice
  dsimp only
  split <;> rfl

@[simp] theorem length_limbs_splice (w : Word) (lo length : Nat) (bits : BitVec 64) :
    (w.splice lo length bits).limbs.length = w.limbs.length := by
  unfold splice
  dsimp only
  split <;> simp only [List.length_set]

theorem value_lt_iff_testBit (w : Word) :
    w.value < 2 ^ w.width ↔ ∀ i, w.width ≤ i → w.testBit i = false := by
  constructor
  · intro hlt i hi
    rw [← testBit_value]
    exact Nat.testBit_lt_two_pow (Nat.lt_of_lt_of_le hlt (Nat.pow_le_pow_right (by decide) hi))
  · intro hzero
    apply Nat.lt_pow_two_of_testBit
    intro i hi
    rw [testBit_value]
    exact hzero i hi

theorem WellFormed.testBit_of_ge {w : Word} (hw : w.WellFormed) {i : Nat} (hi : w.width ≤ i) :
    w.testBit i = false :=
  (value_lt_iff_testBit w).mp hw.value_lt i hi

theorem ext_testBit {v w : Word} (hwidth : v.width = w.width)
    (hlength : v.limbs.length = w.limbs.length) (hbits : ∀ i, v.testBit i = w.testBit i) : v = w := by
  cases v with
  | mk width limbs =>
      cases w with
      | mk width' limbs' =>
          obtain rfl : width = width' := hwidth
          congr 1
          apply List.ext_getElem hlength
          intro j hj hj'
          apply BitVec.eq_of_getLsbD_eq
          intro t ht
          have hlimb := hbits (64 * j + t)
          rw [← getLsbD_limb _ _ _ ht, ← getLsbD_limb _ _ _ ht] at hlimb
          simpa only [limb, List.getD_eq_getElem?_getD, List.getElem?_eq_getElem, hj, hj',
            Option.getD_some] using hlimb

theorem WellFormed.eq_iff_testBit {v w : Word} (hv : v.WellFormed) (hw : w.WellFormed) :
    v = w ↔ v.width = w.width ∧ ∀ i, i < v.width → v.testBit i = w.testBit i := by
  constructor
  · rintro rfl
    exact ⟨rfl, fun _ _ => rfl⟩
  · rintro ⟨hwidth, hbits⟩
    apply ext_testBit hwidth
    · rw [hv.length_limbs, hw.length_limbs, hwidth]
    · intro i
      by_cases hi : i < v.width
      · exact hbits i hi
      · rw [hv.testBit_of_ge (by omega), hw.testBit_of_ge (by omega)]

theorem WellFormed.eq_of_value {v w : Word} (hv : v.WellFormed) (hw : w.WellFormed)
    (hwidth : v.width = w.width) (hvalue : v.value = w.value) : v = w := by
  apply (hv.eq_iff_testBit hw).mpr
  refine ⟨hwidth, fun i _ => ?_⟩
  rw [← testBit_value, ← testBit_value, hvalue]

theorem wellFormed_zero (width : Nat) : (zero width).WellFormed where
  length_limbs := List.length_replicate
  value_lt := (value_lt_iff_testBit _).mpr fun i _ => testBit_zero width i

theorem WellFormed.splice {w : Word} (hw : w.WellFormed) {lo length : Nat} (bits : BitVec 64)
    (hpos : 0 < length) (hlength : length ≤ 64) (hrange : lo + length ≤ w.width) :
    (w.splice lo length bits).WellFormed where
  length_limbs := by rw [length_limbs_splice, width_splice, hw.length_limbs]
  value_lt := by
    rw [value_lt_iff_testBit, width_splice]
    intro i hi
    rw [testBit_splice w lo length bits i hw.length_limbs hpos hlength hrange, if_neg (by omega),
      hw.testBit_of_ge hi]

end Word

end Bitpack
