import Bitpack.Proofs.Word.HexReading
import Bitpack.Proofs.Word.Slots

/-!
Words as hexadecimal text. The text of a well-formed word is read back as the word, and what was read
from any text is written as a text of the same number.
-/
namespace Bitpack.Word

theorem WellFormed.nibble_eq {w : Word} (hw : w.WellFormed) (i : Nat) :
    w.nibble i = w.slotValue i 4 := by
  apply Nat.eq_of_testBit_eq
  intro t
  rw [testBit_slotValue, Nat.mul_comm]
  unfold nibble
  split
  · rename_i hi
    rw [BitVec.testBit_toNat, getLsbD_slice _ _ _ _ (by omega)]
    by_cases hwidth : 4 * i + t < w.width
    · rw [show decide (t < min 4 (w.width - 4 * i)) = decide (t < 4) from
        decide_eq_decide.mpr (by omega)]
    · rw [hw.testBit_of_ge (by omega), Bool.and_false, Bool.and_false]
  · rw [hw.testBit_of_ge (by omega), Bool.and_false, Nat.zero_testBit]

theorem ofDigits_slotValue (w : Word) (n : Nat) :
    Nat.ofDigits 16 ((List.range n).map (w.slotValue · 4)) = w.value % 2 ^ (n * 4) := by
  rw [value_mod_eq_sum]
  induction n with
  | zero => rfl
  | succ n ih =>
      rw [List.range_succ, List.map_append, Nat.ofDigits_append, ih, List.map_append,
        List.sum_append, List.length_map, List.length_range,
        show 16 ^ n = 2 ^ (n * 4) by rw [Nat.mul_comm, Nat.pow_mul]]
      simp [Nat.mul_comm]

theorem reverse_hexDigits {w : Word} (hw : w.WellFormed) :
    w.hexDigits.reverse =
      ((List.range (nibbleCount w.width)).map (w.slotValue · 4)).map Nat.digitChar := by
  unfold hexDigits
  rw [List.reverse_reverse, List.map_map]
  apply List.map_congr_left
  intro i _
  rw [hw.nibble_eq, Function.comp_apply]

theorem length_hexDigits (w : Word) : w.hexDigits.length = nibbleCount w.width := by
  rw [hexDigits, List.length_reverse, List.length_map, List.length_range]

theorem exists_of_mem_hexDigits {w : Word} (hw : w.WellFormed) {c : Char} (hc : c ∈ w.hexDigits) :
    ∃ n, n < 16 ∧ c = n.digitChar := by
  rw [← List.mem_reverse, reverse_hexDigits hw] at hc
  obtain ⟨n, hn, rfl⟩ := List.mem_map.mp hc
  obtain ⟨i, _, rfl⟩ := List.mem_map.mp hn
  exact ⟨_, slotValue_lt w i 4, rfl⟩

theorem isBlank_of_mem_hexChars {w : Word} (hw : w.WellFormed) {c : Char} (hc : c ∈ w.hexChars) :
    Text.isBlank c = false := by
  unfold hexChars at hc
  rcases List.mem_cons.mp hc with rfl | hc
  · decide
  · rcases List.mem_cons.mp hc with rfl | hc
    · decide
    · obtain ⟨n, hn, rfl⟩ := exists_of_mem_hexDigits hw hc
      exact Text.isBlank_digitChar hn

theorem digitValues_map_digitChar {values : List Nat} (h : ∀ n ∈ values, n < 16) :
    digitValues (values.map Nat.digitChar) = values := by
  induction values with
  | nil => rfl
  | cons n rest ih =>
      have hn := h n List.mem_cons_self
      have hrest := ih fun m hm => h m (List.mem_cons_of_mem _ hm)
      unfold digitValues at hrest ⊢
      rw [List.map_cons, List.filter_cons_of_pos (by simp [Text.digitChar_ne_underscore hn]),
        List.map_cons, hrest, Text.hexValue, Text.hexValue?_digitChar hn, Option.getD_some]

theorem digitValues_hexDigits {w : Word} (hw : w.WellFormed) :
    digitValues w.hexDigits.reverse = (List.range (nibbleCount w.width)).map (w.slotValue · 4) := by
  rw [reverse_hexDigits hw]
  apply digitValues_map_digitChar
  intro n hn
  obtain ⟨i, _, rfl⟩ := List.mem_map.mp hn
  exact slotValue_lt w i 4

theorem spelled_hexDigits {w : Word} (hw : w.WellFormed) : spelled w.hexDigits = w.value := by
  have hwidth : w.width ≤ nibbleCount w.width * 4 := by
    unfold nibbleCount
    omega
  rw [spelled, digitValues_hexDigits hw, ofDigits_slotValue, Nat.mod_eq_of_lt]
  exact Nat.lt_of_lt_of_le hw.value_lt (Nat.pow_le_pow_right (by decide) hwidth)

theorem spells_hexDigits {w : Word} (hw : w.WellFormed) : Spells w.hexDigits w.width w where
  only_digits := by
    intro c hc
    obtain ⟨n, hn, rfl⟩ := exists_of_mem_hexDigits hw hc
    exact Or.inr (by rw [Text.hexValue?_digitChar hn]; rfl)
  nonempty := by
    rw [digitValues_hexDigits hw, ← List.length_pos_iff, List.length_map, List.length_range]
    unfold nibbleCount
    omega
  width_eq := rfl
  wellFormed := hw
  value_eq := (spelled_hexDigits hw).symm

theorem ofHexChars_hexChars {w : Word} (hw : w.WellFormed) :
    ofHexChars w.hexChars w.width = .ok w := by
  have hmark : dropMark (Text.trim w.hexChars) = w.hexDigits := by
    rw [Text.trim_of_not_blank fun c hc => isBlank_of_mem_hexChars hw hc]
    rfl
  rw [ofHexChars_eq_ok_iff, hmark]
  exact spells_hexDigits hw

theorem ofHex_toHex {w : Word} (hw : w.WellFormed) : ofHex w.toHex w.width = .ok w := by
  rw [ofHex, toHex, String.toList_ofList]
  exact ofHexChars_hexChars hw

/-- The number that a text denotes. White space around it, one mark and the underscores count for
nothing. -/
def denoted (text : String) : Nat :=
  spelled (dropMark (Text.trim text.toList))

theorem eq_iff_denoted_eq {text other : String} {width : Nat} {w v : Word}
    (hw : ofHex text width = .ok w) (hv : ofHex other width = .ok v) :
    w = v ↔ denoted text = denoted other := by
  have hwspells := spells_of_ofHexChars hw
  have hvspells := spells_of_ofHexChars hv
  constructor
  · rintro rfl
    exact hwspells.value_eq.symm.trans hvspells.value_eq
  · exact hwspells.eq_of_spelled hvspells

/-- Text and words are inverse to each other. A well-formed word of any width is written with one
lower-case digit for every started group of four bits, at least one, which spell its value, and is read
back. What was read from any text is written and read as the same word, and two texts are read as one
word exactly if they denote one number. -/
theorem hex_text_inverse :
    (∀ w : Word, w.WellFormed →
      (∃ digits, w.toHex.toList = '0' :: 'x' :: digits ∧
        digits.length = max 1 ((w.width + 3) / 4) ∧
        (∀ c ∈ digits, '0' ≤ c ∧ c ≤ '9' ∨ 'a' ≤ c ∧ c ≤ 'f') ∧ spelled digits = w.value) ∧
      ofHex w.toHex w.width = .ok w) ∧
    ∀ (width : Nat) (text : String) (w : Word), ofHex text width = .ok w →
      w.value = denoted text ∧ ofHex w.toHex width = .ok w ∧
        ∀ (other : String) (v : Word), ofHex other width = .ok v →
          (w = v ↔ denoted text = denoted other) := by
  refine ⟨fun w hw => ⟨⟨w.hexDigits, String.toList_ofList, length_hexDigits w, fun c hc => ?_,
    spelled_hexDigits hw⟩, ofHex_toHex hw⟩, fun width text w hread => ⟨?_, ?_, fun other v hv => ?_⟩⟩
  · obtain ⟨n, hn, rfl⟩ := exists_of_mem_hexDigits hw hc
    exact Text.digitChar_lower hn
  · exact (spells_of_ofHexChars hread).value_eq
  · obtain ⟨-, -, rfl, hwf, -⟩ := spells_of_ofHexChars hread
    exact ofHex_toHex hwf
  · exact eq_iff_denoted_eq hread hv

theorem hex_text_inverse_no_bits :
    (zero 0).WellFormed ∧ (zero 0).toHex = "0x0" ∧ ofHex (zero 0).toHex 0 = .ok (zero 0) ∧
      ofHex " 0X00_1aB " 9 = .ok ⟨9, [0x1ab]⟩ ∧ toHex ⟨9, [0x1ab]⟩ = "0x1ab" ∧
      ofHex (toHex ⟨9, [0x1ab]⟩) 9 = .ok ⟨9, [0x1ab]⟩ := by
  obtain ⟨hwrite, hread⟩ := hex_text_inverse
  have htext : ofHex " 0X00_1aB " 9 = .ok ⟨9, [0x1ab]⟩ := by rfl
  exact ⟨wellFormed_zero 0, by rfl, (hwrite _ (wellFormed_zero 0)).2, htext, by rfl,
    (hread 9 _ _ htext).2.1⟩

end Bitpack.Word
