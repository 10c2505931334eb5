import Bitpack.Npy.Descr
import Bitpack.Proofs.Text.Decimal

/-!
Descriptions of types as text. What is printed is read back, except that a single byte loses its order,
and printing what was read from a printed text changes nothing more.
-/
namespace Bitpack.Npy.Descr

/-- The description that a text gives back: a single byte has no order. -/
def canonical (d : Descr) : Descr :=
  if d.wordSize = 1 then { d with bigEndian := false } else d

@[simp] theorem kind_canonical (d : Descr) : d.canonical.kind = d.kind := by
  unfold canonical
  split <;> rfl

@[simp] theorem wordSize_canonical (d : Descr) : d.canonical.wordSize = d.wordSize := by
  unfold canonical
  split <;> rfl

theorem text_canonical (d : Descr) : d.canonical.text = d.text := by
  unfold canonical
  split
  · rename_i hsize
    simp only [text, chars, hsize, if_true]
  · rfl

theorem parseChars_eq_ok_iff {text : List Char} {d : Descr} :
    parseChars text = .ok d ↔
      ∃ size, order text = (d.bigEndian, d.kind :: size) ∧ Text.Decimal size d.wordSize ∧
        d.wordSize < 2 ^ 64 := by
  unfold parseChars
  constructor
  · intro hread
    split at hread
    · cases hread
    · rename_i bigEndian kind size horder
      split at hread
      · rename_i n hnumber
        cases hread
        exact ⟨size, horder, Text.parse?_eq_some_iff.mp hnumber⟩
      · cases hread
  · rintro ⟨size, horder, hnumber⟩
    rw [horder]
    dsimp only
    rw [Text.parse?_eq_some_iff.mpr hnumber]

theorem order_chars (d : Descr) :
    order d.chars = (d.canonical.bigEndian, d.kind :: Text.digits d.wordSize) := by
  unfold chars canonical
  by_cases hsize : d.wordSize = 1
  · rw [if_pos hsize, if_pos hsize]
    rfl
  · rw [if_neg hsize, if_neg hsize]
    cases hmark : d.bigEndian <;> rfl

theorem parse_text {d : Descr} (hsize : d.wordSize < 2 ^ 64) : parse d.text = .ok d.canonical := by
  unfold parse text
  rw [String.toList_ofList, parseChars_eq_ok_iff, kind_canonical, wordSize_canonical]
  exact ⟨_, order_chars d, Text.decimal_digits _, hsize⟩

/-- Every description with a size below `2^64` is read back from its text, with no order where it is a
single byte; and whatever text a description is read from, its own text gives back the letter and the
size, and is printed again as it is. -/
theorem read_back_text :
    (∀ d : Descr, d.wordSize < 2 ^ 64 →
      parse d.text = .ok (if d.wordSize = 1 then { d with bigEndian := false } else d)) ∧
    ∀ (content : String) (d : Descr), parse content = .ok d →
      ∃ d', parse d.text = .ok d' ∧ d'.kind = d.kind ∧ d'.wordSize = d.wordSize ∧
        d'.text = d.text := by
  refine ⟨fun d hsize => parse_text hsize, fun content d hread => ?_⟩
  obtain ⟨size, -, -, hsize⟩ := parseChars_eq_ok_iff.mp hread
  exact ⟨d.canonical, parse_text hsize, kind_canonical d, wordSize_canonical d, text_canonical d⟩

theorem read_back_text_marks :
    parse (Descr.text ⟨'<', 1, true⟩) = .ok ⟨'<', 1, false⟩ ∧
      parse "=>+012" = .ok ⟨'>', 12, false⟩ ∧
      ∃ d, parse (Descr.text ⟨'>', 12, false⟩) = .ok d ∧ d.kind = '>' ∧ d.wordSize = 12 ∧
        d.text = Descr.text ⟨'>', 12, false⟩ := by
  have hread : parse "=>+012" = .ok ⟨'>', 12, false⟩ := by rfl
  exact ⟨read_back_text.1 ⟨'<', 1, true⟩ (by decide), hread, read_back_text.2 _ _ hread⟩

end Bitpack.Npy.Descr
