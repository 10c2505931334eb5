import Bitpack.Proofs.Word.Hex
import Bitpack.WordFile

/-!
Files of words, written and read. Every word is one line, and well-formed words of one width are read
back as they were.
-/
namespace Bitpack.WordFile

theorem lines_append {line : List Char} (hline : '\n' ∉ line) (rest : List Char) :
    lines (line ++ '\n' :: rest) = line :: lines rest := by
  induction line with
  | nil => rfl
  | cons c line ih =>
      have hc : c ≠ '\n' := fun heq => hline (heq ▸ List.mem_cons_self)
      rw [List.cons_append, lines, if_neg hc, ih fun hmem => hline (List.mem_cons_of_mem _ hmem)]

theorem not_lineFeed_mem_hexChars {w : Word} (hw : w.WellFormed) : '\n' ∉ w.hexChars := by
  intro hmem
  have hblank := Word.isBlank_of_mem_hexChars hw hmem
  exact absurd hblank (by decide)

theorem isWordLine_hexChars {w : Word} (hw : w.WellFormed) : isWordLine w.hexChars = true := by
  unfold isWordLine
  rw [Text.trim_of_not_blank fun c hc => Word.isBlank_of_mem_hexChars hw hc]
  rfl

theorem lines_write {words : List Word} (hwords : ∀ w ∈ words, w.WellFormed) :
    lines (write words).toList = words.map Word.hexChars := by
  unfold write
  rw [String.toList_ofList]
  induction words with
  | nil => rfl
  | cons w rest ih =>
      have hw := hwords w List.mem_cons_self
      have hrest := ih fun v hv => hwords v (List.mem_cons_of_mem _ hv)
      rw [List.flatMap_cons, List.append_assoc, List.singleton_append,
        lines_append (not_lineFeed_mem_hexChars hw), hrest, List.map_cons]

theorem readLines_hexChars {words : List Word} {width : Nat}
    (hwords : ∀ w ∈ words, w.WellFormed ∧ w.width = width) (number : Nat) :
    readLines width number (words.map Word.hexChars) = .ok words := by
  induction words generalizing number with
  | nil => rfl
  | cons w rest ih =>
      obtain ⟨hw, hwidth⟩ := hwords w List.mem_cons_self
      have hword : Word.ofHexChars w.hexChars width = .ok w := hwidth ▸ Word.ofHexChars_hexChars hw
      rw [List.map_cons, readLines, if_pos (isWordLine_hexChars hw), hword]
      dsimp only
      rw [ih fun v hv => hwords v (List.mem_cons_of_mem _ hv)]
      rfl

theorem read_write {words : List Word} {width : Nat}
    (hwords : ∀ w ∈ words, w.WellFormed ∧ w.width = width) :
    read (write words) width = .ok words := by
  unfold read
  rw [lines_write fun w hw => (hwords w hw).1]
  exact readLines_hexChars hwords 1

end Bitpack.WordFile
