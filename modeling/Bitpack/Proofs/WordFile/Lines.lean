import Bitpack.Proofs.Text.Blank
import Bitpack.Proofs.WordFile

/-!
The lines of any text, read as words. A line is blank, or a comment, or it has to be a word; where lines
end with a carriage return, or have white space around them, the words are the same.
-/
namespace Bitpack.WordFile

/-- White space only, or a first character `#` behind it. -/
def Skipped (line : List Char) : Prop :=
  Text.Blank line ∨ ∃ before rest, Text.Blank before ∧ line = before ++ '#' :: rest

theorem isWordLine_eq_false_iff {line : List Char} : isWordLine line = false ↔ Skipped line := by
  unfold isWordLine
  rcases Text.blank_or_exists_first line with hblank | ⟨before, c, rest, hbefore, hc, rfl⟩
  · rw [Text.trim_of_blank hblank]
    exact iff_of_true rfl (.inl hblank)
  · obtain ⟨tail, htrim⟩ := Text.exists_trim_eq_cons hbefore hc rest
    rw [htrim]
    simp only [ne_eq, decide_not, Bool.not_eq_false', decide_eq_true_eq]
    constructor
    · rintro rfl
      exact .inr ⟨before, rest, hbefore, rfl⟩
    · rintro (hblank | ⟨other, more, hother, heq⟩)
      · exact absurd (hblank c (List.mem_append_right _ List.mem_cons_self)) (by rw [hc]; decide)
      · obtain ⟨tail', htrim'⟩ :=
          Text.exists_trim_eq_cons hother (by decide : Text.isBlank '#' = false) more
        rw [← heq, htrim] at htrim'
        exact (List.cons.inj htrim').1

instance (line : List Char) : Decidable (Skipped line) :=
  decidable_of_iff _ isWordLine_eq_false_iff

theorem isWordLine_eq_true_iff {line : List Char} : isWordLine line = true ↔ ¬Skipped line := by
  rw [← isWordLine_eq_false_iff, Bool.not_eq_false]

/-- The lines that have to be words. -/
def remaining (lines : List (List Char)) : List (List Char) :=
  lines.filter fun line => ¬Skipped line

theorem remaining_cons_of_skipped {line : List Char} (hline : Skipped line)
    (lines : List (List Char)) : remaining (line :: lines) = remaining lines :=
  List.filter_cons_of_neg (by simpa using hline)

theorem remaining_cons {line : List Char} (hline : ¬Skipped line) (lines : List (List Char)) :
    remaining (line :: lines) = line :: remaining lines :=
  List.filter_cons_of_pos (by simpa using hline)

def Reads (width : Nat) (lines : List (List Char)) (words : List Word) : Prop :=
  (remaining lines).map (Word.ofHexChars · width) = words.map .ok

/-- The first line that is neither skipped nor a word, counted from one. -/
def FirstRejected (width : Nat) (lines : List (List Char)) (number : Nat) (e : Error) : Prop :=
  ∃ before line after, lines = before ++ line :: after ∧ number = before.length + 1 ∧
    ¬Skipped line ∧ Word.ofHexChars line width = .error e ∧
    ∀ earlier ∈ before, Skipped earlier ∨ ∃ w, Word.ofHexChars earlier width = .ok w

section

variable {width : Nat} {line : List Char} {lines : List (List Char)} {words : List Word} {w : Word}
  {e : Error}

theorem Reads.skip (hline : Skipped line) (h : Reads width lines words) :
    Reads width (line :: lines) words := by
  unfold Reads
  rw [remaining_cons_of_skipped hline]
  exact h

theorem Reads.cons (hline : ¬Skipped line) (hw : Word.ofHexChars line width = .ok w)
    (h : Reads width lines words) : Reads width (line :: lines) (w :: words) := by
  unfold Reads
  rw [remaining_cons hline, List.map_cons, List.map_cons, hw, h]

theorem FirstRejected.cons {number : Nat}
    (hline : Skipped line ∨ ∃ w, Word.ofHexChars line width = .ok w)
    (h : FirstRejected width lines number e) :
    FirstRejected width (line :: lines) (number + 1) e := by
  obtain ⟨before, rejected, after, rfl, rfl, hrejected, he, hbefore⟩ := h
  exact ⟨line :: before, rejected, after, rfl, rfl, hrejected, he,
    List.forall_mem_cons.mpr ⟨hline, hbefore⟩⟩

theorem reads_or_firstRejected (width : Nat) (lines : List (List Char)) :
    (∃ words, Reads width lines words) ∨ ∃ number e, FirstRejected width lines number e := by
  induction lines with
  | nil => exact .inl ⟨[], rfl⟩
  | cons line rest ih =>
      by_cases hskipped : Skipped line
      · rcases ih with ⟨words, hwords⟩ | ⟨number, e, hfirst⟩
        · exact .inl ⟨words, hwords.skip hskipped⟩
        · exact .inr ⟨number + 1, e, hfirst.cons (.inl hskipped)⟩
      · cases hw : Word.ofHexChars line width with
        | error e => exact .inr ⟨1, e, [], line, rest, rfl, rfl, hskipped, hw, by simp⟩
        | ok w =>
            rcases ih with ⟨words, hwords⟩ | ⟨number, e, hfirst⟩
            · exact .inl ⟨w :: words, hwords.cons hskipped hw⟩
            · exact .inr ⟨number + 1, e, hfirst.cons (.inr ⟨w, hw⟩)⟩

theorem readLines_skip (hline : Skipped line) (number : Nat) :
    readLines width number (line :: lines) = readLines width (number + 1) lines := by
  rw [readLines, if_neg (by rw [isWordLine_eq_true_iff, not_not]; exact hline)]

theorem readLines_word (hline : ¬Skipped line) (hw : Word.ofHexChars line width = .ok w)
    (number : Nat) :
    readLines width number (line :: lines) =
      (readLines width (number + 1) lines).map (w :: ·) := by
  rw [readLines, if_pos (isWordLine_eq_true_iff.mpr hline), hw]

theorem readLines_reject (hline : ¬Skipped line) (he : Word.ofHexChars line width = .error e)
    (number : Nat) : readLines width number (line :: lines) = .error (number, e) := by
  rw [readLines, if_pos (isWordLine_eq_true_iff.mpr hline), he]

theorem Reads.readLines_eq (h : Reads width lines words) (number : Nat) :
    readLines width number lines = .ok words := by
  induction lines generalizing number words with
  | nil =>
      obtain rfl : words = [] := List.map_eq_nil_iff.mp h.symm
      rfl
  | cons line rest ih =>
      unfold Reads at h
      by_cases hskipped : Skipped line
      · rw [remaining_cons_of_skipped hskipped] at h
        rw [readLines_skip hskipped]
        exact ih h (number + 1)
      · rw [remaining_cons hskipped, List.map_cons] at h
        obtain ⟨w, more, rfl, hw, hmore⟩ := List.map_eq_cons_iff.mp h.symm
        rw [readLines_word hskipped hw.symm, ih hmore.symm]
        rfl

theorem FirstRejected.readLines_eq {number : Nat} (h : FirstRejected width lines number e)
    (first : Nat) : readLines width (first + 1) lines = .error (first + number, e) := by
  obtain ⟨before, line, after, rfl, rfl, hline, he, hbefore⟩ := h
  induction before generalizing first with
  | nil => exact readLines_reject hline he (first + 1)
  | cons earlier before ih =>
      obtain ⟨hearlier, hrest⟩ := List.forall_mem_cons.mp hbefore
      have hread : readLines width (first + 1 + 1) (before ++ line :: after) =
          .error (first + (before.length + 1 + 1), e) := by
        rw [ih (first + 1) hrest, Nat.add_assoc first, Nat.add_comm 1]
      rw [List.cons_append, List.length_cons]
      by_cases hskipped : Skipped earlier
      · rw [readLines_skip hskipped]
        exact hread
      · obtain ⟨w, hw⟩ := hearlier.resolve_left hskipped
        rw [readLines_word hskipped hw, hread]
        rfl

theorem readLines_eq_ok_iff {number : Nat} :
    readLines width (number + 1) lines = .ok words ↔ Reads width lines words := by
  constructor
  · intro h
    rcases reads_or_firstRejected width lines with ⟨words', hwords'⟩ | ⟨i, e, hfirst⟩
    · cases h.symm.trans (hwords'.readLines_eq (number + 1))
      exact hwords'
    · cases h.symm.trans (hfirst.readLines_eq number)
  · intro h
    exact h.readLines_eq (number + 1)

end

theorem isWordLine_trim (line : List Char) : isWordLine (Text.trim line) = isWordLine line := by
  unfold isWordLine
  rw [Text.trim_trim]

theorem skipped_iff_of_trim_eq {line other : List Char} (h : Text.trim line = Text.trim other) :
    Skipped line ↔ Skipped other := by
  rw [← isWordLine_eq_false_iff, ← isWordLine_eq_false_iff, ← isWordLine_trim, h, isWordLine_trim]

theorem ofHexChars_trim (line : List Char) (width : Nat) :
    Word.ofHexChars (Text.trim line) width = Word.ofHexChars line width := by
  unfold Word.ofHexChars
  rw [Text.trim_trim]

theorem readLines_map_trim (width number : Nat) (lines : List (List Char)) :
    readLines width number (lines.map Text.trim) = readLines width number lines := by
  induction lines generalizing number with
  | nil => rfl
  | cons line rest ih =>
      rw [List.map_cons, readLines, readLines, isWordLine_trim, ofHexChars_trim, ih]

theorem Reads.of_trim_eq {width : Nat} {lines others : List (List Char)} {words : List Word}
    (h : (remaining lines).map Text.trim = (remaining others).map Text.trim)
    (hothers : Reads width others words) : Reads width lines words := by
  have htrim : ∀ ls : List (List Char), ls.map (Word.ofHexChars · width) =
      (ls.map Text.trim).map (Word.ofHexChars · width) := by
    intro ls
    rw [List.map_map]
    exact List.map_congr_left fun line _ => (ofHexChars_trim line width).symm
  unfold Reads at hothers ⊢
  rw [htrim, h, ← htrim, hothers]

def IsEnding (ending : List Char) : Prop :=
  ending = ['\n'] ∨ ending = ['\r', '\n']

/-- The lines of a text without their endings, to which a carriage return in front of the line feed
belongs. The last line may have no ending. -/
inductive Splits : List Char → List (List Char) → Prop
  | nil : Splits [] []
  | unended {line : List Char} : line ≠ [] → '\n' ∉ line → Splits line [line]
  | lineFeed {line rest : List Char} {lines : List (List Char)} : '\n' ∉ line →
    line.getLast? ≠ some '\r' → Splits rest lines → Splits (line ++ '\n' :: rest) (line :: lines)
  | carriageReturn {line rest : List Char} {lines : List (List Char)} : '\n' ∉ line →
    Splits rest lines → Splits (line ++ '\r' :: '\n' :: rest) (line :: lines)

theorem exists_splits (text : List Char) : ∃ lines, Splits text lines := by
  induction hlength : text.length using Nat.strong_induction_on generalizing text with
  | h n ih =>
      by_cases hfeed : '\n' ∈ text
      · obtain ⟨line, rest, rfl, hline⟩ := List.eq_append_cons_of_mem hfeed
        obtain ⟨lines, hlines⟩ := ih rest.length
          (by rw [← hlength, List.length_append, List.length_cons]; omega) rest rfl
        by_cases hlast : line.getLast? = some '\r'
        · obtain ⟨front, rfl⟩ := List.getLast?_eq_some_iff.mp hlast
          rw [List.append_assoc]
          exact ⟨_, .carriageReturn (fun hmem => hline (List.mem_append_left _ hmem)) hlines⟩
        · exact ⟨_, .lineFeed hline hlast hlines⟩
      · by_cases hempty : text = []
        · exact ⟨[], hempty ▸ .nil⟩
        · exact ⟨[text], .unended hempty hfeed⟩

theorem lines_of_not_mem {line : List Char} (hempty : line ≠ []) (hline : '\n' ∉ line) :
    lines line = [line] := by
  induction line with
  | nil => exact absurd rfl hempty
  | cons c line ih =>
      have hc : c ≠ '\n' := fun heq => hline (heq ▸ List.mem_cons_self)
      rw [lines, if_neg hc]
      by_cases hrest : line = []
      · rw [hrest, lines]
      · rw [ih hrest fun hmem => hline (List.mem_cons_of_mem _ hmem)]

theorem lines_ended {line ending : List Char} (hline : '\n' ∉ line) (hending : IsEnding ending)
    (rest : List Char) :
    ∃ tail, Text.Blank tail ∧ lines (line ++ ending ++ rest) = (line ++ tail) :: lines rest := by
  rcases hending with rfl | rfl
  · refine ⟨[], by decide, ?_⟩
    rw [List.append_assoc, List.append_nil]
    exact lines_append hline rest
  · refine ⟨['\r'], by decide, ?_⟩
    have hmem : '\n' ∉ line ++ ['\r'] := by
      rw [List.mem_append, not_or]
      exact ⟨hline, by decide⟩
    rw [← lines_append hmem rest, List.append_assoc, List.append_assoc]
    rfl

theorem Splits.map_trim_lines {text : List Char} {ls : List (List Char)} (h : Splits text ls) :
    (lines text).map Text.trim = ls.map Text.trim := by
  induction h with
  | nil => rfl
  | unended hempty hline => rw [lines_of_not_mem hempty hline]
  | lineFeed hline _ _ ih => rw [lines_append hline, List.map_cons, List.map_cons, ih]
  | @carriageReturn line rest lines hline _ ih =>
      obtain ⟨tail, htail, hlines⟩ := lines_ended hline (.inr rfl) rest
      rw [List.append_assoc] at hlines
      rw [show '\r' :: '\n' :: rest = ['\r', '\n'] ++ rest from rfl, hlines, List.map_cons, List.map_cons,
        ih, Text.trim_append_right _ htail]

theorem Splits.read_eq {text : String} {ls : List (List Char)} (h : Splits text.toList ls)
    (width : Nat) : read text width = readLines width 1 ls := by
  unfold read
  rw [← readLines_map_trim, h.map_trim_lines, readLines_map_trim]

/-- A text is another one with lines that say nothing among its lines, with white space around its
lines and with any endings. -/
inductive Annotates : List Char → List Char → Prop
  | finish {line : List Char} : '\n' ∉ line → Skipped line → Annotates [] line
  | insert {line ending original text : List Char} : '\n' ∉ line → Skipped line → IsEnding ending →
    Annotates original text → Annotates original (line ++ ending ++ text)
  | keep {line before after ending original text : List Char} : '\n' ∉ line →
    '\n' ∉ before → Text.Blank before → '\n' ∉ after → Text.Blank after → IsEnding ending →
    Annotates original text →
    Annotates (line ++ '\n' :: original) (before ++ line ++ after ++ ending ++ text)

theorem Annotates.remaining_trim {original text : List Char} (h : Annotates original text) :
    (remaining (lines text)).map Text.trim = (remaining (lines original)).map Text.trim := by
  induction h with
  | @finish line hline hskipped =>
      by_cases hempty : line = []
      · rw [hempty]
      · rw [lines_of_not_mem hempty hline, remaining_cons_of_skipped hskipped]
        rfl
  | @insert line ending original text hline hskipped hending _ ih =>
      obtain ⟨tail, htail, hlines⟩ := lines_ended hline hending text
      have htrim : Text.trim (line ++ tail) = Text.trim line := Text.trim_append_right _ htail
      rw [hlines, remaining_cons_of_skipped ((skipped_iff_of_trim_eq htrim).mpr hskipped), ih]
  | @keep line before after ending original text hline hbefore hblank hafter hblank' hending _ ih =>
      have hmem : '\n' ∉ before ++ line ++ after := by
        simp only [List.mem_append, not_or]
        exact ⟨⟨hbefore, hline⟩, hafter⟩
      obtain ⟨tail, htail, hlines⟩ := lines_ended hmem hending text
      have htrim : Text.trim (before ++ line ++ after ++ tail) = Text.trim line := by
        rw [Text.trim_append_right _ htail, Text.trim_append hblank _ hblank']
      rw [hlines, lines_append hline]
      by_cases hskipped : Skipped line
      · rw [remaining_cons_of_skipped hskipped,
          remaining_cons_of_skipped ((skipped_iff_of_trim_eq htrim).mpr hskipped), ih]
      · rw [remaining_cons hskipped, remaining_cons (mt (skipped_iff_of_trim_eq htrim).mp hskipped),
          List.map_cons, List.map_cons, htrim, ih]

theorem read_annotated {words : List Word} {width : Nat}
    (hwords : ∀ w ∈ words, w.WellFormed ∧ w.width = width) {text : String}
    (h : Annotates (write words).toList text.toList) : read text width = .ok words :=
  readLines_eq_ok_iff.mpr (.of_trim_eq h.remaining_trim (readLines_eq_ok_iff.mp (read_write hwords)))

end Bitpack.WordFile
