import Bitpack.Proofs.Command.Console
import Bitpack.Proofs.Files.Tree
import Bitpack.Proofs.WordFile.Lines

/-!
Word files that were not written by a command, or were edited since: what reading them gives.
-/
namespace Bitpack.Console

variable {t : FileTree} {printed : String}

/-- Words are read back from the text that was written for them, whatever blank lines, comments and
white space were added to it and however its lines end. Any text is read line by line: either all lines
that are not skipped are words, and these are the result, or the first one that is none is reported by
its number among all lines. -/
theorem readWords_any_text {path text : String}
    (hread : t.read ⟨path⟩ = .ok (Bytes.ofText text)) (width : Nat) :
    (∀ words : List Word, (∀ w ∈ words, w.WellFormed ∧ w.width = width) →
      WordFile.Annotates (WordFile.write words).toList text.toList →
        outcome (readWords path width : Console (StateM FileTree) (List Word)) printed t =
          (.ok words, printed, t)) ∧
      (∃ lines, WordFile.Splits text.toList lines) ∧
      ∀ lines, WordFile.Splits text.toList lines →
        ((∃ words, WordFile.Reads width lines words) ∨
          ∃ number e, WordFile.FirstRejected width lines number e) ∧
        (∀ words, WordFile.Reads width lines words →
          outcome (readWords path width : Console (StateM FileTree) (List Word)) printed t =
            (.ok words, printed, t)) ∧
        ∀ number e, WordFile.FirstRejected width lines number e →
          outcome (readWords path width : Console (StateM FileTree) (List Word)) printed t =
            (.error [.context (.badWord path number), .error e], printed, t) := by
  refine ⟨?_, WordFile.exists_splits text.toList, ?_⟩
  · intro words hwords hannotated
    exact outcome_readWords_ok hread (WordFile.read_annotated hwords hannotated)
  · intro lines hlines
    refine ⟨WordFile.reads_or_firstRejected width lines, ?_, ?_⟩
    · intro words hwords
      exact outcome_readWords_ok hread ((hlines.read_eq width).trans (hwords.readLines_eq 1))
    · intro number e hfirst
      have herror := hfirst.readLines_eq 0
      rw [Nat.zero_add, Nat.zero_add] at herror
      exact outcome_readWords_error hread ((hlines.read_eq width).trans herror)

def annotatedText : String :=
  "# three\r\n\r\n 0x1ff\t\r\n  #\n0x000\r\n\t0x0a5\n"

def annotatedTree : FileTree :=
  ⟨[(["words.txt"], .file (Bytes.ofText annotatedText)),
    (["more.txt"], .file (Bytes.ofText (annotatedText ++ "\n0x200\nzz")))], []⟩

theorem annotates_annotatedText :
    WordFile.Annotates (WordFile.write [⟨9, [0x1ff]⟩, ⟨9, [0]⟩, ⟨9, [0xa5]⟩]).toList
      annotatedText.toList := by
  have hwritten : (WordFile.write [⟨9, [0x1ff]⟩, ⟨9, [0]⟩, ⟨9, [0xa5]⟩]).toList =
      "0x1ff".toList ++ '\n' :: ("0x000".toList ++ '\n' :: ("0x0a5".toList ++ '\n' :: [])) := by
    decide +kernel
  have htext : annotatedText.toList = "# three".toList ++ ['\r', '\n'] ++ ([] ++ ['\r', '\n'] ++
      ([' '] ++ "0x1ff".toList ++ ['\t'] ++ ['\r', '\n'] ++ ("  #".toList ++ ['\n'] ++
        ([] ++ "0x000".toList ++ [] ++ ['\r', '\n'] ++
          (['\t'] ++ "0x0a5".toList ++ [] ++ ['\n'] ++ []))))) := by
    decide +kernel
  rw [hwritten, htext]
  refine .insert (by decide) (by decide) (.inr rfl) (.insert (by decide) (by decide) (.inr rfl) ?_)
  refine .keep (by decide) (by decide) (by decide) (by decide) (by decide) (.inr rfl) ?_
  refine .insert (by decide) (by decide) (.inl rfl) ?_
  refine .keep (by decide) (by decide) (by decide) (by decide) (by decide) (.inr rfl) ?_
  refine .keep (by decide) (by decide) (by decide) (by decide) (by decide) (.inl rfl) ?_
  exact .finish (by decide) (by decide)

def linesBefore : List (List Char) :=
  ["# three".toList, [], " 0x1ff\t".toList, "  #".toList, "0x000".toList, "\t0x0a5".toList, []]

theorem splits_annotatedText :
    WordFile.Splits (annotatedText ++ "\n0x200\nzz").toList
      (linesBefore ++ "0x200".toList :: ["zz".toList]) := by
  have htext : (annotatedText ++ "\n0x200\nzz").toList = "# three".toList ++ '\r' :: '\n' :: ([] ++
      '\r' :: '\n' :: (" 0x1ff\t".toList ++ '\r' :: '\n' :: ("  #".toList ++ '\n' ::
        ("0x000".toList ++ '\r' :: '\n' :: ("\t0x0a5".toList ++ '\n' :: ([] ++ '\n' ::
          ("0x200".toList ++ '\n' :: "zz".toList))))))) := by
    decide +kernel
  rw [htext]
  refine .carriageReturn (by decide) (.carriageReturn (by decide) (.carriageReturn (by decide) ?_))
  refine .lineFeed (by decide) (by decide) (.carriageReturn (by decide) ?_)
  refine .lineFeed (by decide) (by decide) (.lineFeed (by decide) (by decide) ?_)
  exact .lineFeed (by decide) (by decide) (.unended (by decide) (by decide))

theorem firstRejected_annotatedText :
    WordFile.FirstRejected 9 (linesBefore ++ "0x200".toList :: ["zz".toList]) 8
      (.format (.wordOverflow 9)) := by
  have hspoken : ∀ earlier ∈ linesBefore,
      WordFile.Skipped earlier ∨ (Word.ofHexChars earlier 9).toOption.isSome = true := by
    decide +kernel
  refine ⟨linesBefore, "0x200".toList, ["zz".toList], rfl, rfl, by decide, by decide +kernel, ?_⟩
  intro earlier hearlier
  refine (hspoken earlier hearlier).imp_right fun hword => ?_
  cases hw : Word.ofHexChars earlier 9 with
  | ok w => exact ⟨w, rfl⟩
  | error e =>
      rw [hw] at hword
      cases hword

theorem readWords_any_text_nine_bits :
    outcome (readWords "words.txt" 9 : Console (StateM FileTree) (List Word)) "" annotatedTree =
        (.ok [⟨9, [0x1ff]⟩, ⟨9, [0]⟩, ⟨9, [0xa5]⟩], "", annotatedTree) ∧
      outcome (readWords "more.txt" 9 : Console (StateM FileTree) (List Word)) "" annotatedTree =
        (.error [.context (.badWord "more.txt" 8), .error (.format (.wordOverflow 9))], "",
          annotatedTree) := by
  have hread : annotatedTree.read ⟨"words.txt"⟩ = .ok (Bytes.ofText annotatedText) :=
    FileTree.read_eq_ok_iff.mpr ⟨["words.txt"], ⟨rfl, by decide⟩, rfl⟩
  have hmore : annotatedTree.read ⟨"more.txt"⟩ =
      .ok (Bytes.ofText (annotatedText ++ "\n0x200\nzz")) :=
    FileTree.read_eq_ok_iff.mpr ⟨["more.txt"], ⟨rfl, by decide⟩, rfl⟩
  obtain ⟨hannotated, -, -⟩ := @readWords_any_text annotatedTree "" _ _ hread 9
  obtain ⟨-, -, hlines⟩ := @readWords_any_text annotatedTree "" _ _ hmore 9
  constructor
  · have hwords : ∀ w ∈ [(⟨9, [0x1ff]⟩ : Word), ⟨9, [0]⟩, ⟨9, [0xa5]⟩],
        w.WellFormed ∧ w.width = 9 := by
      intro w hw
      simp only [List.mem_cons, List.not_mem_nil, or_false] at hw
      rcases hw with rfl | rfl | rfl <;> exact ⟨⟨rfl, by decide⟩, rfl⟩
    exact hannotated _ hwords annotates_annotatedText
  · obtain ⟨-, -, hreject⟩ := hlines _ splits_annotatedText
    exact hreject 8 _ firstRejected_annotatedText

end Bitpack.Console
