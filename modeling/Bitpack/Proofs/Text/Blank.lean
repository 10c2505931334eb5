import Bitpack.Text

/-!
Trimmed texts. Trimming takes white space off both ends of a text: what stands between is all there, and
more white space around the text changes nothing.
-/
namespace Bitpack.Text

def Blank (text : List Char) : Prop :=
  ∀ c ∈ text, isBlank c = true

instance (text : List Char) : Decidable (Blank text) :=
  decidable_of_iff (text.all isBlank = true) List.all_eq_true

theorem trimLeft_of_blank {text : List Char} (h : Blank text) : trimLeft text = [] := by
  have hall : (text ++ []).dropWhile isBlank = [].dropWhile isBlank := List.dropWhile_append_of_pos h
  rwa [List.append_nil] at hall

theorem trimLeft_append {before : List Char} (h : Blank before) (rest : List Char) :
    trimLeft (before ++ rest) = trimLeft rest :=
  List.dropWhile_append_of_pos h

theorem Blank.reverse {text : List Char} (h : Blank text) : Blank text.reverse :=
  fun c hc => h c (List.mem_reverse.mp hc)

theorem trim_append_left {before : List Char} (h : Blank before) (rest : List Char) :
    trim (before ++ rest) = trim rest := by
  unfold trim
  rw [trimLeft_append h]

theorem trim_append_right (text : List Char) {after : List Char} (h : Blank after) :
    trim (text ++ after) = trim text := by
  have hleft : trimLeft (text ++ after) =
      if (trimLeft text).isEmpty then trimLeft after else trimLeft text ++ after :=
    List.dropWhile_append
  unfold trim
  rw [hleft]
  split
  · rename_i hempty
    rw [trimLeft_of_blank h, List.isEmpty_iff.mp hempty]
  · rw [List.reverse_append, trimLeft_append h.reverse]

theorem trim_append {before after : List Char} (hbefore : Blank before) (text : List Char)
    (hafter : Blank after) : trim (before ++ text ++ after) = trim text := by
  rw [trim_append_right _ hafter, trim_append_left hbefore]

theorem exists_eq_append_trimLeft (text : List Char) :
    ∃ before, Blank before ∧ text = before ++ trimLeft text :=
  ⟨text.takeWhile isBlank, List.all_eq_true.mp List.all_takeWhile,
    List.takeWhile_append_dropWhile.symm⟩

theorem exists_eq_append_trim (text : List Char) :
    ∃ before after, Blank before ∧ Blank after ∧ text = before ++ trim text ++ after := by
  obtain ⟨before, hbefore, htext⟩ := exists_eq_append_trimLeft text
  obtain ⟨after, hafter, hmiddle⟩ := exists_eq_append_trimLeft (trimLeft text).reverse
  refine ⟨before, after.reverse, hbefore, hafter.reverse, ?_⟩
  rw [List.append_assoc, trim, ← List.reverse_append, ← hmiddle, List.reverse_reverse]
  exact htext

theorem trim_trim (text : List Char) : trim (trim text) = trim text := by
  obtain ⟨before, after, hbefore, hafter, htext⟩ := exists_eq_append_trim text
  rw [← trim_append hbefore _ hafter, ← htext]

theorem trim_of_blank {text : List Char} (h : Blank text) : trim text = [] := by
  unfold trim
  rw [trimLeft_of_blank h]
  rfl

theorem blank_or_exists_first (text : List Char) :
    Blank text ∨ ∃ before c rest, Blank before ∧ isBlank c = false ∧ text = before ++ c :: rest := by
  induction text with
  | nil => exact .inl fun c hc => absurd hc List.not_mem_nil
  | cons c rest ih =>
      cases hc : isBlank c with
      | false => exact .inr ⟨[], c, rest, fun c hc => absurd hc List.not_mem_nil, hc, rfl⟩
      | true =>
          rcases ih with hrest | ⟨before, first, after, hbefore, hfirst, rfl⟩
          · exact .inl (List.forall_mem_cons.mpr ⟨hc, hrest⟩)
          · exact .inr ⟨c :: before, first, after, List.forall_mem_cons.mpr ⟨hc, hbefore⟩, hfirst, rfl⟩

theorem exists_trim_eq_cons {before : List Char} (hbefore : Blank before) {c : Char}
    (hc : isBlank c = false) (rest : List Char) : ∃ tail, trim (before ++ c :: rest) = c :: tail := by
  have hstart : trimLeft (c :: rest) = c :: rest := by
    rw [trimLeft, List.dropWhile_cons, if_neg (by rw [hc]; decide)]
  have hlast : [c].dropWhile isBlank = [c] := by
    rw [List.dropWhile_cons, if_neg (by rw [hc]; decide)]
  rw [trim_append_left hbefore, trim, hstart, List.reverse_cons, trimLeft, List.dropWhile_append]
  split
  · exact ⟨[], by rw [hlast]; rfl⟩
  · exact ⟨_, List.reverse_append⟩

theorem trimLeft_of_not_blank {text : List Char} (h : ∀ c ∈ text, isBlank c = false) :
    trimLeft text = text := by
  cases text with
  | nil => rfl
  | cons c rest =>
      unfold trimLeft
      rw [List.dropWhile_cons, if_neg (by rw [h c List.mem_cons_self]; decide)]

theorem trim_of_not_blank {text : List Char} (h : ∀ c ∈ text, isBlank c = false) :
    trim text = text := by
  unfold trim
  rw [trimLeft_of_not_blank h, trimLeft_of_not_blank fun c hc => h c (List.mem_reverse.mp hc),
    List.reverse_reverse]

end Bitpack.Text
