import Bitpack.Proofs.Word.HexReading

/-!
The texts that are read as words. They are the hexadecimal numerals below the limit of the width, with
white space around them, and every other text is refused for its form or its size.
-/
namespace Bitpack.Word

def IsMark (mark : List Char) : Prop :=
  mark = [] ∨ mark = ['0', 'x'] ∨ mark = ['0', 'X']

/-- Digits of either case with underscores among them, at least one digit, behind at most one mark, and
white space around it all. -/
structure Numeral (text digits : List Char) : Prop where
  only_digits : ∀ c ∈ digits, c = '_' ∨ Text.IsHexDigit c
  some_digit : ∃ c ∈ digits, Text.IsHexDigit c
  framed : ∃ before mark after, Text.Blank before ∧ IsMark mark ∧ Text.Blank after ∧
    text = before ++ mark ++ digits ++ after

theorem exists_mark (text : List Char) : ∃ mark, IsMark mark ∧ text = mark ++ dropMark text := by
  unfold dropMark
  split
  · exact ⟨['0', 'x'], .inr (.inl rfl), rfl⟩
  · exact ⟨['0', 'X'], .inr (.inr rfl), rfl⟩
  · exact ⟨[], .inl rfl, rfl⟩

theorem dropMark_digits {digits : List Char}
    (hdigits : ∀ c ∈ digits, c = '_' ∨ Text.IsHexDigit c) : dropMark digits = digits := by
  have hsecond : ∀ {c : Char} {rest : List Char}, digits = '0' :: c :: rest → c ≠ 'x' ∧ c ≠ 'X' := by
    rintro c rest rfl
    have hc := hdigits c (List.mem_cons_of_mem _ List.mem_cons_self)
    constructor <;> rintro rfl <;> exact absurd hc (by decide)
  unfold dropMark
  split
  · exact absurd rfl (hsecond rfl).1
  · exact absurd rfl (hsecond rfl).2
  · rfl

theorem dropMark_append {mark digits : List Char} (hmark : IsMark mark)
    (hdigits : ∀ c ∈ digits, c = '_' ∨ Text.IsHexDigit c) : dropMark (mark ++ digits) = digits := by
  rcases hmark with rfl | rfl | rfl
  · exact dropMark_digits hdigits
  · rfl
  · rfl

theorem isBlank_of_mem_marked {mark digits : List Char} (hmark : IsMark mark)
    (hdigits : ∀ c ∈ digits, c = '_' ∨ Text.IsHexDigit c) {c : Char} (hc : c ∈ mark ++ digits) :
    Text.isBlank c = false := by
  rcases List.mem_append.mp hc with hc | hc
  · have hall : mark.all (!Text.isBlank ·) = true := by
      rcases hmark with rfl | rfl | rfl <;> decide
    exact (Bool.not_eq_true' _).mp (List.all_eq_true.mp hall c hc)
  · rcases hdigits c hc with rfl | hdigit
    · decide
    · exact Text.isBlank_of_isHexDigit hdigit

theorem numeral_iff {text digits : List Char} :
    Numeral text digits ↔ digits = dropMark (Text.trim text) ∧
      (∀ c ∈ digits, c = '_' ∨ Text.IsHexDigit c) ∧ ∃ c ∈ digits, Text.IsHexDigit c := by
  constructor
  · rintro ⟨hdigits, hsome, before, mark, after, hbefore, hmark, hafter, rfl⟩
    refine ⟨?_, hdigits, hsome⟩
    rw [List.append_assoc before, Text.trim_append hbefore _ hafter,
      Text.trim_of_not_blank fun c => isBlank_of_mem_marked hmark hdigits, dropMark_append hmark hdigits]
  · rintro ⟨rfl, hdigits, hsome⟩
    obtain ⟨before, after, hbefore, hafter, htext⟩ := Text.exists_eq_append_trim text
    obtain ⟨mark, hmark, htrim⟩ := exists_mark (Text.trim text)
    refine ⟨hdigits, hsome, before, mark, after, hbefore, hmark, hafter, ?_⟩
    rw [List.append_assoc before, ← htrim]
    exact htext

theorem digitValues_ne_nil_iff {digits : List Char}
    (hdigits : ∀ c ∈ digits, c = '_' ∨ Text.IsHexDigit c) :
    digitValues digits.reverse ≠ [] ↔ ∃ c ∈ digits, Text.IsHexDigit c := by
  have hnot : ¬Text.IsHexDigit '_' := by decide
  simp only [digitValues, ne_eq, List.map_eq_nil_iff, List.filter_eq_nil_iff, List.mem_reverse,
    decide_eq_true_eq, not_forall, not_not, exists_prop]
  constructor
  · rintro ⟨c, hc, hunderscore⟩
    exact ⟨c, hc, (hdigits c hc).resolve_left hunderscore⟩
  · rintro ⟨c, hc, hdigit⟩
    exact ⟨c, hc, fun heq => hnot (heq ▸ hdigit)⟩

theorem Numeral.spells_iff {text digits : List Char} (hnumeral : Numeral text digits) {width : Nat}
    {w : Word} :
    ofHexChars text width = .ok w ↔ w.width = width ∧ w.WellFormed ∧ w.value = spelled digits := by
  obtain ⟨rfl, hdigits, hsome⟩ := numeral_iff.mp hnumeral
  rw [ofHexChars_eq_ok_iff]
  constructor
  · intro hw
    exact ⟨hw.width_eq, hw.wellFormed, hw.value_eq⟩
  · rintro ⟨hwidth, hwf, hvalue⟩
    refine ⟨fun c hc => ?_, (digitValues_ne_nil_iff hdigits).mpr hsome, hwidth, hwf, hvalue⟩
    rw [Text.isSome_hexValue?_iff]
    exact hdigits c hc

theorem Spells.numeral {text : List Char} {width : Nat} {w : Word}
    (hw : Spells (dropMark (Text.trim text)) width w) : Numeral text (dropMark (Text.trim text)) := by
  have hdigits : ∀ c ∈ dropMark (Text.trim text), c = '_' ∨ Text.IsHexDigit c := fun c hc =>
    (hw.only_digits c hc).imp_right Text.isSome_hexValue?_iff.mp
  exact numeral_iff.mpr ⟨rfl, hdigits, (digitValues_ne_nil_iff hdigits).mp hw.nonempty⟩

theorem readDigits_error {quoted : String} {width : Nat} {text : List Char} {r : Reading} {e : Error}
    (h : readDigits quoted width text r = .error e) : ∃ fault, e = .format fault := by
  induction text generalizing r with
  | nil => cases h
  | cons c rest ih =>
      unfold readDigits at h
      split at h
      · exact ih h
      · split at h
        · cases h
          exact ⟨_, rfl⟩
        · split at h
          · cases h
            exact ⟨_, rfl⟩
          · exact ih h

theorem ofHexChars_error {text : List Char} {width : Nat} {e : Error}
    (h : ofHexChars text width = .error e) : ∃ fault, e = .format fault := by
  unfold ofHexChars at h
  dsimp only at h
  cases hread : readDigits (String.ofList (Text.trim text)) width
      (dropMark (Text.trim text)).reverse ⟨List.replicate (max 1 (limbCount width)) 0, 0⟩ with
  | error fault =>
      rw [hread] at h
      cases h
      exact readDigits_error hread
  | ok r =>
      rw [hread] at h
      change (if r.count = 0 then _ else _) = _ at h
      rw [ofLimbs_eq] at h
      split at h
      · cases h
        exact ⟨_, rfl⟩
      · split at h
        · cases h
        · cases h
          exact ⟨_, rfl⟩

/-- Exactly the numerals below `2 ^ width` are read, however many zeros and underscores they have, and
a numeral is read as the word of that width with the value of its digits. Any other text is refused as
malformed or too large. -/
theorem ofHex_reads_numerals (text : String) (width : Nat) :
    ((∃ w, ofHex text width = .ok w) ↔
        ∃ digits, Numeral text.toList digits ∧ spelled digits < 2 ^ width) ∧
      (∀ digits, Numeral text.toList digits → ∀ w, ofHex text width = .ok w ↔
        w.width = width ∧ w.WellFormed ∧ w.value = spelled digits) ∧
      ∀ e, ofHex text width = .error e → ∃ fault, e = .format fault := by
  unfold ofHex
  refine ⟨⟨?_, ?_⟩, fun digits hnumeral w => hnumeral.spells_iff, fun e => ofHexChars_error⟩
  · rintro ⟨w, hw⟩
    have hspells := spells_of_ofHexChars hw
    refine ⟨_, hspells.numeral, ?_⟩
    rw [← hspells.value_eq, ← hspells.width_eq]
    exact hspells.wellFormed.value_lt
  · rintro ⟨digits, hnumeral, hlt⟩
    obtain ⟨rfl, hdigits, hsome⟩ := numeral_iff.mp hnumeral
    exact ofHexChars_of_lt (fun c hc => (hdigits c hc).imp_right Text.isSome_hexValue?_iff.mpr)
      ((digitValues_ne_nil_iff hdigits).mpr hsome) hlt

theorem ofHex_reads_numerals_nine_bits :
    (∃ w, ofHex "\t0X00_1fF\r\n" 9 = .ok w ∧ w.width = 9 ∧ w.WellFormed ∧ w.value = 511) ∧
      (∃ fault, ofHex "0x2_00" 9 = .error (.format fault)) ∧
      ∃ fault, ofHex "0x_" 9 = .error (.format fault) := by
  have hrefused : ∀ text : String, (∀ digits, Numeral text.toList digits → 2 ^ 9 ≤ spelled digits) →
      ∃ fault, ofHex text 9 = .error (.format fault) := by
    intro text hlarge
    obtain ⟨hread, -, hform⟩ := ofHex_reads_numerals text 9
    cases hw : ofHex text 9 with
    | ok w =>
        obtain ⟨digits, hnumeral, hlt⟩ := hread.mp ⟨w, hw⟩
        exact absurd hlt (Nat.not_lt.mpr (hlarge digits hnumeral))
    | error e =>
        obtain ⟨fault, rfl⟩ := hform e hw
        exact ⟨fault, rfl⟩
  refine ⟨?_, hrefused _ fun digits hnumeral => ?_, hrefused _ fun digits hnumeral => ?_⟩
  · have hdigits : "00_1fF".toList.all (fun c => decide (c = '_' ∨ Text.IsHexDigit c)) = true := by
      decide +kernel
    have hnumeral : Numeral "\t0X00_1fF\r\n".toList "00_1fF".toList :=
      numeral_iff.mpr ⟨by decide +kernel,
        fun c hc => of_decide_eq_true (List.all_eq_true.mp hdigits c hc), '1', by decide, by decide⟩
    obtain ⟨hread, hspelled, -⟩ := ofHex_reads_numerals "\t0X00_1fF\r\n" 9
    obtain ⟨w, hw⟩ := hread.mpr ⟨_, hnumeral, by decide +kernel⟩
    obtain ⟨hwidth, hwf, hvalue⟩ := (hspelled _ hnumeral w).mp hw
    exact ⟨w, hw, hwidth, hwf, hvalue.trans (by decide +kernel)⟩
  · rw [(numeral_iff.mp hnumeral).1]
    decide +kernel
  · obtain ⟨c, hc, hdigit⟩ := hnumeral.some_digit
    have hrest : dropMark (Text.trim "0x_".toList) = ['_'] := by decide +kernel
    rw [(numeral_iff.mp hnumeral).1, hrest] at hc
    obtain rfl := List.mem_singleton.mp hc
    exact absurd hdigit (by decide)

end Bitpack.Word
