import Bitpack.Element.Name
import Bitpack.Proofs.Outcome
import Bitpack.Proofs.Text.Decimal
import Bitpack.Proofs.Text.HexDigit

/-!
Names of element types. Those of the grammar are read, each as the type that it names, and no other text
is; what is written for a type is one of its names.
-/
namespace Bitpack.ElementType

/-- The names of a type, in capital letters and without white space around them. There may be white space
around a number. -/
inductive Names : List Char → ElementType → Prop where
  | binary : Names "BINARY".toList (uint ⟨1, by decide, by decide⟩)
  | bipolar : Names "BIPOLAR".toList bipolar
  | float32 : Names "FLOAT32".toList float32
  | float16 : Names "FLOAT16".toList float16
  | uint {number : List Char} {width : SlotWidth} :
      Text.Decimal (Text.trim number) width.bits → Names ("UINT".toList ++ number) (uint width)
  | int {number : List Char} {width : SlotWidth} :
      Text.Decimal (Text.trim number) width.bits → Names ("INT".toList ++ number) (int width)
  | fixed {number intNumber : List Char} {width : SlotWidth} {intBits : Nat} :
      Text.Decimal (Text.trim number) width.bits → Text.Decimal (Text.trim intNumber) intBits →
      (le : intBits ≤ width.bits) →
        Names ("FIXED<".toList ++ (number ++ ',' :: intNumber) ++ ['>']) (fixed width intBits le)

theorem dropStart?_eq_some_iff {start text rest : List Char} :
    dropStart? start text = some rest ↔ text = start ++ rest := by
  unfold dropStart?
  rw [Option.ite_none_right_eq_some, List.isPrefixOf_iff_prefix, Option.some.injEq]
  constructor
  · rintro ⟨hstart, rfl⟩
    exact (List.prefix_iff_eq_append.mp hstart).symm
  · rintro rfl
    simp

theorem fixedBody?_eq_some_iff {text body : List Char} :
    fixedBody? text = some body ↔ text = "FIXED<".toList ++ body ++ ['>'] := by
  unfold fixedBody?
  simp only [Option.bind_eq_bind, Option.bind_eq_some_iff, dropStart?_eq_some_iff,
    Option.ite_none_right_eq_some, Option.some.injEq]
  constructor
  · rintro ⟨rest, rfl, hlast, rfl⟩
    obtain ⟨init, rfl⟩ := List.getLast?_eq_some_iff.mp hlast
    simp
  · rintro rfl
    exact ⟨body ++ ['>'], by simp⟩

theorem splitComma?_append {front : List Char} (hfront : ',' ∉ front) (rest : List Char) :
    splitComma? (front ++ ',' :: rest) = some (front, rest) := by
  have hother : ∀ c ∈ front, decide (c ≠ ',') = true := by
    intro c hc
    rw [decide_eq_true_eq]
    rintro rfl
    exact hfront hc
  unfold splitComma?
  rw [if_pos (by simp), List.takeWhile_append_of_pos hother, List.dropWhile_append_of_pos hother]
  simp

theorem eq_append_of_splitComma? {text front rest : List Char}
    (h : splitComma? text = some (front, rest)) : text = front ++ ',' :: rest := by
  by_cases hcomma : ',' ∈ text
  · obtain ⟨init, tail, rfl, hinit⟩ := List.eq_append_cons_of_mem hcomma
    rw [splitComma?_append hinit] at h
    cases h
    rfl
  · rw [splitComma?, if_neg hcomma] at h
    cases h

theorem parseWidth_eq_ok_iff {full : String} {text : List Char} {n : Nat} :
    parseWidth full text = .ok n ↔ Text.Decimal (Text.trim text) n ∧ n < 2 ^ 32 := by
  unfold parseWidth
  rw [← Text.parse?_eq_some_iff]
  cases Text.parse? (2 ^ 32) (Text.trim text) <;> simp

theorem slotWidth_eq_ok_iff {bits : Nat} {width : SlotWidth} :
    slotWidth bits = .ok width ↔ bits = width.bits := by
  unfold slotWidth
  constructor
  · intro h
    split at h
    · cases h
      rfl
    · cases h
  · rintro rfl
    rw [dif_pos ⟨width.pos, width.le⟩]

theorem ofFixed_eq_ok_iff {bits intBits : Nat} {e : ElementType} :
    ofFixed bits intBits = .ok e ↔
      ∃ (width : SlotWidth) (le : intBits ≤ width.bits),
        bits = width.bits ∧ e = .fixed width intBits le := by
  unfold ofFixed
  rw [bind_eq_ok_iff]
  constructor
  · rintro ⟨width, hwidth, h⟩
    split at h
    · rename_i le
      cases h
      exact ⟨width, le, slotWidth_eq_ok_iff.mp hwidth, rfl⟩
    · cases h
  · rintro ⟨width, le, hbits, rfl⟩
    exact ⟨width, slotWidth_eq_ok_iff.mpr hbits, dif_pos le⟩

theorem sized_eq_ok_iff {full : String} {number : List Char} {make : SlotWidth → ElementType}
    {e : ElementType} :
    (do return make (← slotWidth (← parseWidth full number)) : Except Error ElementType) = .ok e ↔
      ∃ width, Text.Decimal (Text.trim number) width.bits ∧ e = make width := by
  simp only [bind_eq_ok_iff, parseWidth_eq_ok_iff, slotWidth_eq_ok_iff]
  constructor
  · rintro ⟨n, ⟨hnumber, -⟩, width, rfl, h⟩
    cases h
    exact ⟨width, hnumber, rfl⟩
  · rintro ⟨width, hnumber, rfl⟩
    have hwidth := width.le
    exact ⟨width.bits, ⟨hnumber, by omega⟩, width, rfl, rfl⟩

theorem comma_not_mem_of_decimal {number : List Char} {n : Nat}
    (h : Text.Decimal (Text.trim number) n) : ',' ∉ number := by
  intro hcomma
  obtain ⟨before, after, hbefore, hafter, htext⟩ := Text.exists_eq_append_trim number
  rw [htext, List.mem_append, List.mem_append] at hcomma
  rcases hcomma with (hcomma | hcomma) | hcomma
  · exact absurd (hbefore _ hcomma) (by decide)
  · rcases h with h | ⟨digits, hsign, h⟩
    · exact absurd (h.isDigit _ hcomma) (by decide)
    · rw [hsign] at hcomma
      exact absurd (h.isDigit _ (by simpa using hcomma)) (by decide)
  · exact absurd (hafter _ hcomma) (by decide)

theorem names_of_keyword? {text : List Char} {e : ElementType} (h : keyword? text = some e) :
    Names text e := by
  unfold keyword? at h
  split at h
  · cases h
    subst text
    exact .binary
  split at h
  · cases h
    subst text
    exact .bipolar
  split at h
  · cases h
    subst text
    exact .float32
  split at h
  · cases h
    subst text
    exact .float16
  · cases h

theorem names_of_parseUpper {full : String} {text : List Char} {e : ElementType}
    (h : parseUpper full text = .ok e) : Names text e := by
  unfold parseUpper at h
  split at h
  · rename_i keyword hkeyword
    cases h
    exact names_of_keyword? hkeyword
  split at h
  · rename_i number hnumber
    obtain ⟨width, hwidth, rfl⟩ := sized_eq_ok_iff.mp h
    rw [dropStart?_eq_some_iff.mp hnumber]
    exact .uint hwidth
  split at h
  · rename_i number hnumber
    obtain ⟨width, hwidth, rfl⟩ := sized_eq_ok_iff.mp h
    rw [dropStart?_eq_some_iff.mp hnumber]
    exact .int hwidth
  split at h
  · cases h
  · rename_i body hbody
    rw [fixedBody?_eq_some_iff.mp hbody]
    split at h
    · cases h
    · rename_i number intNumber hsplit
      simp only [bind_eq_ok_iff, parseWidth_eq_ok_iff, ofFixed_eq_ok_iff] at h
      obtain ⟨bits, ⟨hbits, -⟩, intBits, ⟨hintBits, -⟩, width, le, rfl, rfl⟩ := h
      rw [eq_append_of_splitComma? hsplit]
      exact .fixed hbits hintBits le

theorem Names.parseUpper_eq {text : List Char} {e : ElementType} (h : Names text e)
    (full : String) : parseUpper full text = .ok e := by
  unfold parseUpper
  cases h with
  | binary => rfl
  | bipolar => rfl
  | float32 => rfl
  | float16 => rfl
  | @uint number width hnumber =>
      have hkeyword : keyword? ("UINT".toList ++ number) = none := by simp [keyword?]
      rw [hkeyword, dropStart?_eq_some_iff.mpr rfl]
      exact sized_eq_ok_iff.mpr ⟨width, hnumber, rfl⟩
  | @int number width hnumber =>
      have hkeyword : keyword? ("INT".toList ++ number) = none := by simp [keyword?]
      have huint : dropStart? "UINT".toList ("INT".toList ++ number) = none := by simp [dropStart?]
      rw [hkeyword, huint, dropStart?_eq_some_iff.mpr rfl]
      exact sized_eq_ok_iff.mpr ⟨width, hnumber, rfl⟩
  | @fixed number intNumber width intBits hnumber hintNumber le =>
      have hwidth := width.le
      have hsplit := splitComma?_append (comma_not_mem_of_decimal hnumber) intNumber
      generalize number ++ ',' :: intNumber = body at hsplit ⊢
      have hkeyword : keyword? ("FIXED<".toList ++ body ++ ['>']) = none := by simp [keyword?]
      have huint : dropStart? "UINT".toList ("FIXED<".toList ++ body ++ ['>']) = none := by
        simp [dropStart?]
      have hint : dropStart? "INT".toList ("FIXED<".toList ++ body ++ ['>']) = none := by
        simp [dropStart?]
      rw [hkeyword, huint, hint, fixedBody?_eq_some_iff.mpr rfl]
      dsimp only
      rw [hsplit]
      simp only [bind_eq_ok_iff, parseWidth_eq_ok_iff, ofFixed_eq_ok_iff]
      exact ⟨width.bits, ⟨hnumber, by omega⟩, intBits, ⟨hintNumber, by omega⟩, width, le, rfl, rfl⟩

def FailsAsElement {α : Type} (r : Except Error α) : Prop :=
  ∀ e, r = .error e → ∃ fault, e = .element fault

theorem failsAsElement_ok {α : Type} (a : α) : FailsAsElement (.ok a) := by
  intro e h
  cases h

theorem failsAsElement_error {α : Type} (fault : ElementFault) :
    FailsAsElement (.error (.element fault) : Except Error α) := by
  intro e h
  cases h
  exact ⟨fault, rfl⟩

theorem FailsAsElement.bind {α β : Type} {r : Except Error α} {f : α → Except Error β}
    (hr : FailsAsElement r) (hf : ∀ a, FailsAsElement (f a)) : FailsAsElement (r >>= f) := by
  cases r with
  | ok a => exact hf a
  | error e =>
      obtain ⟨fault, rfl⟩ := hr e rfl
      exact failsAsElement_error fault

theorem failsAsElement_parseWidth (full : String) (text : List Char) :
    FailsAsElement (parseWidth full text) := by
  unfold parseWidth
  split
  · exact failsAsElement_ok _
  · exact failsAsElement_error _

theorem failsAsElement_slotWidth (bits : Nat) : FailsAsElement (slotWidth bits) := by
  unfold slotWidth
  split
  · exact failsAsElement_ok _
  · exact failsAsElement_error _

theorem failsAsElement_ofFixed (bits intBits : Nat) : FailsAsElement (ofFixed bits intBits) := by
  apply (failsAsElement_slotWidth bits).bind
  intro width
  split
  · exact failsAsElement_ok _
  · exact failsAsElement_error _

theorem failsAsElement_parseUpper (full : String) (text : List Char) :
    FailsAsElement (parseUpper full text) := by
  have hsized (number : List Char) (make : SlotWidth → ElementType) :
      FailsAsElement (do return make (← slotWidth (← parseWidth full number))) := by
    apply (failsAsElement_parseWidth full number).bind
    intro n
    apply (failsAsElement_slotWidth n).bind
    intro width
    exact failsAsElement_ok _
  unfold parseUpper
  split
  · exact failsAsElement_ok _
  split
  · exact hsized _ _
  split
  · exact hsized _ _
  split
  · exact failsAsElement_error _
  split
  · exact failsAsElement_error _
  · apply (failsAsElement_parseWidth full _).bind
    intro bits
    apply (failsAsElement_parseWidth full _).bind
    intro intBits
    exact failsAsElement_ofFixed bits intBits

theorem isBlank_of_isDigit {c : Char} (hc : c.isDigit = true) : Text.isBlank c = false := by
  obtain ⟨n, hn, rfl⟩ := Text.exists_digitChar hc
  exact Text.isBlank_digitChar (by omega)

theorem decimal_trim_digits (n : Nat) : Text.Decimal (Text.trim (Text.digits n)) n := by
  rw [Text.trim_of_not_blank fun c hc => isBlank_of_isDigit (Text.isDigit_of_mem_digits hc)]
  exact Text.decimal_digits n

theorem nameChars_int (width : SlotWidth) :
    (int width).nameChars = "INT".toList ++ Text.digits width.bits :=
  rfl

theorem nameChars_uint (width : SlotWidth) :
    (uint width).nameChars =
      if width.bits = 1 then "BINARY".toList else "UINT".toList ++ Text.digits width.bits :=
  rfl

theorem nameChars_fixed (width : SlotWidth) (intBits : Nat) (le : intBits ≤ width.bits) :
    (fixed width intBits le).nameChars =
      "FIXED<".toList ++ (Text.digits width.bits ++ ',' :: Text.digits intBits) ++ ['>'] := by
  rw [← List.append_assoc]
  rfl

theorem names_nameChars (e : ElementType) : Names e.nameChars e := by
  cases e with
  | int width =>
      rw [nameChars_int]
      exact .int (decimal_trim_digits width.bits)
  | uint width =>
      rw [nameChars_uint]
      split
      · rename_i hone
        obtain ⟨bits, pos, le⟩ := width
        subst hone
        exact .binary
      · exact .uint (decimal_trim_digits width.bits)
  | bipolar => exact .bipolar
  | fixed width intBits le =>
      rw [nameChars_fixed]
      exact .fixed (decimal_trim_digits width.bits) (decimal_trim_digits intBits) le
  | float32 => exact .float32
  | float16 => exact .float16

/-- What trimming and capital letters leave alone. -/
def isNameChar (c : Char) : Bool :=
  !Text.isBlank c && c.toUpper == c

theorem isNameChar_of_isDigit {c : Char} (hc : c.isDigit = true) : isNameChar c = true := by
  obtain ⟨n, hn, rfl⟩ := Text.exists_digitChar hc
  have hall : ∀ m < 10, isNameChar m.digitChar = true := by decide
  exact hall n hn

theorem all_isNameChar (e : ElementType) : e.nameChars.all isNameChar = true := by
  have hdigits (n : Nat) : (Text.digits n).all isNameChar = true :=
    List.all_eq_true.mpr fun c hc => isNameChar_of_isDigit (Text.isDigit_of_mem_digits hc)
  cases e with
  | int width =>
      rw [nameChars_int, List.all_append, hdigits]
      decide
  | uint width =>
      rw [nameChars_uint]
      split
      · decide
      · rw [List.all_append, hdigits]
        decide
  | bipolar => decide
  | fixed width intBits le =>
      simp only [nameChars_fixed, List.all_append, List.all_cons, hdigits]
      decide
  | float32 => decide
  | float16 => decide

theorem upper_trim_nameChars (e : ElementType) :
    (Text.trim e.nameChars).map Char.toUpper = e.nameChars := by
  have hall {c : Char} (hc : c ∈ e.nameChars) : Text.isBlank c = false ∧ c.toUpper = c := by
    have hname := List.all_eq_true.mp (all_isNameChar e) c hc
    rwa [isNameChar, Bool.and_eq_true, Bool.not_eq_true', beq_iff_eq] at hname
  rw [Text.trim_of_not_blank fun c hc => (hall hc).1]
  exact (List.map_congr_left fun c hc => (hall hc).2).trans (List.map_id _)

theorem parse_name (e : ElementType) : parse e.name = .ok e := by
  unfold parse name
  rw [String.toList_ofList, upper_trim_nameChars]
  exact (names_nameChars e).parseUpper_eq _

/-- Without the white space around it and in capital letters, a text is read exactly where it names a
type, as that type. Every other text is refused for the element type, and a type that was read is written
as a name that is read as the same type, and written the same once more. -/
theorem parse_reads_names (text : String) :
    (∀ e, parse text = .ok e ↔ Names ((Text.trim text.toList).map Char.toUpper) e) ∧
      ((∀ e, ¬Names ((Text.trim text.toList).map Char.toUpper) e) →
        ∃ fault, parse text = .error (.element fault)) ∧
      ∀ e, parse text = .ok e → parse e.name = .ok e ∧ (parse e.name).map name = .ok e.name := by
  have hread (e : ElementType) :
      parse text = .ok e ↔ Names ((Text.trim text.toList).map Char.toUpper) e :=
    ⟨names_of_parseUpper, fun h => h.parseUpper_eq text⟩
  refine ⟨hread, ?_, ?_⟩
  · intro hnone
    cases hparse : parse text with
    | ok e => exact absurd ((hread e).mp hparse) (hnone e)
    | error e =>
        obtain ⟨fault, rfl⟩ := failsAsElement_parseUpper text _ e hparse
        exact ⟨fault, rfl⟩
  · intro e _
    rw [parse_name]
    exact ⟨rfl, rfl⟩

theorem parse_reads_names_fixed :
    parse "\t fixed< 08 ,+3>\u00a0" = .ok (fixed ⟨8, by decide, by decide⟩ 3 (by decide)) ∧
      parse (fixed ⟨8, by decide, by decide⟩ 3 (by decide)).name =
        .ok (fixed ⟨8, by decide, by decide⟩ 3 (by decide)) ∧
      ∃ fault, parse " INT65" = .error (.element fault) := by
  obtain ⟨hread, -, hwritten⟩ := parse_reads_names "\t fixed< 08 ,+3>\u00a0"
  obtain ⟨-, hrefused, -⟩ := parse_reads_names " INT65"
  have hfixed : parse "\t fixed< 08 ,+3>\u00a0" =
      .ok (fixed ⟨8, by decide, by decide⟩ 3 (by decide)) := by
    have htext : (Text.trim "\t fixed< 08 ,+3>\u00a0".toList).map Char.toUpper =
        "FIXED<".toList ++ (" 08 ".toList ++ ',' :: "+3".toList) ++ ['>'] := by decide +kernel
    rw [hread, htext]
    apply Names.fixed
    · exact .inl ⟨by decide, List.all_eq_true.mp (by decide), by decide⟩
    · exact .inr ⟨['3'], by decide, by decide, List.all_eq_true.mp (by decide), by decide⟩
  refine ⟨hfixed, (hwritten _ hfixed).1, hrefused ?_⟩
  intro e hname
  have htext : (Text.trim " INT65".toList).map Char.toUpper = ['I', 'N', 'T', '6', '5'] := by
    decide +kernel
  rw [htext] at hname
  generalize htext : ['I', 'N', 'T', '6', '5'] = text at hname
  cases hname with
  | @int number width hnumber =>
      obtain rfl : ['6', '5'] = number := by simpa using htext
      have htrim : Text.trim ['6', '5'] = ['6', '5'] := by decide
      rw [htrim] at hnumber
      rcases hnumber with hnumber | ⟨digits, hsign, -⟩
      · have hvalue : Nat.ofDigitChars 10 ['6', '5'] 0 = 65 := by decide
        have hwidth := width.le
        rw [← hnumber.value_eq, hvalue] at hwidth
        exact absurd hwidth (by decide)
      · cases hsign
  | _ => simp at htext

end Bitpack.ElementType
