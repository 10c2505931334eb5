import Bitpack.Json.Read
import Bitpack.Proofs.Text.Decimal
import Bitpack.Proofs.Text.HexDigit

/-!
Reading of JSON texts piece by piece: what stands in front of any rest is read as the value that it
spells, and the rest is left.
-/
namespace Bitpack.Json

def Space (cs : List Char) : Prop :=
  ∀ c ∈ cs, isSpace c = true

instance (cs : List Char) : Decidable (Space cs) :=
  decidable_of_iff (cs.all isSpace = true) List.all_eq_true

theorem space_nil : Space [] := by
  decide

theorem skipSpace_append {before : List Char} (hbefore : Space before) (cs : List Char) :
    skipSpace (before ++ cs) = skipSpace cs :=
  List.dropWhile_append_of_pos hbefore

theorem skipSpace_cons {c : Char} (hc : isSpace c = false) (cs : List Char) :
    skipSpace (c :: cs) = c :: cs := by
  unfold skipSpace
  rw [List.dropWhile_cons, hc]
  rfl

theorem space_indent (level : Nat) : Space (indent level) := by
  intro c hc
  rcases List.mem_cons.mp hc with rfl | hc
  · decide
  · rw [List.eq_of_mem_replicate hc]
    decide

theorem stringCodes?_letter {letter : Char} {code : Nat} (hletter : escapeCode? letter = some code)
    (rest : List Char) :
    stringCodes? ('\\' :: letter :: rest) =
      (stringCodes? rest).map fun (codes, tail) => (code :: codes, tail) := by
  have hu : letter ≠ 'u' := by
    rintro rfl
    cases hletter
  rw [stringCodes?.eq_def]
  simp [hu, hletter]

theorem stringCodes?_plain {c : Char} (hquote : c ≠ '\x22') (hbackslash : c ≠ '\\')
    (hcontrol : ¬c.toNat < 0x20) (rest : List Char) :
    stringCodes? (c :: rest) =
      (stringCodes? rest).map fun (codes, tail) => (c.toNat :: codes, tail) := by
  rw [stringCodes?.eq_def]
  simp [hbackslash, hcontrol]

theorem numberOf_hexDigits {code : Nat} (hcode : code < 0x20) :
    (('0' :: '0' :: hexDigits code).all (Text.isDigitOf 16) &&
      Text.numberOf 16 ('0' :: '0' :: hexDigits code) == code) = true := by
  have hall : ∀ code < 0x20, (('0' :: '0' :: hexDigits code).all (Text.isDigitOf 16) &&
      Text.numberOf 16 ('0' :: '0' :: hexDigits code) == code) = true := by decide
  exact hall code hcode

theorem stringCodes?_escaped (c : Char) (rest : List Char) :
    stringCodes? (escaped c ++ rest) =
      (stringCodes? rest).map fun (codes, tail) => (c.toNat :: codes, tail) := by
  unfold escaped
  -- The seven characters with a letter of their own.
  iterate 7
    split
    · subst c
      exact stringCodes?_letter rfl rest
  split
  · rename_i hcontrol
    have hdigits := numberOf_hexDigits hcontrol
    rw [Bool.and_eq_true, beq_iff_eq] at hdigits
    obtain ⟨hall, hnumber⟩ := hdigits
    unfold hexDigits at hall hnumber ⊢
    simp only [List.map_cons, List.map_nil, List.cons_append, List.nil_append] at hall hnumber ⊢
    rw [stringCodes?, if_pos hall, hnumber]
  · rename_i hquote hbackslash _ _ _ _ _ hcontrol
    exact stringCodes?_plain hquote hbackslash hcontrol rest

theorem ofCodes?_map_toNat (content : List Char) :
    ofCodes? (content.map Char.toNat) = some content := by
  have hchar (c : Char) : Text.char? c.toNat = some c := by
    unfold Text.char?
    rw [if_pos (show c.toNat.isValidChar from c.valid), Char.ofNat_toNat]
  have hhalf (c : Char) : ¬(0xD800 ≤ c.toNat ∧ c.toNat < 0xDC00) := by
    have hvalid := c.valid
    unfold UInt32.isValidChar Nat.isValidChar at hvalid
    change ¬(0xD800 ≤ c.val.toNat ∧ c.val.toNat < 0xDC00)
    omega
  induction content with
  | nil => rfl
  | cons c content ih =>
      cases content with
      | nil => simp [ofCodes?, hchar]
      | cons next content =>
          rw [List.map_cons] at ih
          rw [List.map_cons, List.map_cons, ofCodes?, if_neg (hhalf c), hchar, ih]
          rfl

theorem string?_escaped (content rest : List Char) :
    string? (content.flatMap escaped ++ '\x22' :: rest) = some (some content, rest) := by
  have hcodes : stringCodes? (content.flatMap escaped ++ '\x22' :: rest) =
      some (content.map Char.toNat, rest) := by
    induction content with
    | nil => rfl
    | cons c content ih =>
        rw [List.flatMap_cons, List.append_assoc, stringCodes?_escaped, ih]
        rfl
  unfold string?
  rw [hcodes, Option.map_some]
  dsimp only
  rw [ofCodes?_map_toNat]

/-- Whether a rest does not continue a number. -/
def Ends (rest : List Char) : Prop :=
  ∀ c, rest.head? = some c → c.isDigit = false ∧ c ≠ '.' ∧ c ≠ 'e' ∧ c ≠ 'E'

theorem ends_nil : Ends [] := by
  intro c hc
  cases hc

theorem ends_cons {c : Char} (hc : c.isDigit = false ∧ c ≠ '.' ∧ c ≠ 'e' ∧ c ≠ 'E')
    (rest : List Char) : Ends (c :: rest) := by
  intro other hother
  cases hother
  exact hc

theorem ends_append {after rest : List Char} (hafter : Space after) (hrest : Ends rest) :
    Ends (after ++ rest) := by
  cases after with
  | nil => exact hrest
  | cons c after =>
      have hspace := hafter c List.mem_cons_self
      simp only [isSpace, Bool.or_eq_true, decide_eq_true_eq] at hspace
      apply ends_cons
      rcases hspace with ((rfl | rfl) | rfl) | rfl <;> decide

theorem digitsOf?_append {run rest : List Char} (hne : run ≠ [])
    (hrun : ∀ c ∈ run, c.isDigit = true) (hrest : Ends rest) :
    digitsOf? (run ++ rest) = some (run, rest) := by
  obtain ⟨c, more, rfl⟩ := List.exists_cons_of_ne_nil hne
  have htake : rest.takeWhile Char.isDigit = [] ∧ rest.dropWhile Char.isDigit = rest := by
    cases rest with
    | nil => exact ⟨rfl, rfl⟩
    | cons next rest =>
        have hnext := (hrest next rfl).1
        exact ⟨List.takeWhile_cons_of_neg (by rw [hnext]; decide),
          List.dropWhile_cons_of_neg (by rw [hnext]; decide)⟩
  unfold digitsOf?
  rw [List.takeWhile_append_of_pos hrun, List.dropWhile_append_of_pos hrun, htake.1, htake.2,
    if_pos (by simp [hrun c List.mem_cons_self]), List.append_nil]

theorem whole?_digits (n : Nat) {rest : List Char} (hrest : Ends rest) :
    whole? (Text.digits n ++ rest) = some (Text.digits n, rest) := by
  by_cases hn : n = 0
  · subst hn
    rfl
  · have hzero := Text.head?_digits_ne_zero hn
    have hrun := digitsOf?_append (Text.digits_ne_nil n) (fun c => Text.isDigit_of_mem_digits) hrest
    obtain ⟨c, more, hdigits⟩ := List.exists_cons_of_ne_nil (Text.digits_ne_nil n)
    rw [hdigits] at hzero hrun ⊢
    rw [List.head?_cons, ne_eq, Option.some.injEq] at hzero
    rw [List.cons_append] at hrun ⊢
    rw [whole?.eq_def]
    simp [hzero, hrun]

theorem number?_digits (n : Nat) {rest : List Char} (hrest : Ends rest) :
    number? (Text.digits n ++ rest) = some (Text.digits n, rest) := by
  have hsign : minusSign (Text.digits n ++ rest) = ([], Text.digits n ++ rest) := by
    obtain ⟨c, more, hdigits⟩ := List.exists_cons_of_ne_nil (Text.digits_ne_nil n)
    have hc : c ≠ '-' := by
      rintro rfl
      exact absurd (Text.isDigit_of_mem_digits (hdigits ▸ List.mem_cons_self)) (by decide)
    rw [hdigits, List.cons_append, minusSign.eq_def]
    simp [hc]
  have hfraction : fraction? rest = some ([], rest) := by
    cases rest with
    | nil => rfl
    | cons c rest =>
        rw [fraction?.eq_def]
        simp [(hrest c rfl).2.1]
  have hexponent : exponent? rest = some ([], rest) := by
    cases rest with
    | nil => rfl
    | cons c rest =>
        rw [exponent?, if_neg (not_or.mpr (hrest c rfl).2.2)]
  unfold number?
  rw [hsign]
  simp [whole?_digits n hrest, hfraction, hexponent]

end Bitpack.Json
