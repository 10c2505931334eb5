import Bitpack.Text

/-!
Decimal digits as they are written, and the numbers that they are read as.
-/
namespace Bitpack.Text

theorem isDigit_of_mem_digits {n : Nat} {c : Char} (hc : c ∈ digits n) : c.isDigit = true :=
  Nat.isDigit_of_mem_toDigits (by decide) (by decide) hc

theorem digits_ne_nil (n : Nat) : digits n ≠ [] :=
  Nat.toDigits_ne_nil

theorem exists_digitChar {c : Char} (hc : c.isDigit = true) : ∃ n, n < 10 ∧ c = n.digitChar := by
  have hrange : 48 ≤ c.toNat ∧ c.toNat ≤ 57 := by
    rw [Char.isDigit, Bool.and_eq_true, decide_eq_true_eq, decide_eq_true_eq] at hc
    exact hc
  refine ⟨c.toNat - 48, by omega, Char.toNat_inj.mp ?_⟩
  rw [Nat.toNat_digitChar_of_lt_ten (by omega)]
  omega

theorem hexValue_of_isDigit {c : Char} (hc : c.isDigit = true) :
    hexValue c = c.toNat - '0'.toNat := by
  have hrange : '0' ≤ c ∧ c ≤ '9' := by
    rw [Char.isDigit, Bool.and_eq_true, decide_eq_true_eq, decide_eq_true_eq] at hc
    exact hc
  unfold hexValue hexValue?
  rw [if_pos hrange, Option.getD_some]

theorem numberOf_ten {text : List Char} (htext : ∀ c ∈ text, c.isDigit = true) :
    numberOf 10 text = Nat.ofDigitChars 10 text 0 := by
  rw [numberOf, Nat.ofDigitChars_eq_foldl]
  generalize 0 = start
  induction text generalizing start with
  | nil => rfl
  | cons c rest ih =>
      rw [List.foldl_cons, List.foldl_cons, hexValue_of_isDigit (htext c List.mem_cons_self)]
      exact ih (fun other hother => htext other (List.mem_cons_of_mem _ hother)) _

theorem numberOf_digits (n : Nat) : numberOf 10 (digits n) = n := by
  rw [numberOf_ten fun c hc => isDigit_of_mem_digits hc]
  exact Nat.ofDigitChars_ten_toDigits

theorem head?_digits_ne_zero {n : Nat} (hn : n ≠ 0) : (digits n).head? ≠ some '0' := by
  unfold digits
  induction n using Nat.strongRecOn with
  | ind n ih =>
      by_cases hsmall : n < 10
      · have hall : ∀ m < 10, m ≠ 0 → m.digitChar ≠ '0' := by decide
        rw [Nat.toDigits_of_lt_base hsmall, List.head?_cons, ne_eq, Option.some.injEq]
        exact hall n hsmall hn
      · have hfront := ih (n / 10) (by omega) (by omega)
        rw [Nat.toDigits_of_base_le (by decide) (by omega), List.head?_append]
        cases hhead : (Nat.toDigits 10 (n / 10)).head? with
        | none => exact absurd (List.head?_eq_none_iff.mp hhead) Nat.toDigits_ne_nil
        | some c => rwa [hhead] at hfront

theorem ofDigits?_digits (n : Nat) : ofDigits? (digits n) = some n := by
  unfold ofDigits?
  rw [if_pos ⟨digits_ne_nil n, List.all_eq_true.mpr fun c hc => isDigit_of_mem_digits hc⟩]
  exact congrArg some Nat.ofDigitChars_ten_toDigits

theorem length_digits_le {n count : Nat} (hcount : 0 < count) (hn : n < 10 ^ count) :
    (digits n).length ≤ count :=
  (Nat.length_toDigits_le_iff (by decide) hcount).mpr hn

structure Spells (text : List Char) (n : Nat) : Prop where
  ne_nil : text ≠ []
  isDigit : ∀ c ∈ text, c.isDigit = true
  value_eq : Nat.ofDigitChars 10 text 0 = n

theorem ofDigits?_eq_some_iff {text : List Char} {n : Nat} :
    ofDigits? text = some n ↔ Spells text n := by
  unfold ofDigits?
  rw [Option.ite_none_right_eq_some, Option.some.injEq, List.all_eq_true]
  exact ⟨fun ⟨⟨hne, hdigits⟩, hvalue⟩ => ⟨hne, hdigits, hvalue⟩,
    fun h => ⟨⟨h.ne_nil, h.isDigit⟩, h.value_eq⟩⟩

def Decimal (text : List Char) (n : Nat) : Prop :=
  Spells text n ∨ ∃ digits, text = '+' :: digits ∧ Spells digits n

theorem decimal_digits (n : Nat) : Decimal (digits n) n :=
  .inl (ofDigits?_eq_some_iff.mp (ofDigits?_digits n))

theorem spells_dropPlus_iff {text : List Char} {n : Nat} :
    Spells (dropPlus text) n ↔ Decimal text n := by
  unfold dropPlus
  split
  · rename_i rest
    constructor
    · intro h
      exact .inr ⟨rest, rfl, h⟩
    · rintro (h | ⟨digits, heq, h⟩)
      · exact absurd (h.isDigit '+' List.mem_cons_self) (by decide)
      · cases heq
        exact h
  · rename_i hplus
    constructor
    · exact .inl
    · rintro (h | ⟨digits, rfl, -⟩)
      · exact h
      · exact absurd rfl (hplus digits)

theorem parse?_eq_some_iff {limit n : Nat} {text : List Char} :
    parse? limit text = some n ↔ Decimal text n ∧ n < limit := by
  unfold parse?
  rw [Option.filter_eq_some_iff, ofDigits?_eq_some_iff, spells_dropPlus_iff, decide_eq_true_eq]

end Bitpack.Text
