import Bitpack.Json.Range
import Bitpack.Proofs.Text.Decimal
import Mathlib.Data.List.TakeWhile

/-!
Limits of JSON values: the numbers of the machine are within them.
-/
namespace Bitpack.Json

theorem natural?_ofNat {n : Nat} (hn : n < 2 ^ 64) : natural? (ofNat n) = some n := by
  simp [ofNat, natural?, Text.ofDigits?_digits, hn]

theorem natural?_lt {j : Json} {n : Nat} (h : natural? j = some n) : n < 2 ^ 64 := by
  unfold natural? at h
  split at h
  · exact of_decide_eq_true (Option.filter_eq_some_iff.mp h).2
  · cases h

theorem eq_default_or_read_of_optional? {α : Type} {members : List (List Char × Json)} {key : String}
    {read : Json → Option α} {default a : α} (h : optional? members key read default = some a) :
    a = default ∨ ∃ value, read value = some a := by
  unfold optional? at h
  split at h
  · cases h
  · cases h
    exact .inl rfl
  · exact .inr ⟨_, h⟩

theorem decimalParts_digits (n : Nat) : decimalParts (Text.digits n) = (n, 0) := by
  have hdigit {c : Char} (hc : c ∈ Text.digits n) : c ≠ 'e' ∧ c ≠ 'E' ∧ c ≠ '.' ∧ c ≠ '-' := by
    have hall : ∀ m < 10, m.digitChar ≠ 'e' ∧ m.digitChar ≠ 'E' ∧ m.digitChar ≠ '.' ∧
        m.digitChar ≠ '-' := by decide
    obtain ⟨m, hm, rfl⟩ := Text.exists_digitChar (Text.isDigit_of_mem_digits hc)
    exact hall m hm
  have hmark : ∀ c ∈ Text.digits n, (!(c = 'e' || c = 'E' : Bool)) = true := by
    intro c hc
    simp [hdigit hc]
  have hpoint : ∀ c ∈ Text.digits n, decide (c ≠ '.') = true := by
    intro c hc
    simp [hdigit hc]
  have hsign : minusSign (Text.digits n) = ([], Text.digits n) := by
    obtain ⟨c, more, hdigits⟩ := List.exists_cons_of_ne_nil (Text.digits_ne_nil n)
    have hc := (hdigit (hdigits ▸ List.mem_cons_self)).2.2.2
    rw [hdigits, minusSign.eq_def]
    simp [hc]
  have htakeMark := List.takeWhile_eq_self_iff.mpr hmark
  have hdropMark := List.dropWhile_eq_nil_iff.mpr hmark
  have htakePoint := List.takeWhile_eq_self_iff.mpr hpoint
  have hdropPoint := List.dropWhile_eq_nil_iff.mpr hpoint
  unfold decimalParts
  simp only [htakeMark, hdropMark, hsign, htakePoint, hdropPoint]
  have hpower : Text.numberOf 10 [] = 0 := rfl
  simp [exponentSign, Text.numberOf_digits, hpower]

theorem isFinite_digits {n : Nat} (hn : n < 2 ^ 64) : isFinite (Text.digits n) = true := by
  have hlength : (Text.digits n).length ≤ 20 :=
    Text.length_digits_le (by decide) (Nat.lt_trans hn (by decide))
  have hlimit : n < (2 ^ 54 - 1) * 2 ^ 970 :=
    calc
      n < 2 ^ 64 := hn
      _ ≤ 2 ^ 970 := Nat.pow_le_pow_right (by decide) (by decide)
      _ ≤ (2 ^ 54 - 1) * 2 ^ 970 := Nat.le_mul_of_pos_left _ (by decide)
  unfold isFinite
  rw [decimalParts_digits]
  dsimp only
  split
  · rfl
  · rw [if_neg (by omega), if_pos (Int.le_refl 0), Int.toNat_zero, Nat.pow_zero, Nat.mul_one]
    exact decide_eq_true hlimit

end Bitpack.Json
