import Bitpack.Proofs.Text.Blank
import Bitpack.Text

/-!
Hexadecimal digits as they are printed and read.
-/
namespace Bitpack.Text

def IsHexDigit (c : Char) : Prop :=
  '0' ≤ c ∧ c ≤ '9' ∨ 'a' ≤ c ∧ c ≤ 'f' ∨ 'A' ≤ c ∧ c ≤ 'F'

instance (c : Char) : Decidable (IsHexDigit c) :=
  inferInstanceAs (Decidable (_ ∨ _))

theorem isSome_hexValue?_iff {c : Char} : (hexValue? c).isSome = true ↔ IsHexDigit c := by
  unfold hexValue? IsHexDigit
  by_cases hdecimal : '0' ≤ c ∧ c ≤ '9'
  · simp [hdecimal]
  · by_cases hlower : 'a' ≤ c ∧ c ≤ 'f'
    · simp [hdecimal, hlower]
    · by_cases hupper : 'A' ≤ c ∧ c ≤ 'F' <;> simp [hdecimal, hlower, hupper]

theorem isBlank_of_isHexDigit {c : Char} (hc : IsHexDigit c) : isBlank c = false := by
  have hrange : 48 ≤ c.toNat ∧ c.toNat ≤ 102 := by
    have hle : ∀ a b : Char, a ≤ b → a.toNat ≤ b.toNat := fun _ _ hab => hab
    rcases hc with ⟨hlow, hhigh⟩ | ⟨hlow, hhigh⟩ | ⟨hlow, hhigh⟩ <;>
      exact ⟨Nat.le_trans (by decide) (hle _ _ hlow), Nat.le_trans (hle _ _ hhigh) (by decide)⟩
  simp only [isBlank, Bool.or_eq_false_iff, Bool.and_eq_false_iff, decide_eq_false_iff_not,
    beq_eq_false_iff_ne]
  omega

theorem hexValue?_digitChar {n : Nat} (hn : n < 16) : hexValue? n.digitChar = some n := by
  have hall : ∀ m, m < 16 → hexValue? m.digitChar = some m := by decide
  exact hall n hn

theorem lt_of_hexValue? {c : Char} {n : Nat} (h : hexValue? c = some n) : n < 16 := by
  have hval (a b : Char) (hab : a ≤ b) : a.toNat ≤ b.toNat := hab
  unfold hexValue? at h
  split at h
  · rename_i hc
    have := hval _ _ hc.2
    cases h
    simp only [Char.reduceToNat] at this ⊢
    omega
  · split at h
    · rename_i hc
      have := hval _ _ hc.2
      cases h
      simp only [Char.reduceToNat] at this ⊢
      omega
    · split at h
      · rename_i hc
        have := hval _ _ hc.2
        cases h
        simp only [Char.reduceToNat] at this ⊢
        omega
      · cases h

theorem isBlank_digitChar {n : Nat} (hn : n < 16) : isBlank n.digitChar = false := by
  have hall : ∀ m, m < 16 → isBlank m.digitChar = false := by decide
  exact hall n hn

theorem digitChar_ne_underscore {n : Nat} (hn : n < 16) : n.digitChar ≠ '_' := by
  have hall : ∀ m, m < 16 → m.digitChar ≠ '_' := by decide
  exact hall n hn

theorem digitChar_lower {n : Nat} (hn : n < 16) :
    '0' ≤ n.digitChar ∧ n.digitChar ≤ '9' ∨ 'a' ≤ n.digitChar ∧ n.digitChar ≤ 'f' := by
  have hall : ∀ m, m < 16 →
      '0' ≤ m.digitChar ∧ m.digitChar ≤ '9' ∨ 'a' ≤ m.digitChar ∧ m.digitChar ≤ 'f' := by decide
  exact hall n hn

end Bitpack.Text
