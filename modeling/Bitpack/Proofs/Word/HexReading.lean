import Bitpack.Proofs.Text.HexDigit
import Bitpack.Proofs.Word.Limbs
import Bitpack.Word.Hex
import Mathlib.Data.Nat.Digits.Defs

/-!
Reading hexadecimal text. The digits are added up from the last to the first, and a text is read as the
word that its digits spell.
-/
namespace Bitpack.Word

/-- What digits, the lowest one first, add to a reading: each has its place above those that were read
before it. -/
structure Reading.Adds (r s : Reading) (values : List Nat) : Prop where
  count_eq : s.count = r.count + values.length
  length_eq : s.limbs.length = r.limbs.length
  value_eq : limbValue s.limbs =
    2 ^ (4 * r.count) * Nat.ofDigits 16 values + limbValue r.limbs

theorem Reading.Adds.nil (r : Reading) : r.Adds r [] :=
  ⟨rfl, rfl, by rw [Nat.ofDigits_nil, Nat.mul_zero, Nat.zero_add]⟩

theorem Reading.Adds.sum_eq {r s : Reading} {digit : Nat} (hs : r.Adds s [digit])
    (values : List Nat) :
    2 ^ (4 * s.count) * Nat.ofDigits 16 values + limbValue s.limbs =
      2 ^ (4 * r.count) * Nat.ofDigits 16 (digit :: values) + limbValue r.limbs := by
  have hshift : 2 ^ (4 * s.count) = 2 ^ (4 * r.count) * 16 := by
    rw [hs.count_eq]
    exact Nat.pow_add 2 (4 * r.count) 4
  rw [hshift, hs.value_eq, Nat.ofDigits_singleton, Nat.ofDigits_cons, Nat.mul_assoc, Nat.mul_add]
  omega

theorem Reading.Adds.cons {r s t : Reading} {digit : Nat} {values : List Nat}
    (hs : r.Adds s [digit]) (ht : s.Adds t values) : r.Adds t (digit :: values) where
  count_eq := by
    rw [ht.count_eq, hs.count_eq, List.length_singleton, List.length_cons, Nat.add_assoc,
      Nat.add_comm 1]
  length_eq := ht.length_eq.trans hs.length_eq
  value_eq := ht.value_eq.trans (hs.sum_eq values)

theorem Reading.Adds.limbValue_lt {r s : Reading} {digit : Nat} (hs : r.Adds s [digit])
    (hdigit : digit < 16) (hlt : limbValue r.limbs < 2 ^ (4 * r.count)) :
    limbValue s.limbs < 2 ^ (4 * s.count) := by
  rw [hs.value_eq, hs.count_eq, Nat.ofDigits_singleton, List.length_singleton]
  calc
    2 ^ (4 * r.count) * digit + limbValue r.limbs < 2 ^ (4 * r.count) * (digit + 1) := by
      rw [Nat.mul_succ]
      omega
    _ ≤ 2 ^ (4 * r.count) * 16 := Nat.mul_le_mul_left _ hdigit
    _ = 2 ^ (4 * (r.count + 1)) := (Nat.pow_add 2 (4 * r.count) 4).symm

theorem Reading.push?_of_fits {r : Reading} {digit : Nat} (hdigit : digit < 16)
    (hlt : limbValue r.limbs < 2 ^ (4 * r.count))
    (hfits : digit ≠ 0 → r.count / 16 < r.limbs.length) :
    ∃ s, r.push? digit = some s ∧ r.Adds s [digit] := by
  by_cases hzero : digit = 0
  · refine ⟨⟨r.limbs, r.count + 1⟩, ?_, rfl, rfl, ?_⟩
    · unfold push?
      rw [if_pos hzero]
    · rw [hzero, Nat.ofDigits_singleton, Nat.mul_zero, Nat.zero_add]
  · refine ⟨⟨r.limbs.set (r.count / 16) (r.limbs.getD (r.count / 16) 0 |||
      BitVec.ofNat 64 digit <<< (4 * (r.count % 16))), r.count + 1⟩, ?_, rfl, List.length_set, ?_⟩
    · unfold push?
      rw [if_neg hzero, if_pos (hfits hzero)]
    · apply Nat.eq_of_testBit_eq
      intro i
      rw [Nat.ofDigits_singleton, testBit_limbValue, getD_set (hfits hzero),
        Nat.testBit_two_pow_mul_add _ hlt]
      have ht : i % 64 < 64 := Nat.mod_lt _ (by decide)
      by_cases hi : i / 64 = r.count / 16
      · rw [if_pos hi, ← hi, BitVec.getLsbD_or, ← testBit_limbValue, BitVec.getLsbD_shiftLeft,
          BitVec.getLsbD_ofNat]
        by_cases hlow : i < 4 * r.count
        · rw [if_pos hlow]
          simp [show i % 64 < 4 * (r.count % 16) by omega]
        · rw [if_neg hlow, Nat.testBit_lt_two_pow (Nat.lt_of_lt_of_le hlt
            (Nat.pow_le_pow_right (by decide) (by omega))),
            show i % 64 - 4 * (r.count % 16) = i - 4 * r.count by omega]
          simp [ht, show ¬i % 64 < 4 * (r.count % 16) by omega,
            show i - 4 * r.count < 64 by omega]
      · rw [if_neg hi, ← testBit_limbValue]
        by_cases hlow : i < 4 * r.count
        · rw [if_pos hlow]
        · rw [if_neg hlow, Nat.testBit_lt_two_pow (Nat.lt_of_lt_of_le hlt
            (Nat.pow_le_pow_right (by decide) (by omega))), Nat.testBit_lt_two_pow]
          calc
            digit < 2 ^ 4 := hdigit
            _ ≤ 2 ^ (i - 4 * r.count) := Nat.pow_le_pow_right (by decide) (by omega)

theorem Reading.adds_of_push? {r s : Reading} {digit : Nat} (hdigit : digit < 16)
    (hlt : limbValue r.limbs < 2 ^ (4 * r.count)) (hpush : r.push? digit = some s) :
    r.Adds s [digit] := by
  have hfits : digit ≠ 0 → r.count / 16 < r.limbs.length := by
    intro hzero
    unfold push? at hpush
    rw [if_neg hzero] at hpush
    by_contra hbeyond
    rw [if_neg hbeyond] at hpush
    cases hpush
  obtain ⟨t, ht, hadds⟩ := push?_of_fits hdigit hlt hfits
  rw [hpush] at ht
  cases ht
  exact hadds

theorem Reading.lt_length_of_mul_lt {r : Reading} {digit : Nat} (hpos : digit ≠ 0)
    (hfits : 2 ^ (4 * r.count) * digit < 2 ^ (64 * r.limbs.length)) :
    r.count / 16 < r.limbs.length := by
  have hpow : 2 ^ (4 * r.count) < 2 ^ (64 * r.limbs.length) :=
    Nat.lt_of_le_of_lt (Nat.le_mul_of_pos_right _ (Nat.pos_of_ne_zero hpos)) hfits
  have hexponent := (Nat.pow_lt_pow_iff_right (by decide)).mp hpow
  omega

/-- The numbers of the digits of a text, underscores left out. -/
def digitValues (text : List Char) : List Nat :=
  (text.filter (· ≠ '_')).map Text.hexValue

theorem digitValues_underscore (rest : List Char) : digitValues ('_' :: rest) = digitValues rest := by
  simp [digitValues]

theorem digitValues_cons {c : Char} {digit : Nat} (hunderscore : c ≠ '_')
    (hdigit : Text.hexValue? c = some digit) (rest : List Char) :
    digitValues (c :: rest) = digit :: digitValues rest := by
  simp [digitValues, hunderscore, Text.hexValue, hdigit]

theorem readDigits_of_fits (quoted : String) (width : Nat) (text : List Char) (r : Reading)
    (htext : ∀ c ∈ text, c = '_' ∨ (Text.hexValue? c).isSome)
    (hlt : limbValue r.limbs < 2 ^ (4 * r.count))
    (hfits : 2 ^ (4 * r.count) * Nat.ofDigits 16 (digitValues text) + limbValue r.limbs <
      2 ^ (64 * r.limbs.length)) :
    ∃ s, readDigits quoted width text r = .ok s ∧ r.Adds s (digitValues text) := by
  induction text generalizing r with
  | nil => exact ⟨r, rfl, .nil r⟩
  | cons c rest ih =>
      have hrest : ∀ c ∈ rest, c = '_' ∨ (Text.hexValue? c).isSome :=
        fun other hother => htext other (List.mem_cons_of_mem _ hother)
      unfold readDigits
      by_cases hunderscore : c = '_'
      · rw [if_pos hunderscore]
        rw [hunderscore, digitValues_underscore] at hfits ⊢
        exact ih r hrest hlt hfits
      · obtain ⟨digit, hdigit⟩ := Option.isSome_iff_exists.mp
          ((htext c List.mem_cons_self).resolve_left hunderscore)
        have hbound := Text.lt_of_hexValue? hdigit
        rw [digitValues_cons hunderscore hdigit] at hfits ⊢
        obtain ⟨s, hs, hadds⟩ := Reading.push?_of_fits hbound hlt fun hpos =>
          Reading.lt_length_of_mul_lt hpos (by
            rw [Nat.ofDigits_cons, Nat.mul_add] at hfits
            omega)
        obtain ⟨final, hfinal, hfinalAdds⟩ := ih s hrest (hadds.limbValue_lt hbound hlt) (by
          rw [hadds.sum_eq, hadds.length_eq]
          exact hfits)
        refine ⟨final, ?_, hadds.cons hfinalAdds⟩
        rw [if_neg hunderscore, hdigit]
        dsimp only
        rw [hs]
        exact hfinal

theorem adds_of_readDigits {quoted : String} {width : Nat} {text : List Char} {r s : Reading}
    (hlt : limbValue r.limbs < 2 ^ (4 * r.count)) (hread : readDigits quoted width text r = .ok s) :
    (∀ c ∈ text, c = '_' ∨ (Text.hexValue? c).isSome) ∧ r.Adds s (digitValues text) := by
  induction text generalizing r with
  | nil =>
      cases hread
      exact ⟨fun c hc => absurd hc List.not_mem_nil, .nil _⟩
  | cons c rest ih =>
      unfold readDigits at hread
      by_cases hunderscore : c = '_'
      · rw [if_pos hunderscore] at hread
        obtain ⟨hrest, hadds⟩ := ih hlt hread
        rw [hunderscore, digitValues_underscore]
        exact ⟨List.forall_mem_cons.mpr ⟨.inl rfl, hrest⟩, hadds⟩
      · rw [if_neg hunderscore] at hread
        split at hread
        · cases hread
        · rename_i digit hdigit
          split at hread
          · cases hread
          · rename_i t hpush
            have hbound := Text.lt_of_hexValue? hdigit
            have hfirst := Reading.adds_of_push? hbound hlt hpush
            obtain ⟨hrest, hadds⟩ := ih (hfirst.limbValue_lt hbound hlt) hread
            rw [digitValues_cons hunderscore hdigit]
            exact ⟨List.forall_mem_cons.mpr ⟨.inr (by rw [hdigit]; rfl), hrest⟩, hfirst.cons hadds⟩

def spelled (text : List Char) : Nat :=
  Nat.ofDigits 16 (digitValues text.reverse)

theorem limbValue_replicate_zero (n : Nat) : limbValue (List.replicate n 0) = 0 := by
  induction n with
  | zero => rfl
  | succ n ih => rw [List.replicate_succ, limbValue, ih]; rfl

theorem Reading.Adds.of_zeros {n : Nat} {s : Reading} {values : List Nat}
    (hs : (⟨List.replicate n 0, 0⟩ : Reading).Adds s values) :
    s.count = values.length ∧ limbValue s.limbs = Nat.ofDigits 16 values := by
  obtain ⟨hcount, -, hvalue⟩ := hs
  rw [limbValue_replicate_zero, Nat.mul_zero, Nat.pow_zero, Nat.one_mul] at hvalue
  exact ⟨hcount.trans (Nat.zero_add _), hvalue⟩

theorem ofHexChars_of_lt {text : List Char} {width : Nat}
    (htext : ∀ c ∈ dropMark (Text.trim text), c = '_' ∨ (Text.hexValue? c).isSome)
    (hnonempty : digitValues (dropMark (Text.trim text)).reverse ≠ [])
    (hlt : spelled (dropMark (Text.trim text)) < 2 ^ width) :
    ∃ w, ofHexChars text width = .ok w := by
  have hpos := List.length_pos_iff.mpr hnonempty
  obtain ⟨r, hr, hadds⟩ := readDigits_of_fits (String.ofList (Text.trim text)) width
    (dropMark (Text.trim text)).reverse ⟨List.replicate (max 1 (limbCount width)) 0, 0⟩
    (fun c hc => htext c (List.mem_reverse.mp hc))
    (by rw [limbValue_replicate_zero]; exact Nat.two_pow_pos _)
    (by
      rw [limbValue_replicate_zero, List.length_replicate, Nat.mul_zero, Nat.pow_zero, Nat.one_mul]
      apply Nat.lt_of_lt_of_le hlt
      apply Nat.pow_le_pow_right (by decide)
      unfold limbCount
      omega)
  obtain ⟨hcount, hvalue⟩ := hadds.of_zeros
  have hfits : limbValue r.limbs < 2 ^ width := by
    rw [hvalue]
    exact hlt
  refine ⟨⟨width, resize r.limbs (limbCount width)⟩, ?_⟩
  unfold ofHexChars
  dsimp only
  rw [hr]
  change (if r.count = 0 then _ else _) = _
  rw [if_neg (by rw [hcount]; omega), ofLimbs_eq, if_pos hfits]

/-- A word that digits, underscores among them, spell at a width. -/
structure Spells (digits : List Char) (width : Nat) (w : Word) : Prop where
  only_digits : ∀ c ∈ digits, c = '_' ∨ (Text.hexValue? c).isSome
  nonempty : digitValues digits.reverse ≠ []
  width_eq : w.width = width
  wellFormed : w.WellFormed
  value_eq : w.value = spelled digits

theorem Spells.eq_of_spelled {digits other : List Char} {width : Nat} {w v : Word}
    (hw : Spells digits width w) (hv : Spells other width v)
    (hspelled : spelled digits = spelled other) : w = v :=
  hw.wellFormed.eq_of_value hv.wellFormed (hw.width_eq.trans hv.width_eq.symm)
    (hw.value_eq.trans (hspelled.trans hv.value_eq.symm))

theorem spells_of_ofHexChars {text : List Char} {width : Nat} {w : Word}
    (h : ofHexChars text width = .ok w) : Spells (dropMark (Text.trim text)) width w := by
  unfold ofHexChars at h
  dsimp only at h
  generalize dropMark (Text.trim text) = digits at h ⊢
  cases hread : readDigits (String.ofList (Text.trim text)) width digits.reverse
      ⟨List.replicate (max 1 (limbCount width)) 0, 0⟩ with
  | error fault =>
      rw [hread] at h
      cases h
  | ok r =>
      rw [hread] at h
      change (if r.count = 0 then _ else _) = _ at h
      obtain ⟨hdigits, hadds⟩ := adds_of_readDigits
        (by rw [limbValue_replicate_zero]; exact Nat.two_pow_pos _) hread
      obtain ⟨hcount, hvalue⟩ := hadds.of_zeros
      split at h
      · cases h
      · rename_i hnonempty
        obtain ⟨hwidth, hwf, hlimbs⟩ := wellFormed_of_ofLimbs h
        refine ⟨fun c hc => hdigits c (List.mem_reverse.mpr hc), ?_, hwidth, hwf,
          hlimbs.trans hvalue⟩
        rwa [ne_eq, ← List.length_eq_zero_iff, ← hcount]

theorem ofHexChars_eq_ok_iff {text : List Char} {width : Nat} {w : Word} :
    ofHexChars text width = .ok w ↔ Spells (dropMark (Text.trim text)) width w := by
  refine ⟨spells_of_ofHexChars, fun hw => ?_⟩
  have hlt : spelled (dropMark (Text.trim text)) < 2 ^ width := by
    rw [← hw.value_eq, ← hw.width_eq]
    exact hw.wellFormed.value_lt
  obtain ⟨v, hv⟩ := ofHexChars_of_lt hw.only_digits hw.nonempty hlt
  rw [hv, (spells_of_ofHexChars hv).eq_of_spelled hw rfl]

end Bitpack.Word
