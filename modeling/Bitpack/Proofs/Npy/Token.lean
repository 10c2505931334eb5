import Bitpack.Npy.Token
import Bitpack.Proofs.Text.Decimal

/-!
Tokens of a text that is put together from them: what one token leaves, and how the tokens of a text
follow from the tokens of its rest.
-/
namespace Bitpack.Npy.Token

/-- The tokens of a text, however much fuel is left beyond its length. -/
def Scans (text : List Char) (tokens : List Token) : Prop :=
  ∀ fuel, text.length ≤ fuel → scan? fuel text = some tokens

theorem Scans.all?_eq {text : List Char} {tokens : List Token} (h : Scans text tokens) :
    all? text = some tokens :=
  h text.length (Nat.le_refl _)

theorem scans_nil : Scans [] [] := by
  intro fuel _
  cases fuel <;> rfl

theorem Scans.space {c : Char} {text : List Char} {tokens : List Token} (hc : isSpace c = true)
    (h : Scans text tokens) : Scans (c :: text) tokens := by
  intro fuel hfuel
  have hdrop : (c :: text).dropWhile isSpace = text.dropWhile isSpace :=
    List.dropWhile_cons_of_pos hc
  rw [← h fuel (Nat.le_trans (Nat.le_succ _) hfuel)]
  cases fuel <;> rw [scan?, scan?, hdrop]

theorem Scans.token {c : Char} {rest tail : List Char} {token : Token} {tokens : List Token}
    (h : Scans tail tokens) (hc : isSpace c = false)
    (hfirst : first? (c :: rest) = some (token, tail)) (hshorter : tail.length ≤ rest.length) :
    Scans (c :: rest) (token :: tokens) := by
  intro fuel hfuel
  rw [List.length_cons] at hfuel
  cases fuel with
  | zero => omega
  | succ fuel =>
      have hdrop : (c :: rest).dropWhile isSpace = c :: rest :=
        List.dropWhile_cons_of_neg (by rw [hc]; decide)
      have htail := h fuel (by omega)
      rw [scan?, hdrop]
      dsimp only
      rw [hfirst]
      change (scan? fuel tail).bind _ = _
      rw [htail]
      rfl

theorem Scans.spaces {text : List Char} (count : Nat) {tokens : List Token} (h : Scans text tokens) :
    Scans (List.replicate count ' ' ++ text) tokens := by
  induction count with
  | zero => exact h
  | succ count ih => exact ih.space rfl

theorem Scans.symbol {c : Char} {text : List Char} {tokens : List Token} (h : Scans text tokens)
    (hspace : isSpace c = false) (hsymbol : isSymbol c = true) :
    Scans (c :: text) (Token.symbol c :: tokens) := by
  refine h.token hspace ?_ (Nat.le_refl _)
  rw [first?, if_pos hsymbol]

theorem Scans.false_word {text : List Char} {tokens : List Token} (h : Scans text tokens) :
    Scans ('F' :: 'a' :: 'l' :: 's' :: 'e' :: text) (boolean false :: tokens) := by
  refine h.token rfl ?_ (by simp only [List.length_cons]; omega)
  simp [first?, isSymbol, isQuote, constant?, after?]

def isPlain (c : Char) : Bool :=
  c ≠ '\\' && c ≠ '\x27' && !isLineBreak c

theorem quoted?_plain {content : List Char} (hplain : ∀ c ∈ content, isPlain c = true)
    (rest : List Char) : quoted? ['\x27'] (content ++ '\x27' :: rest) = some (content, rest) := by
  induction content with
  | nil =>
      rw [List.nil_append, quoted?.eq_3 _ _ _ (fun _ _ heq _ => absurd heq (by decide)),
        if_pos (show ['\x27'].isPrefixOf ('\x27' :: rest) = true from rfl)]
      rfl
  | cons c content ih =>
      have hc := hplain c List.mem_cons_self
      have hcontent := ih fun other hother => hplain other (List.mem_cons_of_mem _ hother)
      simp only [isPlain, Bool.and_eq_true, decide_eq_true_eq, Bool.not_eq_true'] at hc
      obtain ⟨⟨hbackslash, hquote⟩, hbreak⟩ := hc
      rw [List.cons_append, quoted?.eq_3 _ _ _ (fun _ _ heq _ => hbackslash heq)]
      have htriple : ['\x27'].isPrefixOf (c :: (content ++ '\x27' :: rest)) = false := by
        simp [List.isPrefixOf, Ne.symm hquote]
      rw [htriple, if_neg (by decide), if_neg (by simp [hbackslash, hbreak]), hcontent]
      rfl

theorem unescape?_plain {content : List Char} (hplain : ∀ c ∈ content, isPlain c = true) :
    unescape? content.length content = some content := by
  induction content with
  | nil => rfl
  | cons c content ih =>
      have hc := hplain c List.mem_cons_self
      have hcontent := ih fun other hother => hplain other (List.mem_cons_of_mem _ hother)
      simp only [isPlain, Bool.and_eq_true, decide_eq_true_eq] at hc
      rw [List.length_cons, unescape?.eq_4 _ _ _ (fun heq => hc.1.1 heq), hcontent]
      rfl

theorem Scans.quoted {content text : List Char} {tokens : List Token} (h : Scans text tokens)
    (hne : content ≠ []) (hplain : ∀ c ∈ content, isPlain c = true) :
    Scans ('\x27' :: (content ++ '\x27' :: text)) (Token.text content :: tokens) := by
  refine h.token rfl ?_ (by rw [List.length_append, List.length_cons]; omega)
  have hbody : body? '\x27' (content ++ '\x27' :: text) = some (content, text) := by
    obtain ⟨c, more, rfl⟩ := List.exists_cons_of_ne_nil hne
    have hc := hplain c List.mem_cons_self
    simp only [isPlain, Bool.and_eq_true, decide_eq_true_eq] at hc
    have hshort : after? ['\x27', '\x27'] (c :: more ++ '\x27' :: text) = none := by
      simp [after?, Ne.symm hc.1.2]
    rw [body?, hshort]
    exact quoted?_plain hplain text
  rw [first?, if_neg (by decide), if_pos (by decide), string?, hbody]
  change (unescape? content.length content).bind _ = _
  rw [unescape?_plain hplain]
  rfl

theorem digitRun_append {run rest : List Char} (hrun : ∀ c ∈ run, c.isDigit = true)
    (hrest : rest.head?.any (fun c => c.isDigit || c = '_') = false) :
    digitRun Char.isDigit (run ++ rest) = (run, rest) := by
  induction run with
  | nil =>
      cases rest with
      | nil => rfl
      | cons c rest =>
          simp only [List.head?_cons, Option.any_some, Bool.or_eq_false_iff,
            decide_eq_false_iff_not] at hrest
          rw [List.nil_append, digitRun, if_neg (by rw [hrest.1]; decide),
            if_neg fun h => hrest.2 h.1]
  | cons c run ih =>
      rw [List.cons_append, digitRun, if_pos (hrun c List.mem_cons_self),
        ih fun other hother => hrun other (List.mem_cons_of_mem _ hother)]

theorem based?_eq_none {c letter : Char} (hletter : baseOf? letter = none) (rest : List Char) :
    based? (c :: letter :: rest) = none := by
  unfold based?
  split
  · rename_i heq
    cases heq
    rw [hletter]
    rfl
  · rfl

theorem digit_starts_number {c : Char} (hc : c.isDigit = true) :
    isSpace c = false ∧ isSymbol c = false ∧ isQuote c = false ∧ c ≠ 'b' ∧ c ≠ 'B' ∧
      baseOf? c = none := by
  obtain ⟨n, hn, rfl⟩ := Text.exists_digitChar hc
  have hall : ∀ m, m < 10 → isSpace m.digitChar = false ∧ isSymbol m.digitChar = false ∧
      isQuote m.digitChar = false ∧ m.digitChar ≠ 'b' ∧ m.digitChar ≠ 'B' ∧
      baseOf? m.digitChar = none := by decide
  exact hall n hn

theorem Scans.number {n : Nat} {text : List Char} {tokens : List Token}
    (h : Scans (',' :: text) tokens) :
    Scans (Text.digits n ++ ',' :: text) (Token.number (some n) :: tokens) := by
  have hnumber := Text.numberOf_digits n
  have hall : ∀ c ∈ Text.digits n, c.isDigit = true := fun c => Text.isDigit_of_mem_digits
  obtain ⟨c, more, hdigits⟩ := List.exists_cons_of_ne_nil (Text.digits_ne_nil n)
  rw [hdigits] at hnumber hall ⊢
  have hc := hall c List.mem_cons_self
  obtain ⟨hspace, hsymbol, hquote, hb, hB, -⟩ := digit_starts_number hc
  have hcomma : (',' :: text).head?.any (fun c => c.isDigit || c = '_') = false := rfl
  have hrun := digitRun_append hall hcomma
  rw [List.cons_append] at hrun ⊢
  have hbased : based? (c :: (more ++ ',' :: text)) = none := by
    cases more with
    | nil => exact based?_eq_none rfl _
    | cons letter more =>
        have hletter := hall letter (List.mem_cons_of_mem _ List.mem_cons_self)
        exact based?_eq_none (digit_starts_number hletter).2.2.2.2.2 _
  have hdecimal : decimal? (c :: (more ++ ',' :: text)) =
      some (Token.number (some n), ',' :: text) := by
    rw [decimal?, hrun]
    simp [dropFraction?, dropExponent?, dropImaginary?, hnumber]
  refine h.token hspace ?_ (by rw [List.length_append]; omega)
  rw [first?, if_neg (by rw [hsymbol]; decide), if_neg (by rw [hquote]; decide),
    if_neg (fun h => h.1.elim hb hB), if_pos (Or.inl hc), number?, hbased]
  exact hdecimal

end Bitpack.Npy.Token
