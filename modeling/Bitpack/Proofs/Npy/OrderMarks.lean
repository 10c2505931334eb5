import Mathlib.Tactic.SplitIfs
import Bitpack.Proofs.Npy.Renaming

/-!
Reading does not tell the two order marks apart. Neither of them is a space, a quote, a digit or a
symbol, so that texts which differ only in such marks have the same tokens but for their strings.
-/
namespace Bitpack.Npy

/-- A character, with both order marks shown as one. -/
def blur (c : Char) : Char :=
  if c = '>' then '<' else c

theorem apply_blur {α : Type} {p : Char → α} (hp : p '<' = p '>') (c : Char) : p (blur c) = p c := by
  unfold blur
  split
  · rename_i hc
    rw [hc, hp]
  · rfl

@[simp] theorem blur_blur (c : Char) : blur (blur c) = blur c :=
  apply_blur rfl c

@[simp] theorem blur_comp_blur : blur ∘ blur = blur :=
  funext blur_blur

theorem eq_of_blur_eq {c : Char} (hc : blur c = '<') : c = '<' ∨ c = '>' := by
  unfold blur at hc
  split at hc
  · exact .inr ‹_›
  · exact .inl hc

def IsUnmarked (c : Char) : Prop :=
  c ≠ '<' ∧ c ≠ '>'

instance : DecidablePred IsUnmarked :=
  fun c => inferInstanceAs (Decidable (c ≠ '<' ∧ c ≠ '>'))

theorem blur_eq_iff {a c : Char} (ha : IsUnmarked a) : blur c = a ↔ c = a :=
  iff_of_eq (apply_blur (p := (· = a)) (propext (iff_of_false (Ne.symm ha.1) (Ne.symm ha.2))) c)

theorem IsUnmarked.blur_eq {c : Char} (hc : IsUnmarked c) : blur c = c :=
  (blur_eq_iff hc).mpr rfl

theorem isUnmarked_of {p : Char → Bool} (hless : p '<' = false) (hgreater : p '>' = false) {c : Char}
    (hc : p c = true) : IsUnmarked c := by
  constructor
  · rintro rfl
    exact absurd (hc.symm.trans hless) (by decide)
  · rintro rfl
    exact absurd (hc.symm.trans hgreater) (by decide)

theorem unmarked_of_all {text : List Char} (h : text.all (fun c => decide (IsUnmarked c)) = true) :
    ∀ c ∈ text, IsUnmarked c :=
  fun c hc => of_decide_eq_true (List.all_eq_true.mp h c hc)

theorem map_blur_of_unmarked {text : List Char} (htext : ∀ c ∈ text, IsUnmarked c) :
    text.map blur = text := by
  rw [List.map_congr_left fun c hc => (htext c hc).blur_eq]
  exact List.map_id' text

theorem map_blur_eq_iff {text other : List Char} (hother : ∀ c ∈ other, IsUnmarked c) :
    text.map blur = other ↔ text = other := by
  constructor
  · intro heq
    induction text generalizing other with
    | nil => exact heq
    | cons c rest ih =>
        cases other with
        | nil => cases heq
        | cons a other =>
            obtain ⟨hc, hrest⟩ := List.cons.inj heq
            rw [(blur_eq_iff (hother a List.mem_cons_self)).mp hc,
              ih (fun b hb => hother b (List.mem_cons_of_mem a hb)) hrest]
  · rintro rfl
    exact map_blur_of_unmarked hother

theorem isPrefixOf_map_blur {start : List Char} (hstart : ∀ c ∈ start, IsUnmarked c)
    (text : List Char) : start.isPrefixOf (text.map blur) = start.isPrefixOf text := by
  induction start generalizing text with
  | nil => rfl
  | cons a start ih =>
      cases text with
      | nil => rfl
      | cons c text =>
          have ha : (a == blur c) = (a == c) := by
            rw [Bool.eq_iff_iff, beq_iff_eq, beq_iff_eq, eq_comm,
              blur_eq_iff (hstart a List.mem_cons_self), eq_comm]
          rw [List.map_cons, List.isPrefixOf, List.isPrefixOf, ha,
            ih fun b hb => hstart b (List.mem_cons_of_mem a hb)]

def blurBoth (texts : List Char × List Char) : List Char × List Char :=
  (texts.1.map blur, texts.2.map blur)

theorem map_bind_congr {α β γ δ : Type} {p : α → γ} {q : β → δ} {f g : α → Option β}
    {a b : Option α} (h : a.map p = b.map p)
    (hfg : ∀ x y, p x = p y → (f x).map q = (g y).map q) : (a.bind f).map q = (b.bind g).map q := by
  cases a with
  | none =>
      cases b with
      | none => rfl
      | some y => cases h
  | some x =>
      cases b with
      | none => cases h
      | some y => exact hfg x y (Option.some.inj h)

theorem congr_of_map_blur {α β : Type} {f : List Char → Option α} {q : α → β}
    (hf : ∀ text, (f (text.map blur)).map q = (f text).map q) {text other : List Char}
    (heq : text.map blur = other.map blur) : (f text).map q = (f other).map q := by
  rw [← hf text, heq, hf other]

namespace Token

theorem after?_map_blur {start : List Char} (hstart : ∀ c ∈ start, IsUnmarked c) (text : List Char) :
    after? start (text.map blur) = (after? start text).map (List.map blur) := by
  unfold after?
  rw [isPrefixOf_map_blur hstart]
  split
  · rw [Option.map_some, List.map_drop]
  · rfl

theorem isLineBreak_blur (c : Char) : isLineBreak (blur c) = isLineBreak c :=
  apply_blur rfl c

theorem not_escape_map_blur {c : Char} {rest : List Char}
    (hne : ∀ next tail, c = '\\' → rest = next :: tail → False) (next : Char) (tail : List Char)
    (hc : blur c = '\\') : rest.map blur = next :: tail → False := by
  intro hrest
  obtain ⟨next', tail', rfl, -⟩ := List.map_eq_cons_iff.mp hrest
  exact hne next' tail' ((blur_eq_iff (by decide)).mp hc) rfl

theorem quoted?_map_blur {close : List Char} (hclose : ∀ c ∈ close, IsUnmarked c)
    (text : List Char) : quoted? close (text.map blur) = (quoted? close text).map blurBoth := by
  induction text using quoted?.induct close with
  | case1 => rfl
  | case2 c rest ih =>
      rw [List.map_cons, List.map_cons, show blur '\\' = '\\' from rfl, quoted?, quoted?, ih,
        Option.map_map, Option.map_map]
      rfl
  | case3 c rest hne hclosed =>
      rw [List.map_cons, quoted?.eq_3 _ _ _ (not_escape_map_blur hne), quoted?.eq_3 _ _ _ hne,
        ← List.map_cons, isPrefixOf_map_blur hclose, if_pos hclosed, if_pos hclosed, ← List.map_drop]
      rfl
  | case4 c rest hne hclosed hbreak =>
      have hbreak' : blur c = '\\' ∨ isLineBreak (blur c) = true ∧ close.length = 1 := by
        rwa [blur_eq_iff (by decide), isLineBreak_blur]
      rw [List.map_cons, quoted?.eq_3 _ _ _ (not_escape_map_blur hne), quoted?.eq_3 _ _ _ hne,
        ← List.map_cons, isPrefixOf_map_blur hclose, if_neg hclosed, if_neg hclosed, if_pos hbreak,
        if_pos hbreak']
      rfl
  | case5 c rest hne hclosed hbreak ih =>
      have hbreak' : ¬(blur c = '\\' ∨ isLineBreak (blur c) = true ∧ close.length = 1) := by
        rwa [blur_eq_iff (by decide), isLineBreak_blur]
      rw [List.map_cons, quoted?.eq_3 _ _ _ (not_escape_map_blur hne), quoted?.eq_3 _ _ _ hne,
        ← List.map_cons, isPrefixOf_map_blur hclose, if_neg hclosed, if_neg hclosed, if_neg hbreak,
        if_neg hbreak', ih, Option.map_map, Option.map_map]
      rfl

theorem body?_map_blur {quote : Char} (hquote : isQuote quote = true) (rest : List Char) :
    body? quote (rest.map blur) = (body? quote rest).map blurBoth := by
  have hunmarked : ∀ {quotes : List Char}, (∀ c ∈ quotes, c = quote) →
      ∀ c ∈ quotes, IsUnmarked c := by
    intro quotes hquotes c hc
    rw [hquotes c hc]
    exact isUnmarked_of rfl rfl hquote
  unfold body?
  rw [after?_map_blur (hunmarked (by simp))]
  cases after? [quote, quote] rest with
  | none => exact quoted?_map_blur (hunmarked (by simp)) rest
  | some long => exact quoted?_map_blur (hunmarked (by simp)) long

theorem hexValue?_blur (c : Char) : Text.hexValue? (blur c) = Text.hexValue? c :=
  apply_blur rfl c

theorem isDigitOf_blur (base : Nat) (c : Char) :
    Text.isDigitOf base (blur c) = Text.isDigitOf base c := by
  rw [Text.isDigitOf, hexValue?_blur]
  rfl

theorem numberOf_map_blur (base : Nat) (text : List Char) :
    Text.numberOf base (text.map blur) = Text.numberOf base text := by
  unfold Text.numberOf Text.hexValue
  rw [List.foldl_map]
  simp only [hexValue?_blur]

theorem octalDigits_map_blur (text : List Char) :
    octalDigits (text.map blur) = (octalDigits text).map blur := by
  have hdigit : Text.isDigitOf 8 ∘ blur = Text.isDigitOf 8 := funext (isDigitOf_blur 8)
  unfold octalDigits
  rw [← List.map_take, List.takeWhile_map, hdigit]

theorem hexNumber?_map_blur (count : Nat) (text : List Char) :
    Text.hexNumber? count (text.map blur) =
      (Text.hexNumber? count text).map fun found => (found.1, found.2.map blur) := by
  have hdigit : Text.isDigitOf 16 ∘ blur = Text.isDigitOf 16 := funext (isDigitOf_blur 16)
  unfold Text.hexNumber?
  dsimp only
  rw [← List.map_take, List.length_map, List.all_map, hdigit, numberOf_map_blur, ← List.map_drop]
  split <;> rfl

/-- What an escape stands for may be a mark itself, so that only the blurred texts agree. -/
theorem codeEscape?_map_blur (letter : Char) (count : Nat) (rest : List Char) :
    (codeEscape? letter count (rest.map blur)).map blurBoth =
      (codeEscape? letter count rest).map blurBoth := by
  unfold codeEscape?
  rw [hexNumber?_map_blur]
  cases Text.hexNumber? count rest with
  | none => simp [blurBoth]
  | some found =>
      rw [Option.map_some]
      dsimp only
      rw [Option.map_map, Option.map_map]
      congr 1
      funext c
      simp [blurBoth]

theorem simpleEscape?_blur (c : Char) : simpleEscape? (blur c) = simpleEscape? c :=
  apply_blur rfl c

theorem head?_map_blur_eq_some_iff {c : Char} (hc : IsUnmarked c) (text : List Char) :
    (text.map blur).head? = some c ↔ text.head? = some c := by
  cases text with
  | nil => exact Iff.rfl
  | cons first rest =>
      rw [List.map_cons, List.head?_cons, List.head?_cons, Option.some_inj, Option.some_inj]
      exact blur_eq_iff hc

theorem escape?_map_blur (text : List Char) :
    (escape? (text.map blur)).map blurBoth = (escape? text).map blurBoth := by
  rcases text with - | ⟨c, rest⟩
  · rfl
  by_cases hbreak : c = '\r' ∧ rest.head? = some '\n'
  · obtain ⟨rfl, hrest⟩ := hbreak
    obtain ⟨rest, rfl⟩ := List.head?_eq_some_iff.mp hrest
    change some ([], (rest.map blur).map blur) = some ([], rest.map blur)
    simp
  · have hne : ∀ tail, c = '\r' → rest = '\n' :: tail → False := by
      rintro tail hc rfl
      exact hbreak ⟨hc, rfl⟩
    have hne' : ∀ tail, blur c = '\r' → rest.map blur = '\n' :: tail → False := by
      intro tail hc htail
      refine hbreak ⟨(blur_eq_iff (by decide)).mp hc, ?_⟩
      rw [← head?_map_blur_eq_some_iff (by decide), htail]
      rfl
    rw [List.map_cons, escape?.eq_3 _ _ hne, escape?.eq_3 _ _ hne', ← List.map_cons]
    simp (disch := decide) only [isLineBreak_blur, isDigitOf_blur, blur_eq_iff, simpleEscape?_blur,
      head?_map_blur_eq_some_iff, octalDigits_map_blur, numberOf_map_blur, List.length_map]
    split_ifs with hline hdigit hx hu hU hN
    · simp [blurBoth]
    · rw [← List.map_drop, Option.map_map, Option.map_map]
      congr 1
      funext made
      simp [blurBoth]
    · rw [hx]
      exact codeEscape?_map_blur 'x' 2 rest
    · rw [hu]
      exact codeEscape?_map_blur 'u' 4 rest
    · rw [hU]
      exact codeEscape?_map_blur 'U' 8 rest
    · rfl
    · cases simpleEscape? c <;> simp [blurBoth]

theorem unescape?_map_blur (fuel : Nat) (text : List Char) :
    (unescape? fuel (text.map blur)).map (List.map blur) =
      (unescape? fuel text).map (List.map blur) := by
  induction fuel generalizing text with
  | zero => rfl
  | succ fuel ih =>
      rcases text with - | ⟨c, rest⟩
      · rfl
      by_cases hc : c = '\\'
      · rw [hc, List.map_cons, show blur '\\' = '\\' from rfl, unescape?, unescape?]
        refine map_bind_congr (escape?_map_blur rest) fun x y hxy => ?_
        obtain ⟨hmade, hrest⟩ := Prod.mk.inj hxy
        refine map_bind_congr (congr_of_map_blur ih hrest) fun text other heq => ?_
        change some ((x.1 ++ text).map blur) = some ((y.1 ++ other).map blur)
        rw [List.map_append, List.map_append, hmade, heq]
      · have hc' : ¬blur c = '\\' := by rwa [blur_eq_iff (by decide)]
        rw [List.map_cons, unescape?.eq_4 _ _ _ hc, unescape?.eq_4 _ _ _ hc']
        refine map_bind_congr (ih rest) fun text other heq => ?_
        change some ((blur c :: text).map blur) = some ((c :: other).map blur)
        rw [List.map_cons, List.map_cons, blur_blur, heq]

theorem isByteBody_map_blur (body : List Char) : isByteBody (body.map blur) = isByteBody body := by
  have hascii : ∀ c, decide ((blur c).toNat < 128) = decide (c.toNat < 128) :=
    apply_blur (p := fun c => decide (c.toNat < 128)) rfl
  induction body using isByteBody.induct with
  | case1 => rfl
  | case2 c rest ih =>
      rw [List.map_cons, List.map_cons, show blur '\\' = '\\' from rfl, isByteBody, isByteBody,
        ← List.map_cons, octalDigits_map_blur, numberOf_map_blur, hascii, ih]
  | case3 c rest hne ih =>
      rw [List.map_cons, isByteBody.eq_3 _ _ (not_escape_map_blur hne), isByteBody.eq_3 _ _ hne,
        hascii, ih]

theorem head?_any_map_blur {p : Char → Bool} (hp : ∀ c, p (blur c) = p c) (text : List Char) :
    (text.map blur).head?.any p = text.head?.any p := by
  rw [List.head?_map, Option.any_map]
  simp only [hp]

theorem digitRun_map_blur {isDigit : Char → Bool} (hdigit : ∀ c, isDigit (blur c) = isDigit c)
    (text : List Char) : digitRun isDigit (text.map blur) = blurBoth (digitRun isDigit text) := by
  induction text with
  | nil => rfl
  | cons c rest ih =>
      rw [List.map_cons, digitRun, digitRun]
      simp (disch := decide) only [hdigit, blur_eq_iff, head?_any_map_blur hdigit, ih]
      split_ifs <;> rfl

theorem isDigit_blur (c : Char) : (blur c).isDigit = c.isDigit :=
  apply_blur (p := Char.isDigit) rfl c

theorem digitRun_tail_map_blur (text : List Char) :
    (if (text.map blur).head?.any Char.isDigit then
        some (digitRun Char.isDigit (text.map blur)).2
      else none) =
      (if text.head?.any Char.isDigit then some (digitRun Char.isDigit text).2 else none).map
        (List.map blur) := by
  rw [head?_any_map_blur isDigit_blur, digitRun_map_blur isDigit_blur]
  split <;> rfl

theorem dropExponent?_map_blur (text : List Char) :
    dropExponent? (text.map blur) = (dropExponent? text).map (List.map blur) := by
  rcases text with - | ⟨c, rest⟩
  · rfl
  have hsign := apply_blur (p := fun s => decide (s = '+') || decide (s = '-')) rfl
  have hunsigned :
      (if (rest.map blur).head?.any fun s => s = '+' || s = '-' then (rest.map blur).drop 1
        else rest.map blur) =
        (if rest.head?.any fun s => s = '+' || s = '-' then rest.drop 1 else rest).map blur := by
    rw [head?_any_map_blur hsign]
    split
    · exact List.map_drop.symm
    · rfl
  rw [List.map_cons, dropExponent?, dropExponent?]
  simp (disch := decide) only [blur_eq_iff]
  split
  · rw [hunsigned]
    exact digitRun_tail_map_blur _
  · rfl

theorem dropFraction?_map_blur (text : List Char) :
    dropFraction? (text.map blur) = (dropFraction? text).map (List.map blur) := by
  by_cases hpoint : text.head? = some '.'
  · obtain ⟨rest, rfl⟩ := List.head?_eq_some_iff.mp hpoint
    rw [List.map_cons, show blur '.' = '.' from rfl, dropFraction?, dropFraction?,
      head?_any_map_blur isDigit_blur, digitRun_map_blur isDigit_blur]
    split <;> rfl
  · have hne : ∀ {text : List Char}, text.head? ≠ some '.' → dropFraction? text = none :=
      fun hhead => dropFraction?.eq_2 _ fun rest heq => hhead (by rw [heq, List.head?_cons])
    rw [hne hpoint, hne (mt (head?_map_blur_eq_some_iff (by decide) text).mp hpoint)]
    rfl

theorem dropImaginary?_map_blur (text : List Char) :
    dropImaginary? (text.map blur) = (dropImaginary? text).map (List.map blur) := by
  by_cases hletter : text.head? = some 'j' ∨ text.head? = some 'J'
  · obtain hj | hj := hletter <;>
    · obtain ⟨rest, rfl⟩ := List.head?_eq_some_iff.mp hj
      rfl
  · have hne : ∀ {text : List Char}, ¬(text.head? = some 'j' ∨ text.head? = some 'J') →
        dropImaginary? text = none := by
      intro text hhead
      exact dropImaginary?.eq_3 _ (fun rest heq => hhead (.inl (by rw [heq, List.head?_cons])))
        (fun rest heq => hhead (.inr (by rw [heq, List.head?_cons])))
    rw [hne hletter, hne (by
      rwa [head?_map_blur_eq_some_iff (by decide), head?_map_blur_eq_some_iff (by decide)])]
    rfl

def blurRest (found : Token × List Char) : Token × List Char :=
  (found.1, found.2.map blur)

theorem getD_map_blur (found : Option (List Char)) (text : List Char) :
    (found.map (List.map blur)).getD (text.map blur) = (found.getD text).map blur :=
  Option.getD_map (List.map blur) text found

theorem decimal?_map_blur (text : List Char) :
    decimal? (text.map blur) = (decimal? text).map blurRest := by
  unfold decimal?
  rw [digitRun_map_blur isDigit_blur]
  obtain ⟨whole, rest⟩ := digitRun Char.isDigit text
  dsimp only [blurBoth]
  rw [dropFraction?_map_blur, ← List.map_drop, head?_any_map_blur isDigit_blur, List.isEmpty_map,
    getD_map_blur, dropExponent?_map_blur, getD_map_blur, dropImaginary?_map_blur, getD_map_blur,
    numberOf_map_blur, Option.isNone_map, Option.isNone_map, Option.isNone_map]
  split
  · rfl
  · rfl

theorem baseOf?_blur (c : Char) : baseOf? (blur c) = baseOf? c :=
  apply_blur rfl c

theorem based?_map_blur (text : List Char) :
    based? (text.map blur) = (based? text).map blurRest := by
  by_cases hzero : ∃ letter rest, text = '0' :: letter :: rest
  · obtain ⟨letter, rest, rfl⟩ := hzero
    rw [List.map_cons, List.map_cons, show blur '0' = '0' from rfl, based?, based?, baseOf?_blur]
    cases baseOf? letter with
    | none => rfl
    | some base =>
        change (if (digitRun _ (rest.map blur)).1.isEmpty then none else some (number (some
          (Text.numberOf base (digitRun _ (rest.map blur)).1)), (digitRun _ (rest.map blur)).2)) =
          Option.map _ (if (digitRun _ rest).1.isEmpty then none else some (number (some
            (Text.numberOf base (digitRun _ rest).1)), (digitRun _ rest).2))
        rw [digitRun_map_blur (isDigitOf_blur base), blurBoth, List.isEmpty_map, numberOf_map_blur]
        split <;> rfl
  · have hblur : ∀ letter rest, text.map blur = '0' :: letter :: rest → False := by
      intro letter rest heq
      obtain ⟨c, tail, rfl, hc, htail⟩ := List.map_eq_cons_iff.mp heq
      obtain ⟨next, tail, rfl, -, -⟩ := List.map_eq_cons_iff.mp htail
      exact hzero ⟨next, tail, by rw [(blur_eq_iff (by decide)).mp hc]⟩
    rw [based?.eq_2 _ hblur, based?.eq_2 _ fun letter rest heq => hzero ⟨letter, rest, heq⟩]
    rfl

theorem number?_map_blur (text : List Char) :
    number? (text.map blur) = (number? text).map blurRest := by
  unfold number?
  rw [based?_map_blur, decimal?_map_blur]
  cases based? text <;> rfl

theorem word?_map_blur {word : List Char} (hword : ∀ c ∈ word, IsUnmarked c) (token : Token)
    (text : List Char) :
    (after? word (text.map blur)).map (token, ·) =
      ((after? word text).map (token, ·)).map blurRest := by
  rw [after?_map_blur hword, Option.map_map, Option.map_map]
  rfl

theorem constant?_map_blur (text : List Char) :
    constant? (text.map blur) = (constant? text).map blurRest := by
  unfold constant?
  rw [word?_map_blur (unmarked_of_all (by decide)), word?_map_blur (unmarked_of_all (by decide)),
    word?_map_blur (unmarked_of_all (by decide))]
  cases after? "True".toList text with
  | some rest => rfl
  | none => cases after? "False".toList text <;> rfl

def blurFound (found : Token × List Char) : Token × List Char :=
  (found.1.mapText (List.map blur), found.2.map blur)

theorem blurFound_blurRest (found : Token × List Char) :
    blurFound (blurRest found) = blurFound found := by
  simp [blurFound, blurRest]

theorem map_blurFound_of_eq {found blurred : Option (Token × List Char)}
    (h : blurred = found.map blurRest) : blurred.map blurFound = found.map blurFound := by
  rw [h, Option.map_map, show blurFound ∘ blurRest = blurFound from funext blurFound_blurRest]

theorem string?_map_blur {quote : Char} (hquote : isQuote quote = true) (rest : List Char) :
    (string? quote (rest.map blur)).map blurFound = (string? quote rest).map blurFound := by
  unfold string?
  rw [body?_map_blur hquote]
  rcases body? quote rest with - | ⟨body, tail⟩
  · rfl
  change ((unescape? (body.map blur).length (body.map blur)).bind _).map _ =
    ((unescape? body.length body).bind _).map _
  rw [List.length_map]
  refine map_bind_congr (unescape?_map_blur body.length body) fun text other heq => ?_
  simp [blurFound, mapText, heq]

theorem byteString?_map_blur {rest : List Char} (hquote : rest.head?.any isQuote = true) :
    byteString? (rest.map blur) = (byteString? rest).map blurRest := by
  rcases rest with - | ⟨quote, rest⟩
  · rfl
  have hquote : isQuote quote = true := hquote
  rw [List.map_cons, (isUnmarked_of rfl rfl hquote).blur_eq, byteString?, byteString?,
    body?_map_blur hquote]
  rcases body? quote rest with - | ⟨body, tail⟩
  · rfl
  change (if isByteBody (body.map blur) then some (other, tail.map blur) else none) =
    Option.map _ (if isByteBody body then some (other, tail) else none)
  rw [isByteBody_map_blur]
  split <;> rfl

theorem isSymbol_blur (c : Char) : isSymbol (blur c) = isSymbol c :=
  apply_blur rfl c

theorem isQuote_blur (c : Char) : isQuote (blur c) = isQuote c :=
  apply_blur rfl c

theorem first?_map_blur (text : List Char) :
    (first? (text.map blur)).map blurFound = (first? text).map blurFound := by
  rcases text with - | ⟨c, rest⟩
  · rfl
  rw [List.map_cons, first?, first?, ← List.map_cons]
  simp (disch := decide) only [isSymbol_blur, isQuote_blur, blur_eq_iff, isDigit_blur,
    head?_any_map_blur isQuote_blur]
  split_ifs with hsymbol hquote hbytes hnumber
  · rw [(isUnmarked_of rfl rfl hsymbol).blur_eq]
    simp [blurFound]
  · rw [(isUnmarked_of rfl rfl hquote).blur_eq]
    exact string?_map_blur hquote rest
  · exact map_blurFound_of_eq (byteString?_map_blur hbytes.2)
  · exact map_blurFound_of_eq (number?_map_blur (c :: rest))
  · exact map_blurFound_of_eq (constant?_map_blur (c :: rest))

theorem dropWhile_isSpace_map_blur (text : List Char) :
    (text.map blur).dropWhile isSpace = (text.dropWhile isSpace).map blur := by
  have hspace : isSpace ∘ blur = isSpace := funext fun c => apply_blur rfl c
  rw [List.dropWhile_map, hspace]

theorem scan?_map_blur (fuel : Nat) (text : List Char) :
    (scan? fuel (text.map blur)).map (List.map (mapText (List.map blur))) =
      (scan? fuel text).map (List.map (mapText (List.map blur))) := by
  induction fuel generalizing text with
  | zero =>
      rw [scan?, scan?, dropWhile_isSpace_map_blur]
      simp
  | succ fuel ih =>
      rw [scan?, scan?, dropWhile_isSpace_map_blur]
      rcases text.dropWhile isSpace with - | ⟨c, rest⟩
      · rfl
      refine map_bind_congr (first?_map_blur (c :: rest)) fun x y hxy => ?_
      obtain ⟨htoken, htail⟩ := Prod.mk.inj hxy
      refine map_bind_congr (congr_of_map_blur ih htail) fun tokens others heq => ?_
      change some ((x.1 :: tokens).map _) = some ((y.1 :: others).map _)
      rw [List.map_cons, List.map_cons, htoken, heq]

theorem all?_map_blur (text : List Char) :
    (all? (text.map blur)).map (List.map (mapText (List.map blur))) =
      (all? text).map (List.map (mapText (List.map blur))) := by
  unfold all?
  rw [List.length_map]
  exact scan?_map_blur text.length text

end Token

namespace Literal

theorem parse?_map_blur (text : List Char) :
    (parse? (text.map blur)).map (mapText (List.map blur)) =
      (parse? text).map (mapText (List.map blur)) := by
  unfold parse?
  refine map_bind_congr (Token.all?_map_blur text) fun tokens others heq => ?_
  have hlength : tokens.length = others.length := by
    rw [← List.length_map, heq, List.length_map]
  have hvalue := (readsMapped (List.map blur) (2 * tokens.length + 1)).value
  rw [← hlength]
  refine map_bind_congr ((hvalue tokens).symm.trans (heq ▸ hvalue others)) fun x y hxy => ?_
  obtain ⟨hliteral, hrest⟩ := Prod.mk.inj hxy
  obtain ⟨literal, rest⟩ := x
  obtain ⟨literal', rest'⟩ := y
  rcases rest with - | ⟨token, rest⟩
  · obtain rfl := List.map_eq_nil_iff.mp hrest.symm
    exact congrArg some hliteral
  · obtain ⟨token', tail, rfl, -, -⟩ := List.map_eq_cons_iff.mp hrest.symm
    rfl

end Literal

end Bitpack.Npy
