import Bitpack.Npy.Literal

/-!
Reading a literal does not look into its texts. Whatever is done to the texts of the tokens is done to
the texts of the literal that they spell.
-/
namespace Bitpack.Npy

def Token.mapText (f : List Char → List Char) : Token → Token
  | .text content => .text (f content)
  | token => token

@[simp] theorem Token.mapText_symbol (f : List Char → List Char) (c : Char) :
    (Token.symbol c).mapText f = .symbol c :=
  rfl

theorem Token.mapText_eq_symbol_iff {f : List Char → List Char} {token : Token} {c : Char} :
    token.mapText f = .symbol c ↔ token = .symbol c := by
  cases token <;> simp [mapText]

namespace Literal

variable {f : List Char → List Char}

mutual

def mapText (f : List Char → List Char) : Literal → Literal
  | .text content => .text (f content)
  | .tuple items => .tuple (mapItems f items)
  | .list items => .list (mapItems f items)
  | .dict entries => .dict (mapEntries f entries)
  | .integer value => .integer value
  | .boolean value => .boolean value
  | .other => .other

def mapItems (f : List Char → List Char) : List Literal → List Literal
  | [] => []
  | item :: rest => mapText f item :: mapItems f rest

def mapEntries (f : List Char → List Char) : List (Literal × Literal) → List (Literal × Literal)
  | [] => []
  | (key, value) :: rest => (mapText f key, mapText f value) :: mapEntries f rest

end

theorem mapItems_eq_map (items : List Literal) : mapItems f items = items.map (mapText f) := by
  induction items with
  | nil => rfl
  | cons item rest ih => rw [mapItems, ih, List.map_cons]

theorem length_mapItems (items : List Literal) : (mapItems f items).length = items.length := by
  rw [mapItems_eq_map, List.length_map]

theorem mapEntries_eq_map (entries : List (Literal × Literal)) :
    mapEntries f entries = entries.map (Prod.map (mapText f) (mapText f)) := by
  induction entries with
  | nil => rfl
  | cons entry rest ih =>
      rw [mapEntries, ih, List.map_cons]
      rfl

/-- A literal and what follows it, both with other texts. -/
def mapFound (f : List Char → List Char) (found : Literal × List Token) : Literal × List Token :=
  (mapText f found.1, found.2.map (Token.mapText f))

theorem map_ne_symbol_cons {tokens : List Token} {c : Char}
    (h : ∀ rest, tokens = .symbol c :: rest → False) (rest : List Token) :
    tokens.map (Token.mapText f) = .symbol c :: rest → False := by
  intro heq
  obtain ⟨token, tail, rfl, htoken, -⟩ := List.map_eq_cons_iff.mp heq
  exact h tail (by rw [Token.mapText_eq_symbol_iff.mp htoken])

theorem signs_map (negative : Bool) (tokens : List Token) :
    signs negative (tokens.map (Token.mapText f)) =
      Prod.map id (List.map (Token.mapText f)) (signs negative tokens) := by
  fun_induction signs negative tokens with
  | case1 negative rest ih => exact ih
  | case2 negative rest ih => exact ih
  | case3 negative rest hplus hminus =>
      exact signs.eq_3 _ _ (map_ne_symbol_cons hplus) (map_ne_symbol_cons hminus)

theorem term?_map (tokens : List Token) :
    term? (tokens.map (Token.mapText f)) =
      (term? tokens).map (Prod.map id (List.map (Token.mapText f))) := by
  unfold term?
  rw [signs_map]
  obtain ⟨negative, rest⟩ := signs false tokens
  rcases rest with - | ⟨token, rest⟩
  · rfl
  · cases token <;> rfl

theorem sum_map (fuel : Nat) (total : Option Int) (tokens : List Token) :
    sum fuel total (tokens.map (Token.mapText f)) =
      Prod.map id (List.map (Token.mapText f)) (sum fuel total tokens) := by
  induction fuel generalizing total tokens with
  | zero => rfl
  | succ fuel ih =>
      rcases tokens with - | ⟨token, rest⟩
      · rfl
      cases token with
      | symbol c =>
          have hterm : term? (.symbol c :: rest.map (Token.mapText f)) = _ :=
            term?_map (.symbol c :: rest)
          change sum _ total (.symbol c :: rest.map (Token.mapText f)) = _
          rw [sum, sum, hterm]
          split
          · cases term? (.symbol c :: rest) with
            | none => rfl
            | some found => exact ih _ _
          · rfl
      | text content => rfl
      | number value => rfl
      | boolean value => rfl
      | other => rfl

theorem number?_map (tokens : List Token) :
    number? (tokens.map (Token.mapText f)) =
      (number? tokens).map (mapFound f) := by
  unfold number?
  rw [term?_map]
  cases term? tokens with
  | none => rfl
  | some found =>
      obtain ⟨first, rest⟩ := found
      change some ((sum _ first (rest.map (Token.mapText f))).1.elim other integer,
        (sum _ first (rest.map (Token.mapText f))).2) =
          some (mapText f ((sum rest.length first rest).1.elim other integer),
            (sum rest.length first rest).2.map (Token.mapText f))
      rw [List.length_map, sum_map, Prod.map_fst, Prod.map_snd, id]
      cases (sum rest.length first rest).1 <;> rfl

def Items.mapText (f : List Char → List Char) (found : Items) : Items :=
  ⟨mapItems f found.items, found.comma, found.rest.map (Token.mapText f)⟩

/-- What is read with some fuel from tokens with other texts. -/
structure ReadsMapped (f : List Char → List Char) (fuel : Nat) : Prop where
  value : ∀ tokens, value? fuel (tokens.map (Token.mapText f)) =
    (value? fuel tokens).map (mapFound f)
  items : ∀ close tokens, items? fuel close (tokens.map (Token.mapText f)) =
    (items? fuel close tokens).map (Items.mapText f)
  entries : ∀ key tokens, entries? fuel (mapText f key) (tokens.map (Token.mapText f)) =
    (entries? fuel key tokens).map (Prod.map (mapEntries f) (List.map (Token.mapText f)))

theorem head?_map_eq_symbol_iff {c : Char} (tokens : List Token) :
    (tokens.map (Token.mapText f)).head? = some (.symbol c) ↔ tokens.head? = some (.symbol c) := by
  rw [List.head?_map, Option.map_eq_some_iff]
  simp [Token.mapText_eq_symbol_iff]

def braces? (fuel : Nat) (first : Literal) : List Token → Option (Literal × List Token)
  | .symbol '\x7d' :: tail => some (other, tail)
  | .symbol ',' :: tail => (items? fuel '\x7d' tail).map fun found => (other, found.rest)
  | tokens => (entries? fuel first tokens).map (Prod.map dict id)

theorem value?_brace (fuel : Nat) (rest : List Token) :
    value? (fuel + 1) (.symbol '\x7b' :: rest) =
      if rest.head? = some (.symbol '\x7d') then some (dict [], rest.drop 1)
      else (value? fuel rest).bind fun found => braces? fuel found.1 found.2 := by
  rw [value?]
  split
  · rfl
  cases value? fuel rest with
  | none => rfl
  | some found =>
      obtain ⟨first, tail⟩ := found
      change _ = braces? fuel first tail
      fun_cases braces? fuel first tail with
      | case1 tail => rfl
      | case2 tail => exact Option.map_eq_bind.symm
      | case3 tail hclose hcomma =>
          simp only [Option.bind_eq_bind, Option.bind_some]
          exact Option.map_eq_bind.symm

def entryEnd? (fuel : Nat) (entry : Literal × Literal) :
    List Token → Option (List (Literal × Literal) × List Token)
  | .symbol '\x7d' :: tail => some ([entry], tail)
  | .symbol ',' :: tail =>
    if tail.head? = some (.symbol '\x7d') then some ([entry], tail.drop 1)
    else (value? fuel tail).bind fun next =>
      (entries? fuel next.1 next.2).map (Prod.map (entry :: ·) id)
  | _ => none

theorem entries?_colon (fuel : Nat) (key : Literal) (rest : List Token) :
    entries? (fuel + 1) key (.symbol ':' :: rest) =
      (value? fuel rest).bind fun found => entryEnd? fuel (key, found.1) found.2 := by
  rw [entries?]
  cases value? fuel rest with
  | none => rfl
  | some found =>
      obtain ⟨value, tail⟩ := found
      change _ = entryEnd? fuel (key, value) tail
      fun_cases entryEnd? fuel (key, value) tail with
      | case1 tail => rfl
      | case2 tail hclose => simp [hclose]
      | case3 tail hclose =>
          simp only [Option.bind_eq_bind, Option.bind_some, if_neg hclose]
          rcases value? fuel tail with - | ⟨next, rest⟩
          · rfl
          · exact Option.map_eq_bind.symm
      | case4 tail hclose hcomma => simp

namespace ReadsMapped

variable {fuel : Nat}

theorem braces (h : ReadsMapped f fuel) (first : Literal) (tokens : List Token) :
    braces? fuel (Literal.mapText f first) (tokens.map (Token.mapText f)) =
      (braces? fuel first tokens).map (mapFound f) := by
  fun_cases braces? fuel first tokens with
  | case1 tail => rfl
  | case2 tail =>
      change (items? fuel '\x7d' (tail.map (Token.mapText f))).map _ = _
      rw [h.items, Option.map_map, Option.map_map]
      rfl
  | case3 tokens hclose hcomma =>
      rw [braces?.eq_3 _ _ _ (map_ne_symbol_cons hclose) (map_ne_symbol_cons hcomma), h.entries,
        Option.map_map, Option.map_map]
      rfl

theorem value_succ (h : ReadsMapped f fuel) (tokens : List Token) :
    value? (fuel + 1) (tokens.map (Token.mapText f)) =
      (value? (fuel + 1) tokens).map (mapFound f) := by
  rcases tokens with - | ⟨token, rest⟩
  · rfl
  cases token with
  | text content => rfl
  | boolean value => rfl
  | other => rfl
  | number value => exact number?_map (.number value :: rest)
  | symbol c =>
      change value? (fuel + 1) (.symbol c :: rest.map (Token.mapText f)) = _
      by_cases htuple : c = '('
      · rw [htuple, value?, value?, h.items]
        cases items? fuel ')' rest with
        | none => rfl
        | some found =>
            change (if (mapItems f found.items).length = 1 ∧ !found.comma then none
              else some _) = Option.map _ (if found.items.length = 1 ∧ !found.comma then none
              else some (tuple found.items, found.rest))
            rw [length_mapItems]
            split <;> rfl
      by_cases hlist : c = '['
      · rw [hlist, value?, value?, h.items]
        cases items? fuel ']' rest <;> rfl
      by_cases hdict : c = '\x7b'
      · rw [hdict, value?_brace, value?_brace, h.value]
        simp only [head?_map_eq_symbol_iff]
        split
        · rw [← List.map_drop]
          rfl
        cases value? fuel rest with
        | none => rfl
        | some found => exact h.braces found.1 found.2
      rw [value?, value?]
      · exact number?_map (.symbol c :: rest)
      all_goals simp_all

theorem items_succ (h : ReadsMapped f fuel) (close : Char) (tokens : List Token) :
    items? (fuel + 1) close (tokens.map (Token.mapText f)) =
      (items? (fuel + 1) close tokens).map (Items.mapText f) := by
  rw [items?, items?, h.value]
  simp only [head?_map_eq_symbol_iff]
  split
  · rw [← List.map_drop]
    rfl
  rcases value? fuel tokens with - | ⟨item, rest⟩
  · rfl
  rcases rest with - | ⟨token, tail⟩
  · rfl
  cases token with
  | symbol c =>
      by_cases hclose : c = close
      · simp [mapFound, hclose, Items.mapText, mapItems]
      by_cases hcomma : c = ','
      · subst hcomma
        have hmore := h.items close tail
        cases hfound : items? fuel close tail with
        | none => simp [mapFound, hclose, hmore, hfound]
        | some more =>
            have hempty : (mapItems f more.items).isEmpty = more.items.isEmpty := by
              rw [mapItems_eq_map, List.isEmpty_map]
            simp [mapFound, hclose, hmore, hfound, Items.mapText, mapItems, hempty]
      · simp [mapFound, hclose, hcomma]
  | text content => rfl
  | number value => rfl
  | boolean value => rfl
  | other => rfl

theorem entryEnd (h : ReadsMapped f fuel) (entry : Literal × Literal) (tokens : List Token) :
    entryEnd? fuel (Prod.map (Literal.mapText f) (Literal.mapText f) entry)
        (tokens.map (Token.mapText f)) =
      (entryEnd? fuel entry tokens).map (Prod.map (mapEntries f) (List.map (Token.mapText f))) := by
  fun_cases entryEnd? fuel entry tokens with
  | case1 tail => rfl
  | case2 tail hclose =>
      have hclose' := (head?_map_eq_symbol_iff (f := f) tail).mpr hclose
      rw [List.map_cons, Token.mapText_symbol, entryEnd?, if_pos hclose', ← List.map_drop]
      rfl
  | case3 tail hclose =>
      have hclose' := mt (head?_map_eq_symbol_iff (f := f) tail).mp hclose
      rw [List.map_cons, Token.mapText_symbol, entryEnd?, if_neg hclose', h.value]
      rcases value? fuel tail with - | ⟨next, rest⟩
      · rfl
      change (entries? fuel (Literal.mapText f next) (rest.map (Token.mapText f))).map _ =
        ((entries? fuel next rest).map _).map _
      rw [h.entries, Option.map_map, Option.map_map]
      rfl
  | case4 tokens hclose hcomma =>
      rw [entryEnd?.eq_3 _ _ _ (map_ne_symbol_cons hclose) (map_ne_symbol_cons hcomma)]
      rfl

theorem entries_succ (h : ReadsMapped f fuel) (key : Literal) (tokens : List Token) :
    entries? (fuel + 1) (Literal.mapText f key) (tokens.map (Token.mapText f)) =
      (entries? (fuel + 1) key tokens).map (Prod.map (mapEntries f) (List.map (Token.mapText f))) := by
  by_cases hcolon : ∃ rest, tokens = .symbol ':' :: rest
  · obtain ⟨rest, rfl⟩ := hcolon
    rw [List.map_cons, Token.mapText_symbol, entries?_colon, entries?_colon, h.value]
    rcases value? fuel rest with - | ⟨value, tail⟩
    · rfl
    · exact h.entryEnd (key, value) tail
  · have hne : ∀ rest, tokens = .symbol ':' :: rest → False := fun rest heq => hcolon ⟨rest, heq⟩
    rw [entries?.eq_3 _ _ _ hne, entries?.eq_3 _ _ _ (map_ne_symbol_cons hne)]
    rfl

end ReadsMapped

theorem readsMapped (f : List Char → List Char) (fuel : Nat) : ReadsMapped f fuel := by
  induction fuel with
  | zero => exact ⟨fun _ => rfl, fun _ _ => rfl, fun _ _ => rfl⟩
  | succ fuel ih => exact ⟨ih.value_succ, ih.items_succ, ih.entries_succ⟩

end Literal

end Bitpack.Npy
