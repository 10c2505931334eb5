import Bitpack.Npy.Literal
import Bitpack.Proofs.Npy.Token

/-!
The dictionary of a header as tokens and as the value that they are read as.
-/
namespace Bitpack.Npy.Literal

theorem value?_number (fuel n : Nat) (rest : List Token) :
    value? (fuel + 1) (Token.number (some n) :: Token.symbol ',' :: rest) =
      some (integer n, Token.symbol ',' :: rest) := by
  simp [value?, number?, term?, signs, sum]

def dimTokens (shape : List Nat) : List Token :=
  shape.flatMap fun n => [Token.number (some n), Token.symbol ',']

theorem length_dimTokens (shape : List Nat) : (dimTokens shape).length = 2 * shape.length := by
  induction shape with
  | nil => rfl
  | cons n rest ih =>
      change (dimTokens rest).length + 2 = 2 * (rest.length + 1)
      rw [ih]
      omega

theorem items?_dimTokens {shape : List Nat} {fuel : Nat} (hfuel : shape.length < fuel)
    (rest : List Token) :
    items? fuel ')' (dimTokens shape ++ Token.symbol ')' :: rest) =
      some ⟨shape.map fun n => integer (n : Nat), !shape.isEmpty, rest⟩ := by
  induction shape generalizing fuel with
  | nil =>
      cases fuel with
      | zero => cases hfuel
      | succ fuel => simp [items?, dimTokens]
  | cons n shape ih =>
      cases fuel with
      | zero => cases hfuel
      | succ fuel =>
          rw [List.length_cons] at hfuel
          have hshape := ih (Nat.lt_of_succ_lt_succ hfuel)
          obtain ⟨fuel, rfl⟩ := Nat.exists_eq_succ_of_ne_zero (show fuel ≠ 0 by omega)
          have htokens : dimTokens (n :: shape) =
              Token.number (some n) :: Token.symbol ',' :: dimTokens shape :=
            rfl
          rw [htokens, List.cons_append, List.cons_append, items?, value?_number]
          simp [hshape]

theorem value?_dimTokens {shape : List Nat} {fuel : Nat} (hfuel : shape.length < fuel)
    (rest : List Token) :
    value? (fuel + 1) (Token.symbol '(' :: (dimTokens shape ++ Token.symbol ')' :: rest)) =
      some (tuple (shape.map fun n => integer (n : Nat)), rest) := by
  rw [value?, items?_dimTokens hfuel]
  cases shape <;> simp

theorem value?_text (fuel : Nat) (content : List Char) (rest : List Token) :
    value? (fuel + 1) (Token.text content :: rest) = some (text content, rest) :=
  rfl

theorem value?_boolean (fuel : Nat) (b : Bool) (rest : List Token) :
    value? (fuel + 1) (Token.boolean b :: rest) = some (boolean b, rest) :=
  rfl

theorem entries?_last {fuel : Nat} {value : Literal} {rest tail : List Token} (key : Literal)
    (hvalue : value? fuel rest =
      some (value, Token.symbol ',' :: Token.symbol '\x7d' :: tail)) :
    entries? (fuel + 1) key (Token.symbol ':' :: rest) = some ([(key, value)], tail) := by
  simp [entries?, hvalue]

theorem entries?_more {fuel : Nat} {value : Literal} {entries : List (Literal × Literal)}
    {next : List Char} {rest tail last : List Token} (key : Literal)
    (hvalue : value? (fuel + 1) rest =
      some (value, Token.symbol ',' :: Token.text next :: tail))
    (hmore : entries? (fuel + 1) (text next) tail = some (entries, last)) :
    entries? (fuel + 2) key (Token.symbol ':' :: rest) = some ((key, value) :: entries, last) := by
  rw [entries?, hvalue]
  simp [value?_text, hmore]

theorem value?_entries {fuel : Nat} {entries : List (Literal × Literal)} {key : List Char}
    {tail last : List Token}
    (hentries : entries? (fuel + 1) (text key) (Token.symbol ':' :: tail) = some (entries, last)) :
    value? (fuel + 2) (Token.symbol '\x7b' :: Token.text key :: Token.symbol ':' :: tail) =
      some (dict entries, last) := by
  simp [value?, hentries]

/-- The tokens of the dictionary with three entries that describes an array. -/
def headerTokens (descr : List Char) (shape : List Nat) : List Token :=
  Token.symbol '\x7b' :: Token.text "descr".toList :: Token.symbol ':' :: Token.text descr ::
    Token.symbol ',' :: Token.text "fortran_order".toList :: Token.symbol ':' ::
    Token.boolean false :: Token.symbol ',' :: Token.text "shape".toList :: Token.symbol ':' ::
    Token.symbol '(' ::
    (dimTokens shape ++ [Token.symbol ')', Token.symbol ',', Token.symbol '\x7d'])

def header (descr : List Char) (shape : List Nat) : Literal :=
  dict [(text "descr".toList, text descr), (text "fortran_order".toList, boolean false),
    (text "shape".toList, tuple (shape.map fun n => integer (n : Nat)))]

theorem value?_headerTokens (descr : List Char) {shape : List Nat} {fuel : Nat}
    (hfuel : shape.length < fuel) :
    value? (fuel + 5) (headerTokens descr shape) = some (header descr shape, []) := by
  have hshape := entries?_last (text "shape".toList)
    (value?_dimTokens hfuel [Token.symbol ',', Token.symbol '\x7d'])
  have horder := entries?_more (text "fortran_order".toList) (value?_boolean _ false _) hshape
  have hdescr := entries?_more (text "descr".toList) (value?_text _ descr _) horder
  exact value?_entries hdescr

theorem length_headerTokens (descr : List Char) (shape : List Nat) :
    (headerTokens descr shape).length = 2 * shape.length + 15 := by
  simp [headerTokens, length_dimTokens]

theorem parse?_of_scans {descr content : List Char} {shape : List Nat}
    (h : Token.Scans content (headerTokens descr shape)) :
    parse? content = some (header descr shape) := by
  have hfuel : 2 * (headerTokens descr shape).length + 1 = (4 * shape.length + 26) + 5 := by
    rw [length_headerTokens]
    omega
  unfold parse?
  rw [h.all?_eq]
  change (value? (2 * (headerTokens descr shape).length + 1) _).bind _ = _
  rw [hfuel, value?_headerTokens descr (by omega)]
  rfl

end Bitpack.Npy.Literal
