import Bitpack.Npy.Token

/-!
The literal that describes an array file: one value built from strings, numbers, constants, tuples,
lists, dictionaries and sets. A tuple of one item has a comma behind it; elsewhere one comma may
stand behind the last item.
-/
namespace Bitpack.Npy

/-- A literal, as far as a file header can use it; `other` stands for all kinds of no use there. -/
inductive Literal where
  | text (content : List Char)
  | integer (value : Int)
  | boolean (value : Bool)
  | tuple (items : List Literal)
  | list (items : List Literal)
  | dict (entries : List (Literal × Literal))
  | other

namespace Literal

def signs (negative : Bool) : List Token → Bool × List Token
  | .symbol '+' :: rest => signs negative rest
  | .symbol '-' :: rest => signs (!negative) rest
  | rest => (negative, rest)

def term? (tokens : List Token) : Option (Option Int × List Token) :=
  match signs false tokens with
  | (negative, .number value :: rest) =>
    some (value.map fun n => if negative then -(n : Int) else n, rest)
  | _ => none

def addNumbers (a b : Option Int) : Option Int :=
  a.bind fun x => b.map fun y => x + y

def sum : Nat → Option Int → List Token → Option Int × List Token
  | 0, total, rest => (total, rest)
  | fuel + 1, total, rest =>
    match rest with
    | .symbol c :: _ =>
      if c = '+' ∨ c = '-' then
        match term? rest with
        | some (value, tail) => sum fuel (addNumbers total value) tail
        | none => (total, rest)
      else (total, rest)
    | _ => (total, rest)

def number? (tokens : List Token) : Option (Literal × List Token) := do
  let (first, rest) ← term? tokens
  let (total, tail) := sum rest.length first rest
  return (total.elim other integer, tail)

structure Items where
  items : List Literal
  comma : Bool
  rest : List Token

mutual

/-- One value and what follows it; `fuel` bounds the number of tokens. -/
def value? : Nat → List Token → Option (Literal × List Token)
  | 0, _ => none
  | _, [] => none
  | fuel + 1, token :: rest =>
    match token with
    | .text content => some (.text content, rest)
    | .boolean b => some (.boolean b, rest)
    | .other => some (.other, rest)
    | .number _ => number? (token :: rest)
    | .symbol '(' => do
      let found ← items? fuel ')' rest
      if found.items.length = 1 ∧ !found.comma then none else some (.tuple found.items, found.rest)
    | .symbol '[' => do
      let found ← items? fuel ']' rest
      return (.list found.items, found.rest)
    | .symbol '\x7b' =>
      if rest.head? = some (.symbol '\x7d') then some (.dict [], rest.drop 1)
      else do
        let (first, tail) ← value? fuel rest
        match tail with
        | .symbol '\x7d' :: tail => some (.other, tail)
        | .symbol ',' :: tail =>
          let found ← items? fuel '\x7d' tail
          return (.other, found.rest)
        | _ =>
          let (entries, tail) ← entries? fuel first tail
          return (.dict entries, tail)
    | .symbol _ => number? (token :: rest)

def items? : Nat → Char → List Token → Option Items
  | 0, _, _ => none
  | fuel + 1, close, tokens =>
    if tokens.head? = some (.symbol close) then some ⟨[], false, tokens.drop 1⟩
    else do
      let (item, rest) ← value? fuel tokens
      match rest with
      | .symbol c :: tail =>
        if c = close then some ⟨[item], false, tail⟩
        else if c = ',' then
          let more ← items? fuel close tail
          some ⟨item :: more.items, more.items.isEmpty || more.comma, more.rest⟩
        else none
      | _ => none

/-- The entries of a dictionary from the one whose key has been read. -/
def entries? : Nat → Literal → List Token → Option (List (Literal × Literal) × List Token)
  | 0, _, _ => none
  | fuel + 1, key, tokens =>
    match tokens with
    | .symbol ':' :: rest => do
      let (value, rest) ← value? fuel rest
      match rest with
      | .symbol '\x7d' :: tail => some ([(key, value)], tail)
      | .symbol ',' :: tail =>
        if tail.head? = some (.symbol '\x7d') then some ([(key, value)], tail.drop 1)
        else do
          let (next, tail) ← value? fuel tail
          let (more, tail) ← entries? fuel next tail
          return ((key, value) :: more, tail)
      | _ => none
    | _ => none

end

def parse? (text : List Char) : Option Literal := do
  let tokens ← Token.all? text
  match ← value? (2 * tokens.length + 1) tokens with
  | (literal, []) => some literal
  | _ => none

end Literal

end Bitpack.Npy
