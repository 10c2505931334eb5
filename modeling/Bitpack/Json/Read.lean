import Bitpack.Json.Basic
import Bitpack.Text

/-!
Strict reading of JSON text: one value, white space around its parts, and nothing else.
-/
namespace Bitpack.Json

def isSpace (c : Char) : Bool :=
  c = ' ' || c = '\n' || c = '\t' || c = '\r'

def skipSpace (cs : List Char) : List Char :=
  cs.dropWhile isSpace

def after? (start cs : List Char) : Option (List Char) :=
  if start.isPrefixOf cs then some (cs.drop start.length) else none

def escapeCode? : Char → Option Nat
  | '\x22' => some 0x22
  | '\\' => some 0x5C
  | '/' => some 0x2F
  | 'b' => some 0x08
  | 'f' => some 0x0C
  | 'n' => some 0x0A
  | 'r' => some 0x0D
  | 't' => some 0x09
  | _ => none

/-- The codes of a string up to its closing quote. Control characters must be escaped. -/
def stringCodes? : List Char → Option (List Nat × List Char)
  | [] => none
  | '\x22' :: rest => some ([], rest)
  | '\\' :: 'u' :: a :: b :: c :: d :: rest =>
    if [a, b, c, d].all (Text.isDigitOf 16) then
      (stringCodes? rest).map fun (codes, tail) => (Text.numberOf 16 [a, b, c, d] :: codes, tail)
    else none
  | '\\' :: c :: rest => do
    let code ← escapeCode? c
    (stringCodes? rest).map fun (codes, tail) => (code :: codes, tail)
  | c :: rest =>
    if c.toNat < 0x20 ∨ c = '\\' then none
    else (stringCodes? rest).map fun (codes, tail) => (c.toNat :: codes, tail)

/-- The characters of a list of codes, where two halves of a surrogate pair are one character and
one half alone is none. -/
def ofCodes? : List Nat → Option (List Char)
  | [] => some []
  | [code] => (Text.char? code).map ([·])
  | code :: next :: rest =>
    if 0xD800 ≤ code ∧ code < 0xDC00 then
      if 0xDC00 ≤ next ∧ next < 0xE000 then do
        let c ← Text.char? (0x10000 + (code - 0xD800) * 0x400 + (next - 0xDC00))
        (ofCodes? rest).map (c :: ·)
      else none
    else do
      let c ← Text.char? code
      (ofCodes? (next :: rest)).map (c :: ·)

def string? (cs : List Char) : Option (Option (List Char) × List Char) :=
  (stringCodes? cs).map fun (codes, tail) => (ofCodes? codes, tail)

def digitsOf? (cs : List Char) : Option (List Char × List Char) :=
  if cs.head?.any Char.isDigit then some (cs.takeWhile Char.isDigit, cs.dropWhile Char.isDigit)
  else none

def whole? : List Char → Option (List Char × List Char)
  | '0' :: rest => some (['0'], rest)
  | cs => digitsOf? cs

def fraction? : List Char → Option (List Char × List Char)
  | '.' :: rest => (digitsOf? rest).map fun (digits, tail) => ('.' :: digits, tail)
  | cs => some ([], cs)

def exponentSign : List Char → List Char × List Char
  | '+' :: rest => (['+'], rest)
  | '-' :: rest => (['-'], rest)
  | cs => ([], cs)

def exponent? : List Char → Option (List Char × List Char)
  | [] => some ([], [])
  | c :: rest =>
    if c = 'e' ∨ c = 'E' then
      let (sign, unsigned) := exponentSign rest
      (digitsOf? unsigned).map fun (digits, tail) => (c :: sign ++ digits, tail)
    else some ([], c :: rest)

def minusSign : List Char → List Char × List Char
  | '-' :: rest => (['-'], rest)
  | cs => ([], cs)

def number? (cs : List Char) : Option (List Char × List Char) := do
  let (sign, rest) := minusSign cs
  let (whole, rest) ← whole? rest
  let (fraction, rest) ← fraction? rest
  let (exponent, rest) ← exponent? rest
  return (sign ++ whole ++ fraction ++ exponent, rest)

def constant? (cs : List Char) : Option (Json × List Char) :=
  ((after? "null".toList cs).map (null, ·)).orElse fun _ =>
    ((after? "true".toList cs).map (boolean true, ·)).orElse fun _ =>
      (after? "false".toList cs).map (boolean false, ·)

mutual

/-- A value at the start of a text; `fuel` bounds the length of the text. -/
def value? : Nat → List Char → Option (Json × List Char)
  | 0, _ => none
  | fuel + 1, cs =>
    match skipSpace cs with
    | [] => none
    | '\x22' :: rest => (string? rest).map fun (content, tail) => (text content, tail)
    | '[' :: rest =>
      match skipSpace rest with
      | ']' :: tail => some (list [], tail)
      | _ => (items? fuel rest).map fun (items, tail) => (list items, tail)
    | '\x7b' :: rest =>
      match skipSpace rest with
      | '\x7d' :: tail => some (object [], tail)
      | _ => (members? fuel rest).map fun (members, tail) => (object members, tail)
    | c :: rest =>
      if c = '-' ∨ c.isDigit then
        (number? (c :: rest)).map fun (literal, tail) => (number literal, tail)
      else constant? (c :: rest)

def items? : Nat → List Char → Option (List Json × List Char)
  | 0, _ => none
  | fuel + 1, cs => do
    let (item, rest) ← value? fuel cs
    match skipSpace rest with
    | ']' :: tail => some ([item], tail)
    | ',' :: tail => (items? fuel tail).map fun (items, tail) => (item :: items, tail)
    | _ => none

def members? : Nat → List Char → Option (List (Option (List Char) × Json) × List Char)
  | 0, _ => none
  | fuel + 1, cs =>
    match skipSpace cs with
    | '\x22' :: rest => do
      let (key, rest) ← string? rest
      match skipSpace rest with
      | ':' :: rest => do
        let (value, rest) ← value? fuel rest
        match skipSpace rest with
        | '\x7d' :: tail => some ([(key, value)], tail)
        | ',' :: tail =>
          (members? fuel tail).map fun (members, tail) => ((key, value) :: members, tail)
        | _ => none
      | _ => none
    | _ => none

end

def parse? (cs : List Char) : Option Json :=
  match value? (cs.length + 1) cs with
  | some (value, rest) => if skipSpace rest = [] then some value else none
  | none => none

end Bitpack.Json
