import Bitpack.Text

/-!
Tokens of the literal that describes an array file: punctuation, strings, numbers and the three
constants, with spaces, tabs and form feeds between them.
-/
namespace Bitpack.Npy

/-- A number is `none` where it is not an integer; `other` is a byte string or the absent value. -/
inductive Token where
  | symbol (c : Char)
  | text (content : List Char)
  | number (value : Option Nat)
  | boolean (value : Bool)
  | other
  deriving DecidableEq, Repr

namespace Token

def isSpace (c : Char) : Bool :=
  c = ' ' || c = '\t' || c = '\x0c'

def isQuote (c : Char) : Bool :=
  c = '\x22' || c = '\x27'

def isLineBreak (c : Char) : Bool :=
  c = '\n' || c = '\r'

def isSymbol (c : Char) : Bool :=
  "()[]\x7b\x7d,:+-".toList.contains c

def after? (start text : List Char) : Option (List Char) :=
  if start.isPrefixOf text then some (text.drop start.length) else none

/-- What stands before the closing quotes, escapes unread, and what follows them. A line break
needs the long form of three quotes or a backslash. -/
def quoted? (close : List Char) : List Char → Option (List Char × List Char)
  | [] => none
  | '\\' :: c :: rest => (quoted? close rest).map fun (body, tail) => ('\\' :: c :: body, tail)
  | c :: rest =>
    if close.isPrefixOf (c :: rest) then some ([], (c :: rest).drop close.length)
    else if c = '\\' ∨ (isLineBreak c ∧ close.length = 1) then none
    else (quoted? close rest).map fun (body, tail) => (c :: body, tail)

def body? (quote : Char) (rest : List Char) : Option (List Char × List Char) :=
  match after? [quote, quote] rest with
  | some long => quoted? [quote, quote, quote] long
  | none => quoted? [quote] rest

def octalDigits (text : List Char) : List Char :=
  (text.take 3).takeWhile (Text.isDigitOf 8)

def simpleEscape? : Char → Option Char
  | '\\' => some '\\'
  | '\x27' => some '\x27'
  | '\x22' => some '\x22'
  | 'a' => some '\x07'
  | 'b' => some '\x08'
  | 'f' => some '\x0c'
  | 'n' => some '\n'
  | 'r' => some '\r'
  | 't' => some '\t'
  | 'v' => some '\x0b'
  | _ => none

def codeEscape? (letter : Char) (count : Nat) (rest : List Char) :
    Option (List Char × List Char) :=
  match Text.hexNumber? count rest with
  | none => some (['\\', letter], rest)
  | some (code, rest) => (Text.char? code).map fun c => ([c], rest)

/-- What a backslash and the text behind it stand for. Unknown escapes are kept as they are, and a
character cannot be given by name. -/
def escape? : List Char → Option (List Char × List Char)
  | [] => none
  | '\r' :: '\n' :: rest => some ([], rest)
  | c :: rest =>
    if isLineBreak c then some ([], rest)
    else if Text.isDigitOf 8 c then
      let octal := octalDigits (c :: rest)
      (Text.char? (Text.numberOf 8 octal)).map fun made => ([made], (c :: rest).drop octal.length)
    else if c = 'x' then codeEscape? c 2 rest
    else if c = 'u' then codeEscape? c 4 rest
    else if c = 'U' then codeEscape? c 8 rest
    else if c = 'N' ∧ rest.head? = some '\x7b' then none
    else
      match simpleEscape? c with
      | some made => some ([made], rest)
      | none => some (['\\', c], rest)

def unescape? : Nat → List Char → Option (List Char)
  | 0, _ => some []
  | _, [] => some []
  | fuel + 1, '\\' :: rest => do
    let (made, rest) ← escape? rest
    return made ++ (← unescape? fuel rest)
  | fuel + 1, c :: rest => return c :: (← unescape? fuel rest)

/-- Bytes are written in ASCII, and an octal escape must fit one of them. -/
def isByteBody : List Char → Bool
  | [] => true
  | '\\' :: c :: rest =>
    c.toNat < 128 && Text.numberOf 8 (octalDigits (c :: rest)) < 256 && isByteBody rest
  | c :: rest => c.toNat < 128 && isByteBody rest

def digitRun (isDigit : Char → Bool) : List Char → List Char × List Char
  | [] => ([], [])
  | c :: rest =>
    if isDigit c then
      let (digits, tail) := digitRun isDigit rest
      (c :: digits, tail)
    else if c = '_' ∧ rest.head?.any isDigit then digitRun isDigit rest
    else ([], c :: rest)

def dropExponent? : List Char → Option (List Char)
  | [] => none
  | c :: rest =>
    if c = 'e' ∨ c = 'E' then
      let unsigned := if rest.head?.any fun s => s = '+' || s = '-' then rest.drop 1 else rest
      if unsigned.head?.any Char.isDigit then some (digitRun Char.isDigit unsigned).2 else none
    else none

def dropFraction? : List Char → Option (List Char)
  | '.' :: rest =>
    some (if rest.head?.any Char.isDigit then (digitRun Char.isDigit rest).2 else rest)
  | _ => none

def dropImaginary? : List Char → Option (List Char)
  | 'j' :: rest => some rest
  | 'J' :: rest => some rest
  | _ => none

/-- Decimal digits, and the three endings that make a number inexact. -/
def decimal? (cs : List Char) : Option (Token × List Char) :=
  let (whole, rest) := digitRun Char.isDigit cs
  let bare := whole.isEmpty && !(rest.drop 1).head?.any Char.isDigit
  if bare then none else
    let fraction := dropFraction? rest
    let rest := fraction.getD rest
    let exponent := dropExponent? rest
    let rest := exponent.getD rest
    let imaginary := dropImaginary? rest
    let exact := fraction.isNone && exponent.isNone && imaginary.isNone
    some (number (if exact then some (Text.numberOf 10 whole) else none), imaginary.getD rest)

def baseOf? : Char → Option Nat
  | 'x' => some 16
  | 'X' => some 16
  | 'o' => some 8
  | 'O' => some 8
  | 'b' => some 2
  | 'B' => some 2
  | _ => none

def based? (cs : List Char) : Option (Token × List Char) :=
  match cs with
  | '0' :: letter :: rest => do
    let base ← baseOf? letter
    let (digits, tail) := digitRun (Text.isDigitOf base) rest
    if digits.isEmpty then none else some (number (some (Text.numberOf base digits)), tail)
  | _ => none

def number? (cs : List Char) : Option (Token × List Char) :=
  (based? cs).orElse fun _ => decimal? cs

def constant? (cs : List Char) : Option (Token × List Char) :=
  ((after? "True".toList cs).map (boolean true, ·)).orElse fun _ =>
    ((after? "False".toList cs).map (boolean false, ·)).orElse fun _ =>
      (after? "None".toList cs).map (other, ·)

def string? (quote : Char) (rest : List Char) : Option (Token × List Char) := do
  let (body, tail) ← body? quote rest
  return (text (← unescape? body.length body), tail)

def byteString? (rest : List Char) : Option (Token × List Char) :=
  match rest with
  | [] => none
  | quote :: rest => do
    let (body, tail) ← body? quote rest
    if isByteBody body then some (other, tail) else none

def first? : List Char → Option (Token × List Char)
  | [] => none
  | c :: rest =>
    if isSymbol c then some (symbol c, rest)
    else if isQuote c then string? c rest
    else if (c = 'b' ∨ c = 'B') ∧ rest.head?.any isQuote then byteString? rest
    else if c.isDigit ∨ c = '.' then number? (c :: rest)
    else constant? (c :: rest)

def scan? : Nat → List Char → Option (List Token)
  | 0, cs => if cs.dropWhile isSpace = [] then some [] else none
  | fuel + 1, cs =>
    match cs.dropWhile isSpace with
    | [] => some []
    | c :: rest => do
      let (token, tail) ← first? (c :: rest)
      return token :: (← scan? fuel tail)

def all? (cs : List Char) : Option (List Token) :=
  scan? cs.length cs

end Token

end Bitpack.Npy
