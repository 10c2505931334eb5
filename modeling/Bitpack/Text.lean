import Bitpack.Arithmetic

/-!
Texts: white space at their ends, and numbers in decimal and hexadecimal digits. Trimming removes exactly
the characters of the Unicode property `White_Space`, at both ends and nowhere inside. A decimal number
is written without leading zeros; it is read with leading zeros and one plus sign as well, and refused
at or above a limit.
-/
namespace Bitpack.Text

/-- The twenty-five characters with the Unicode property `White_Space`. -/
def isBlank (c : Char) : Bool :=
  let n := c.toNat
  (0x9 ≤ n && n ≤ 0xD) || n == 0x20 || n == 0x85 || n == 0xA0 || n == 0x1680 ||
    (0x2000 ≤ n && n ≤ 0x200A) || n == 0x2028 || n == 0x2029 || n == 0x202F || n == 0x205F ||
    n == 0x3000

def trimLeft (text : List Char) : List Char :=
  text.dropWhile isBlank

def trim (text : List Char) : List Char :=
  (trimLeft (trimLeft text).reverse).reverse

def digits (n : Nat) : List Char :=
  Nat.toDigits 10 n

def ofDigits? (text : List Char) : Option Nat :=
  if text ≠ [] ∧ text.all Char.isDigit then some (Nat.ofDigitChars 10 text 0) else none

def dropPlus : List Char → List Char
  | '+' :: rest => rest
  | text => text

/-- A decimal number below `limit`, with an optional plus sign. -/
def parse? (limit : Nat) (text : List Char) : Option Nat :=
  (ofDigits? (dropPlus text)).filter (· < limit)

def bracketed (items : List String) : String :=
  "[" ++ ", ".intercalate items ++ "]"

def shape (dims : List Nat) : String :=
  bracketed (dims.map toString)

def hexValue? (c : Char) : Option Nat :=
  if '0' ≤ c ∧ c ≤ '9' then some (c.toNat - '0'.toNat)
  else if 'a' ≤ c ∧ c ≤ 'f' then some (c.toNat - 'a'.toNat + 10)
  else if 'A' ≤ c ∧ c ≤ 'F' then some (c.toNat - 'A'.toNat + 10)
  else none

def hexValue (c : Char) : Nat :=
  (hexValue? c).getD 0

def isDigitOf (base : Nat) (c : Char) : Bool :=
  (hexValue? c).any (· < base)

def numberOf (base : Nat) (text : List Char) : Nat :=
  text.foldl (fun n c => base * n + hexValue c) 0

def hexNumber? (count : Nat) (text : List Char) : Option (Nat × List Char) :=
  let digits := text.take count
  if digits.length = count ∧ digits.all (isDigitOf 16) then
    some (numberOf 16 digits, text.drop count)
  else none

def char? (code : Nat) : Option Char :=
  if code.isValidChar then some (Char.ofNat code) else none

end Bitpack.Text
