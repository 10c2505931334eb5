import Bitpack.Text
import Bitpack.Word.Basic

/-!
Words as hexadecimal text: `0x` and one lower-case digit for every started group of four bits, at
least one digit. Reading takes digits of either case, underscores between them and any number of
leading zeros, and refuses a number that the width cannot hold.
-/
namespace Bitpack.Word

def nibbleCount (width : Nat) : Nat :=
  max 1 ((width + 3) / 4)

def nibble (w : Word) (i : Nat) : Nat :=
  if 4 * i < w.width then (w.slice (4 * i) (min 4 (w.width - 4 * i))).toNat else 0

def hexDigits (w : Word) : List Char :=
  ((List.range (nibbleCount w.width)).map fun i => (w.nibble i).digitChar).reverse

def hexChars (w : Word) : List Char :=
  '0' :: 'x' :: w.hexDigits

def toHex (w : Word) : String :=
  String.ofList w.hexChars

/-- The limbs read so far and how many digits they came from. -/
structure Reading where
  limbs : List (BitVec 64)
  count : Nat

/-- One more digit, four bits above the last. Only zeros may go beyond the limbs. -/
def Reading.push? (r : Reading) (digit : Nat) : Option Reading :=
  let i := r.count / 16
  if digit = 0 then some { r with count := r.count + 1 }
  else if i < r.limbs.length then
    let bits := BitVec.ofNat 64 digit <<< (4 * (r.count % 16))
    some ⟨r.limbs.set i (r.limbs.getD i 0 ||| bits), r.count + 1⟩
  else none

/-- The digits of a text from its end to its start; errors quote `text`. -/
def readDigits (text : String) (width : Nat) : List Char → Reading → Except Error Reading
  | [], r => .ok r
  | c :: rest, r =>
    if c = '_' then readDigits text width rest r
    else
      match Text.hexValue? c with
      | none => .error (.format (.hexDigit c text))
      | some digit =>
        match r.push? digit with
        | none => .error (.format (.hexOverflow text width))
        | some r => readDigits text width rest r

def dropMark : List Char → List Char
  | '0' :: 'x' :: rest => rest
  | '0' :: 'X' :: rest => rest
  | text => text

def ofHexChars (text : List Char) (width : Nat) : Except Error Word := do
  let trimmed := Text.trim text
  let quoted := String.ofList trimmed
  let start : Reading := ⟨List.replicate (max 1 (limbCount width)) 0, 0⟩
  let r ← readDigits quoted width (dropMark trimmed).reverse start
  if r.count = 0 then .error (.format (.hexEmpty quoted)) else ofLimbs width r.limbs

def ofHex (text : String) (width : Nat) : Except Error Word :=
  ofHexChars text.toList width

end Bitpack.Word
