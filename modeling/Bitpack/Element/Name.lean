import Bitpack.Element.Basic
import Bitpack.Error
import Bitpack.Text

/-!
Names of element types: `INT4`, `UINT8`, `BINARY`, `BIPOLAR`, `FIXED<8,3>`, `FLOAT32`, `FLOAT16`.
Reading ignores the case of ASCII letters and white space around the name and around its numbers;
what `name` writes reads back as the same type.
-/
namespace Bitpack.ElementType

def nameChars : ElementType → List Char
  | int width => "INT".toList ++ Text.digits width.bits
  | uint width => if width.bits = 1 then "BINARY".toList else "UINT".toList ++ Text.digits width.bits
  | bipolar => "BIPOLAR".toList
  | fixed width intBits _ =>
    "FIXED<".toList ++ Text.digits width.bits ++ ',' :: Text.digits intBits ++ ['>']
  | float32 => "FLOAT32".toList
  | float16 => "FLOAT16".toList

def name (e : ElementType) : String :=
  String.ofList e.nameChars

def dropStart? (start text : List Char) : Option (List Char) :=
  if start.isPrefixOf text then some (text.drop start.length) else none

def fixedBody? (text : List Char) : Option (List Char) := do
  let rest ← dropStart? "FIXED<".toList text
  if rest.getLast? = some '>' then some rest.dropLast else none

def splitComma? (text : List Char) : Option (List Char × List Char) :=
  if ',' ∈ text then
    some (text.takeWhile (· ≠ ','), (text.dropWhile (· ≠ ',')).drop 1)
  else none

/-- A width below `2^32` with white space around it; `full` is the text that an error quotes. -/
def parseWidth (full : String) (text : List Char) : Except Error Nat :=
  match Text.parse? (2 ^ 32) (Text.trim text) with
  | some n => .ok n
  | none => .error (.element (.badWidth full))

def slotWidth (bits : Nat) : Except Error SlotWidth :=
  if h : 0 < bits ∧ bits ≤ 64 then .ok ⟨bits, h.1, h.2⟩
  else .error (.element (.widthRange bits))

def ofFixed (bits intBits : Nat) : Except Error ElementType := do
  let width ← slotWidth bits
  if h : intBits ≤ width.bits then .ok (.fixed width intBits h)
  else .error (.element (.integerBits bits intBits))

def keyword? (text : List Char) : Option ElementType :=
  if text = "BINARY".toList then some (.uint ⟨1, by decide, by decide⟩)
  else if text = "BIPOLAR".toList then some .bipolar
  else if text = "FLOAT32".toList then some .float32
  else if text = "FLOAT16".toList then some .float16
  else none

def parseUpper (full : String) (text : List Char) : Except Error ElementType :=
  match keyword? text with
  | some e => .ok e
  | none =>
    match dropStart? "UINT".toList text with
    | some rest => do return .uint (← slotWidth (← parseWidth full rest))
    | none =>
      match dropStart? "INT".toList text with
      | some rest => do return .int (← slotWidth (← parseWidth full rest))
      | none =>
        match fixedBody? text with
        | none => .error (.element (.unknown full))
        | some body =>
          match splitComma? body with
          | none => .error (.element (.noPair full))
          | some (bits, intBits) => do
            ofFixed (← parseWidth full bits) (← parseWidth full intBits)

def parse (text : String) : Except Error ElementType :=
  parseUpper text ((Text.trim text.toList).map Char.toUpper)

end Bitpack.ElementType
