import Bitpack.Json.Read

/-!
Limits of JSON values that are kept as numbers and texts: integers of 64 bits, other numbers within
the range of a double, whole characters, and a bounded depth.
-/
namespace Bitpack.Json

def natural? : Json → Option Nat
  | number literal => (Text.ofDigits? literal).filter (· < 2 ^ 64)
  | _ => none

def boolean? : Json → Option Bool
  | boolean value => some value
  | _ => none

def text? : Json → Option (List Char)
  | text content => content
  | _ => none

def decimalParts (literal : List Char) : Nat × Int :=
  let isMark (c : Char) : Bool := c = 'e' || c = 'E'
  let mantissa := (minusSign (literal.takeWhile fun c => !isMark c)).2
  let whole := mantissa.takeWhile (· ≠ '.')
  let fraction := (mantissa.dropWhile (· ≠ '.')).drop 1
  let (sign, power) := exponentSign ((literal.dropWhile fun c => !isMark c).drop 1)
  let size : Int := Text.numberOf 10 power
  (Text.numberOf 10 (whole ++ fraction), (if sign = ['-'] then -size else size) - fraction.length)

/-- Whether the number rounds to a finite double: it is less than half a unit above the greatest.
A number of more than 400 digits is too large, and a small one need not be computed. -/
def isFinite (literal : List Char) : Bool :=
  let (significand, power) := decimalParts literal
  let limit := (2 ^ 54 - 1) * 2 ^ 970
  if significand = 0 then true
  else if (400 : Int) < (Text.digits significand).length + power then false
  else if 0 ≤ power then significand * 10 ^ power.toNat < limit
  else (Text.digits significand).length + power ≤ 300 || significand < limit * 10 ^ (-power).toNat

mutual

def isKept (depth : Nat) : Json → Bool
  | null => true
  | boolean _ => true
  | number literal => isFinite literal
  | text content => content.isSome
  | list items => 0 < depth && areKept (depth - 1) items
  | object members => 0 < depth && membersKept (depth - 1) members

def areKept (depth : Nat) : List Json → Bool
  | [] => true
  | item :: rest => isKept depth item && areKept depth rest

def membersKept (depth : Nat) : List (Option (List Char) × Json) → Bool
  | [] => true
  | (key, value) :: rest => key.isSome && isKept depth value && membersKept depth rest

end

/-- The value of a key, `some none` where it is missing; a key given twice is refused. -/
def member? (members : List (List Char × Json)) (key : String) : Option (Option Json) :=
  match members.filter fun m => m.1 == key.toList with
  | [] => some none
  | [(_, value)] => some (some value)
  | _ => none

def required? (members : List (List Char × Json)) (key : String) : Option Json :=
  (member? members key).bind id

def optional? {α : Type} (members : List (List Char × Json)) (key : String)
    (read : Json → Option α) (default : α) : Option α :=
  match member? members key with
  | none => none
  | some none => some default
  | some (some value) => read value

def keyed? (members : List (Option (List Char) × Json)) : Option (List (List Char × Json)) :=
  members.mapM fun (key, value) => key.map (·, value)

end Bitpack.Json
