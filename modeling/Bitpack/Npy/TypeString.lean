import Bitpack.Text

/-!
The type strings that an array file may hold. Each family of types has its own sizes, its own use of
the byte order, and a unit of time exactly where it measures time.
-/
namespace Bitpack.Npy

structure TypeString where
  order : Char
  kind : Char
  size : Nat
  unit : Option (List Char)
  deriving DecidableEq, Repr

namespace TypeString

def units : List (List Char) :=
  ["Y", "M", "W", "D", "h", "m", "s", "ms", "us", "ns", "ps", "fs", "as"].map String.toList

def isTime (kind : Char) : Bool :=
  kind = 'm' || kind = 'M'

def isOrdered (kind : Char) : Bool :=
  "biufcmM".toList.contains kind

/-- The sizes of a family. -/
def sizeAllowed (kind : Char) (size : Nat) : Bool :=
  match kind with
  | 'b' => size == 1
  | 'i' => [1, 2, 4, 8].contains size
  | 'u' => [1, 2, 4, 8].contains size
  | 'f' => [2, 4, 8, 16].contains size
  | 'c' => [8, 16, 32].contains size
  | 'm' => size == 8
  | 'M' => size == 8
  | 'U' => size * 4 < 2 ^ 64
  | _ => true

/-- Text of code points has an order at every size, other families only above one byte. -/
def orderAllowed (order kind : Char) (size : Nat) : Bool :=
  order ≠ '|' || (kind ≠ 'U' && (!isOrdered kind || size == 1))

def isValid (t : TypeString) : Bool :=
  "<>|".toList.contains t.order && "biufcmMSaUV".toList.contains t.kind &&
    sizeAllowed t.kind t.size && orderAllowed t.order t.kind t.size &&
    t.unit.isSome == isTime t.kind && t.unit.all units.contains

def unit? : List Char → Option (Option (List Char))
  | [] => some none
  | '[' :: rest => if rest.getLast? = some ']' then some (some rest.dropLast) else none
  | _ => none

def parse? : List Char → Option TypeString
  | order :: kind :: rest => do
    let size ← (Text.ofDigits? (rest.takeWhile Char.isDigit)).filter (· < 2 ^ 64)
    let t : TypeString := ⟨order, kind, size, ← unit? (rest.dropWhile Char.isDigit)⟩
    if t.isValid then some t else none
  | _ => none

/-- The string in its usual spelling: the two letters of byte text become one. -/
def chars (t : TypeString) : List Char :=
  let kind := if t.kind = 'a' then 'S' else t.kind
  let unit := match t.unit with
    | none => []
    | some unit => '[' :: unit ++ [']']
  t.order :: kind :: Text.digits t.size ++ unit

end TypeString

end Bitpack.Npy
