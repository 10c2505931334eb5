import Bitpack.Error
import Bitpack.FloatFormat.Basic
import Bitpack.Text

/-!
The eleven numeric types of tensor files: signed and unsigned integers of one to eight bytes, and
the three floating-point formats.
-/
namespace Bitpack

inductive IntSize where
  | one
  | two
  | four
  | eight
  deriving DecidableEq, Repr

def IntSize.bytes : IntSize → Nat
  | one => 1
  | two => 2
  | four => 4
  | eight => 8

inductive Dtype where
  | int (size : IntSize)
  | uint (size : IntSize)
  | float (format : FloatFormat)
  deriving DecidableEq, Repr

namespace Dtype

def all : List Dtype :=
  [int .one, int .two, int .four, int .eight, uint .one, uint .two, uint .four, uint .eight,
    float .half, float .single, float .double]

def bytes : Dtype → Nat
  | int size => size.bytes
  | uint size => size.bytes
  | float format => format.bytes

abbrev width (d : Dtype) : Nat :=
  8 * d.bytes

def kind : Dtype → Char
  | int _ => 'i'
  | uint _ => 'u'
  | float _ => 'f'

def isFloat : Dtype → Bool
  | float _ => true
  | _ => false

def family : Dtype → String
  | int _ => "int"
  | uint _ => "uint"
  | float _ => "float"

def name (d : Dtype) : String :=
  d.family ++ toString d.width

def parse (text : String) : Except Error Dtype :=
  let lower := String.ofList ((Text.trim text.toList).map Char.toLower)
  match all.find? fun d => d.name == lower with
  | some d => .ok d
  | none => .error (.format (.dtypeUnknown text))

/-- The header text of the type in little-endian order; one byte has no order. -/
def descrText (d : Dtype) : String :=
  let order := if d.bytes = 1 then '|' else '<'
  String.ofList (order :: d.kind :: Text.digits d.bytes)

theorem bytes_pos (d : Dtype) : 0 < d.bytes := by
  rcases d with size | size | format
  · cases size <;> decide
  · cases size <;> decide
  · cases format <;> decide

theorem bytes_le (d : Dtype) : d.bytes ≤ 8 := by
  rcases d with size | size | format
  · cases size <;> decide
  · cases size <;> decide
  · cases format <;> decide

end Dtype

end Bitpack
