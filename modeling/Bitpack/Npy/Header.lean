import Bitpack.Bytes
import Bitpack.Npy.Descr
import Bitpack.Npy.Literal
import Bitpack.Npy.TypeString
import Bitpack.Size

/-!
Headers of array files: eight bytes with the version, the length of a literal, and the literal, a
dictionary with the type, the axis order and the shape. Sizes are exact below `2^64` and refused
from there on.
-/
namespace Bitpack.Npy

structure Header where
  descr : Descr
  fortranOrder : Bool
  shape : List Nat
  deriving DecidableEq, Repr

namespace Header

/-- The number of values of a shape, multiplied up from the first axis. -/
def elementCount (shape : List Nat) : Except Error Nat :=
  match shape.foldlM Size.checkedMul 1 with
  | some n => .ok n
  | none => .error (.format (.countOverflow shape))

def valueCount (h : Header) : Except Error Nat :=
  elementCount h.shape

def dataLength (h : Header) : Except Error Nat := do
  let count ← h.valueCount
  match Size.checkedMul count h.descr.wordSize with
  | some n => .ok n
  | none => .error (.format (.sizeOverflow h.shape))

def magic : Bytes :=
  [0x93, 0x4E, 0x55, 0x4D, 0x50, 0x59]

def lookup? (entries : List (Literal × Literal)) (key : String) : Option Literal :=
  (entries.reverse.find? fun entry =>
    match entry.1 with
    | .text content => content == key.toList
    | _ => false).map Prod.snd

def isText : Literal → Bool
  | .text _ => true
  | _ => false

def dimension? : Literal → Option Nat
  | .integer n => if 0 ≤ n ∧ n.toNat < Size.limit then some n.toNat else none
  | _ => none

def items? : Literal → Option (List Literal)
  | .tuple items => some items
  | .list items => some items
  | _ => none

def shape? (l : Literal) : Option (List Nat) :=
  (items? l).bind fun items => items.mapM dimension?

mutual

def describesType : Literal → Bool
  | .text content => (TypeString.parse? content).isSome
  | .list fields => describesFields fields
  | _ => false

def describesFields : List Literal → Bool
  | [] => true
  | field :: rest => describesField field && describesFields rest

def describesField : Literal → Bool
  | .tuple items => describesItems items
  | .list items => describesItems items
  | _ => false

def describesItems : List Literal → Bool
  | [] => false
  | _ :: [] => false
  | name :: type :: [] => isText name && describesType type
  | name :: type :: shape :: [] => isText name && describesType type && (shape? shape).isSome
  | _ => false

end

/-- The type of a header: a type string, or `none` for a record of fields. -/
def typeString? (l : Literal) : Option (Option TypeString) :=
  match l with
  | .text content => (TypeString.parse? content).map some
  | l => if describesType l then some none else none

structure Fields where
  type : Option TypeString
  fortranOrder : Bool
  shape : List Nat

def fields? (l : Literal) : Option Fields := do
  match l with
  | .dict entries =>
    if entries.all fun entry => isText entry.1 then
      let type ← typeString? (← lookup? entries "descr")
      let shape ← shape? (← lookup? entries "shape")
      match ← lookup? entries "fortran_order" with
      | .boolean fortranOrder => some ⟨type, fortranOrder, shape⟩
      | _ => none
    else none
  | _ => none

def chomp (text : List Char) : List Char :=
  if text.getLast? = some '\n' then text.dropLast else text

def split (bytes : Bytes) : Except IoError (Bytes × Bytes) :=
  if bytes.length < 8 ∨ bytes.take 6 ≠ magic then .error .invalidData
  else
    let version := (bytes.drop 6).take 2
    let size := if version = [1, 0] then 2 else 4
    if version ≠ [1, 0] ∧ version ≠ [2, 0] ∧ version ≠ [3, 0] then .error .invalidData
    else
      let lengthBytes := (bytes.drop 8).take size
      let body := bytes.drop (8 + size)
      let length := Bytes.toNat lengthBytes
      if lengthBytes.length < size ∨ body.length < length then .error .unexpectedEof
      else .ok (body.take length, body.drop length)

def ofBytes? (bytes : Bytes) : Option Fields := do
  let text ← Bytes.toText? bytes
  fields? (← Literal.parse? (chomp text.toList))

def ofFields (fields : Fields) : Except Error Header :=
  match fields.type with
  | none => .error (.format .structured)
  | some type => do return ⟨← Descr.parseChars type.chars, fields.fortranOrder, fields.shape⟩

def read (bytes : Bytes) : Except Error (Header × Bytes) :=
  match split bytes with
  | .error fault => .error (.io fault)
  | .ok (literal, rest) =>
    match ofBytes? literal with
    | none => .error (.io .invalidData)
    | some fields => do return (← ofFields fields, rest)

def literalChars (descr : List Char) (shape : List Nat) : List Char :=
  "\x7b'descr': '".toList ++ descr ++ "', 'fortran_order': False, 'shape': (".toList ++
    shape.flatMap (fun dim => Text.digits dim ++ ", ".toList) ++ "), \x7d".toList

/-- The literal with spaces and a line break, such that it ends at a multiple of 64 bytes behind a
start of the given length. -/
def padded (start : Nat) (literal : List Char) : List Char :=
  literal ++ List.replicate (63 - (literal.length + start) % 64) ' ' ++ ['\n']

/-- The start of a file. A literal too long for two bytes of length has four of them. -/
def write (d : Dtype) (shape : List Nat) : Bytes :=
  let literal := literalChars (Descr.ofDtype d).chars shape
  let short := padded 10 literal
  if short.length < 2 ^ 16 then
    magic ++ [1, 0] ++ Bytes.ofNat 2 short.length ++ Bytes.ofText (String.ofList short)
  else
    let long := padded 12 literal
    magic ++ [2, 0] ++ Bytes.ofNat 4 long.length ++ Bytes.ofText (String.ofList long)

end Header

end Bitpack.Npy
