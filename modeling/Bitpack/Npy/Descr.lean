import Bitpack.Dtype

/-!
Type descriptions of array files, such as `<f4`: a byte order, a letter for the family and the size
of one value in bytes. A size of one byte has no order and is written with `|`.
-/
namespace Bitpack.Npy

structure Descr where
  kind : Char
  wordSize : Nat
  bigEndian : Bool
  deriving DecidableEq, Repr

namespace Descr

def chars (d : Descr) : List Char :=
  let order := if d.wordSize = 1 then '|' else if d.bigEndian then '>' else '<'
  order :: d.kind :: Text.digits d.wordSize

def text (d : Descr) : String :=
  String.ofList d.chars

/-- Whether the order is big-endian, and the text behind the order mark, which may be missing. -/
def order : List Char → Bool × List Char
  | '<' :: rest => (false, rest)
  | '|' :: rest => (false, rest)
  | '=' :: rest => (false, rest)
  | '>' :: rest => (true, rest)
  | rest => (false, rest)

/-- Any letter may name the family; the size is a decimal number below `2^64`. -/
def parseChars (text : List Char) : Except Error Descr :=
  match order text with
  | (_, []) => .error (.format (.descrEmpty (String.ofList text)))
  | (bigEndian, kind :: size) =>
    match Text.parse? (2 ^ 64) size with
    | some n => .ok ⟨kind, n, bigEndian⟩
    | none => .error (.format (.descrUnsupported (String.ofList text)))

def parse (text : String) : Except Error Descr :=
  parseChars text.toList

def ofDtype (d : Dtype) : Descr :=
  ⟨d.kind, d.bytes, false⟩

def dtype (descr : Descr) : Except Error Dtype :=
  match Dtype.all.find? fun d => d.kind == descr.kind && d.bytes == descr.wordSize with
  | some d => .ok d
  | none => .error (.format (.dtypeUnsupported descr.text))

end Descr

end Bitpack.Npy
