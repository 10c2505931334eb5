import Bitpack.Npy.Header
import Bitpack.Scalar.Basic

/-!
Arrays as they are read from and written to files. The values of a file in either byte order are
kept as little-endian bytes, so that a file can be read as any type of the same width.
-/
namespace Bitpack

structure NpyArray where
  header : Npy.Header
  data : Bytes
  deriving DecidableEq, Repr

namespace NpyArray

def shape (a : NpyArray) : List Nat :=
  a.header.shape

def wordSize (a : NpyArray) : Nat :=
  a.header.descr.wordSize

def valueCount (a : NpyArray) : Nat :=
  a.data.length / a.wordSize

def dtype (a : NpyArray) : Except Error Dtype :=
  a.header.descr.dtype

/-- The values read as a type, which must have the width of the file's own. -/
def values (a : NpyArray) (d : Dtype) : Except Error (List (Scalar d)) :=
  if a.wordSize ≠ d.bytes then .error (.sizeMismatch d.bytes a.wordSize)
  else .ok ((a.data.chunks d.bytes).map (Scalar.ofLittleEndian d))

/-- The bytes of values in a byte order, as little-endian bytes. -/
def toLittleEndian (descr : Npy.Descr) (data : Bytes) : Bytes :=
  if descr.bigEndian then (data.chunks descr.wordSize).flatMap List.reverse else data

/-- Reads the array at the start of the bytes; what follows its values is ignored. -/
def read (bytes : Bytes) : Except Error NpyArray := do
  let (header, rest) ← Npy.Header.read bytes
  if header.fortranOrder then .error (.format .fortranOrder)
  else
    let _ ← header.descr.dtype
    let length ← header.dataLength
    if rest.length < length then .error (.format .truncated)
    else return ⟨header, toLittleEndian header.descr (rest.take length)⟩

def write {d : Dtype} (shape : List Nat) (values : List (Scalar d)) : Except Error Bytes := do
  let count ← Npy.Header.elementCount shape
  if count ≠ values.length then .error (.shape (.count shape count values.length))
  else return Npy.Header.write d shape ++ values.flatMap Scalar.toLittleEndian

end NpyArray

end Bitpack
