import Bitpack.Arithmetic
/-!
Byte strings: little-endian and big-endian numbers, and UTF-8 text.
-/
namespace Bitpack

abbrev Bytes := List UInt8

namespace Bytes

def ofNat : Nat → Nat → Bytes
  | 0, _ => []
  | count + 1, n => UInt8.ofNat n :: ofNat count (n / 256)

def toNat : Bytes → Nat
  | [] => 0
  | byte :: rest => byte.toNat + 256 * toNat rest

def ofText (text : String) : Bytes :=
  text.toUTF8.data.toList

def toText? (bytes : Bytes) : Option String :=
  String.fromUTF8? ⟨bytes.toArray⟩

/-- Consecutive pieces of `size` bytes; a shorter rest is dropped. -/
def chunks (size : Nat) (bytes : Bytes) : List Bytes :=
  if _h : 0 < size ∧ size ≤ bytes.length then
    bytes.take size :: chunks size (bytes.drop size)
  else []
termination_by bytes.length
decreasing_by simp only [List.length_drop]; omega

end Bytes

end Bitpack
