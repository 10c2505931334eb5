import Bitpack.Platform
import Bitpack.Scalar.Basic

/-!
Conversion between numeric types. Integers wrap, a float loses its fraction and stops at the limits
of an integer type, and a float type takes the nearest of its values. Every conversion passes
through one of three carriers: 64 bits read as signed, 64 bits read as unsigned, or a double.
-/
namespace Bitpack.Scalar

def doubleOfInt (n : Int) : FloatValue :=
  FloatFormat.double.nearest (.ofInt n)

/-- The number in 64 bits, modulo `2^64`; a float is first cut to the signed range. -/
def toSigned : {d : Dtype} → Scalar d → BitVec 64
  | .int _, x => x.signExtend 64
  | .uint _, x => x.setWidth 64
  | .float format, x => BitVec.ofInt 64 ((format.value x).truncate (-2 ^ 63) (2 ^ 63 - 1))

def toUnsigned : {d : Dtype} → Scalar d → BitVec 64
  | .int _, x => x.signExtend 64
  | .uint _, x => x.setWidth 64
  | .float format, x => BitVec.ofInt 64 ((format.value x).truncate 0 (2 ^ 64 - 1))

def toDouble : {d : Dtype} → Scalar d → FloatValue
  | .int _, x => doubleOfInt x.toInt
  | .uint _, x => doubleOfInt x.toNat
  | .float format, x => format.value x

/-- A half is made from the nearest double of the integer. -/
def floatOfInt [Platform] (format : FloatFormat) (n : Int) : BitVec format.width :=
  match format with
  | .half => FloatFormat.half.ofDouble (doubleOfInt n)
  | .single => FloatFormat.single.round (.ofInt n)
  | .double => FloatFormat.double.round (.ofInt n)

def ofSigned [Platform] (d : Dtype) (carrier : BitVec 64) : Scalar d :=
  match d with
  | .int _ => carrier.setWidth _
  | .uint _ => carrier.setWidth _
  | .float format => floatOfInt format carrier.toInt

def ofUnsigned [Platform] (d : Dtype) (carrier : BitVec 64) : Scalar d :=
  match d with
  | .int _ => carrier.setWidth _
  | .uint _ => carrier.setWidth _
  | .float format => floatOfInt format carrier.toNat

def ofDouble [Platform] (d : Dtype) (carrier : FloatValue) : Scalar d :=
  match d with
  | .int size =>
    let half : Int := 2 ^ (8 * size.bytes - 1)
    BitVec.ofInt _ (carrier.truncate (-half) (half - 1))
  | .uint size => BitVec.ofInt _ (carrier.truncate 0 (2 ^ (8 * size.bytes) - 1))
  | .float format => format.ofDouble carrier

def cast [Platform] {source : Dtype} (target : Dtype) (x : Scalar source) : Scalar target :=
  match source, x with
  | .int size, x => ofSigned target (toSigned (d := .int size) x)
  | .uint size, x => ofUnsigned target (toUnsigned (d := .uint size) x)
  | .float format, x => ofDouble target (toDouble (d := .float format) x)

end Bitpack.Scalar
