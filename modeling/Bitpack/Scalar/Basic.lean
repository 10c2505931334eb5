import Bitpack.Bytes
import Bitpack.Dtype
import Bitpack.FloatFormat.Decimal

/-!
Scalars of a tensor file. A scalar is the pattern of bits that the file holds, so that writing and
reading it changes nothing, whatever number it stands for.
-/
namespace Bitpack

abbrev Scalar (d : Dtype) := BitVec d.width

namespace Scalar

variable {d : Dtype}

def ofLittleEndian (d : Dtype) (bytes : Bytes) : Scalar d :=
  BitVec.ofNat _ bytes.toNat

def ofBigEndian (d : Dtype) (bytes : Bytes) : Scalar d :=
  ofLittleEndian d bytes.reverse

def toLittleEndian (x : Scalar d) : Bytes :=
  Bytes.ofNat d.bytes x.toNat

/-- The text in which a number is shown; a half is shown as the single of the same value. -/
def showWith (floatText : (format : FloatFormat) → BitVec format.width → String) :
    (d : Dtype) → Scalar d → String
  | .int _, x => toString x.toInt
  | .uint _, x => toString x.toNat
  | .float .half, x => floatText .single (FloatFormat.single.round (FloatFormat.half.value x))
  | .float .single, x => floatText .single x
  | .float .double, x => floatText .double x

def plainText (x : Scalar d) : String :=
  showWith FloatFormat.plainText d x

def listingText (x : Scalar d) : String :=
  showWith FloatFormat.listingText d x

end Scalar

end Bitpack
