import Bitpack.FloatFormat.Basic

/-!
What the code leaves to its build and to the processor.
-/
namespace Bitpack

/-- Whether a product of sizes that does not fit stops the program or wraps around, and the half that
stands for a double. The way back is exact: every half is a double. -/
class Platform where
  overflowChecks : Bool
  halfOfDouble : FloatValue → BitVec FloatFormat.half.width

namespace Platform

abbrev throughSingle (overflowChecks : Bool) : Platform where
  overflowChecks := overflowChecks
  halfOfDouble v := FloatFormat.half.round (FloatFormat.single.nearest v)

namespace Release

scoped instance : Platform :=
  throughSingle false

end Release

end Platform

def FloatFormat.ofDouble [Platform] (format : FloatFormat) (v : FloatValue) :
    BitVec format.width :=
  match format with
  | .half => Platform.halfOfDouble v
  | .single => FloatFormat.single.round v
  | .double => FloatFormat.double.round v

end Bitpack
