import Bitpack.Main
import Bitpack.Files.Tree
import Bitpack.Streaming.Channel
import Bitpack.Streaming.Pipe
import Bitpack.Proofs.Word.Reachable
import Bitpack.Proofs.Packing.BitLayout
import Bitpack.Proofs.Command.RoundTrip
import Bitpack.Proofs.Element.Integer
import Bitpack.Proofs.Npy.Extent
import Bitpack.Proofs.Packing.Repack
import Bitpack.Proofs.Packing.AllOrNothing
import Bitpack.Proofs.Packing.FirstFault
import Bitpack.Proofs.FloatFormat.Magnitude
import Bitpack.Proofs.Scalar.Double
import Bitpack.Proofs.Element.Cast
import Bitpack.Proofs.Packing.Lanes
import Bitpack.Proofs.FloatFormat.Same
import Bitpack.Proofs.FloatFormat.Exact
import Bitpack.Proofs.FloatFormat.Whole
import Bitpack.Proofs.Element.Wrap
import Bitpack.Proofs.Scalar.Exact
import Bitpack.Proofs.Scalar.Integer
import Bitpack.Proofs.Element.Recode.Basic
import Bitpack.Proofs.Element.Recode.Signed
import Bitpack.Proofs.Element.Recode.Unsigned
import Bitpack.Proofs.Element.Recode.Fixed
import Bitpack.Proofs.Element.Recode.FixedInteger
import Bitpack.Proofs.Element.Recode.Drift
import Bitpack.Proofs.Packing.Idempotence
import Bitpack.Proofs.Packing.Pipe
import Bitpack.Proofs.Packing.Vectors
import Bitpack.Proofs.Command.AllOrNothing
import Bitpack.Proofs.Command.Generated
import Bitpack.Proofs.Packing.Unpacking
import Bitpack.Proofs.Element.Modular
import Bitpack.Proofs.FloatFormat.Rational
import Bitpack.Proofs.Element.FixedPoint
import Bitpack.Proofs.Npy.SaveFrame
import Bitpack.Proofs.Element.Quantization
import Bitpack.Proofs.Element.Truncation
import Bitpack.Proofs.Element.FloatSlot
import Bitpack.Proofs.Word.Numeral
import Bitpack.Proofs.Command.ReadWords
import Bitpack.Proofs.Packing.VectorQueues
import Bitpack.Proofs.FloatFormat.Nearest
import Bitpack.Proofs.Scalar.Conversion
import Bitpack.Proofs.SlotOrder
import Bitpack.Proofs.Word.Tiling
import Bitpack.Proofs.Packing.ByteOrder
