import Bitpack.Element.Codec
import Bitpack.Element.Name
import Bitpack.Layout
import Bitpack.Npy.Descr
import Bitpack.Word.Hex

/-!
What packing and unpacking report while they run. An event holds values; `Event.record` writes them
as named texts, the message first.
-/
namespace Bitpack.Streaming

inductive Level where
  | debug
  | trace
  deriving DecidableEq, Repr

inductive Reporter where
  | packer
  | unpacker
  | driver
  deriving DecidableEq, Repr

inductive Replay where
  | npyToWords
  | wordsToNpy
  | npyToVectors
  | vectorsToNpy
  deriving DecidableEq, Repr

inductive Event where
  | packing (layout : Layout) (wordBits : Nat) (element : ElementType)
  | packedElement (d : Dtype) (value : Scalar d) (element : ElementType) (raw : BitVec 64)
      (slot : Nat)
  | packedWord (outer : Nat) (word : Word)
  | unpacking (layout : Layout) (wordBits : Nat) (element : ElementType)
  | unpackedWord (outer : Nat) (word : Word)
  | unpackedElement (d : Dtype) (value : Scalar d) (element : ElementType) (raw : BitVec 64)
      (slot : Nat)
  | packingVectors (layout : Layout) (lanes : Nat)
  | reverseIgnored
  | packedVector (outer : Nat) (d : Dtype) (lanes : List (Scalar d))
  | unpackingVectors (layout : Layout) (lanes : Nat)
  | unpackedVector (outer block : Nat) (d : Dtype) (lanes : List (Scalar d))
  | loaded (path : String) (wordSize valueCount : Nat) (descr : Npy.Descr)
  | reinterpreted (descr : Npy.Descr) (requested : Dtype)
  | replay (which : Replay) (index count : Nat)

structure Record where
  level : Level
  reporter : Reporter
  fields : List (String × String)
  deriving DecidableEq, Repr

def Level.name : Level → String
  | debug => "DEBUG"
  | trace => "TRACE"

def Reporter.name : Reporter → String
  | packer => "packed_stream::pack"
  | unpacker => "packed_stream::unpack"
  | driver => "packed_stream::driver"

def Replay.message : Replay → String
  | npyToWords => "npy to word stream"
  | wordsToNpy => "word stream to npy"
  | npyToVectors => "npy to vector stream"
  | vectorsToNpy => "vector stream to npy"

def vectorText {d : Dtype} (lanes : List (Scalar d)) : String :=
  Text.bracketed (lanes.map Scalar.listingText)

def wordFields (message : String) (l : Layout) (wordBits : Nat) (e : ElementType) :
    List (String × String) :=
  [("message", message), ("n_outer", toString l.outer), ("n_inner", toString l.inner),
    ("multi_pixel_out", toString l.blocks), ("word_bits", toString wordBits), ("elem", e.name)]

def Event.record [Platform] : Event → Record
  | packing l wordBits e => ⟨.debug, .packer, wordFields "packing tensor" l wordBits e⟩
  | packedElement _ value e raw slot =>
    ⟨.trace, .packer, [("message", "element"), ("npy", value.plainText), ("elem", e.showSlot raw),
      ("slot", toString slot)]⟩
  | packedWord outer word =>
    ⟨.trace, .packer, [("message", "packed word"), ("outer", toString outer), ("word", word.toHex)]⟩
  | unpacking l wordBits e => ⟨.debug, .unpacker, wordFields "unpacking tensor" l wordBits e⟩
  | unpackedWord outer word =>
    ⟨.trace, .unpacker,
      [("message", "packed word"), ("outer", toString outer), ("word", word.toHex)]⟩
  | unpackedElement _ value e raw slot =>
    ⟨.trace, .unpacker, [("message", "element"), ("elem", e.showSlot raw),
      ("npy", value.plainText), ("slot", toString slot)]⟩
  | packingVectors l lanes =>
    ⟨.debug, .packer, [("message", "packing tensor into vectors"), ("n_outer", toString l.outer),
      ("n_inner", toString l.inner), ("lanes", toString lanes)]⟩
  | reverseIgnored =>
    ⟨.debug, .packer, [("message", "reverse_inner is not applied to vector streams")]⟩
  | packedVector outer _ lanes =>
    ⟨.trace, .packer, [("message", "vector"), ("outer", toString outer), ("vec", vectorText lanes)]⟩
  | unpackingVectors l lanes =>
    ⟨.debug, .unpacker, [("message", "unpacking vectors"), ("n_outer", toString l.outer),
      ("n_inner", toString l.inner), ("multi_pixel_out", toString l.blocks),
      ("lanes", toString lanes)]⟩
  | unpackedVector outer block _ lanes =>
    ⟨.trace, .unpacker, [("message", "vector"), ("outer", toString outer),
      ("block", toString block), ("vec", vectorText lanes)]⟩
  | loaded path wordSize valueCount descr =>
    ⟨.debug, .driver, [("message", "loaded " ++ path), ("word_size", toString wordSize),
      ("num_vals", toString valueCount), ("descr", descr.text)]⟩
  | reinterpreted descr requested =>
    ⟨.debug, .driver,
      [("message", "scalar kind differs from the file, bits are reinterpreted"),
        ("descr", descr.text), ("requested", requested.descrText)]⟩
  | replay which index count =>
    ⟨.debug, .driver, [("message", which.message), ("rep", toString index),
      ("num_reps", toString count)]⟩

end Bitpack.Streaming
