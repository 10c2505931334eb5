import Bitpack.Text

/-!
What can go wrong, as causes. `Error.message` holds every wording.
-/
namespace Bitpack

inductive ShapeFault where
  | noDimension
  | noBlock
  | count (shape : List Nat) (expected found : Nat)
  | innerTooWide (inner lanes : Nat)
  | lastTooWide (last lanes : Nat)
  deriving DecidableEq, Repr

inductive StreamFault where
  | empty
  | readerGone
  | writerGone
  deriving DecidableEq, Repr

inductive ElementFault where
  | badWidth (text : String)
  | noPair (text : String)
  | unknown (text : String)
  | widthRange (bits : Nat)
  | integerBits (bits intBits : Nat)
  deriving DecidableEq, Repr

inductive FormatFault where
  | wordOverflow (width : Nat)
  | hexDigit (digit : Char) (text : String)
  | hexOverflow (text : String) (width : Nat)
  | hexEmpty (text : String)
  | descrEmpty (text : String)
  | descrUnsupported (text : String)
  | dtypeUnsupported (descr : String)
  | dtypeUnknown (text : String)
  | countOverflow (shape : List Nat)
  | sizeOverflow (shape : List Nat)
  | structured
  | fortranOrder
  | truncated
  | notAFile (path : String)
  deriving DecidableEq, Repr

/-- Refusals of the file system, and of a reader that finds no well-formed file. -/
inductive IoError where
  | notFound
  | notADirectory
  | isADirectory
  | alreadyExists
  | permissionDenied
  | resourceBusy
  | invalidInput
  | invalidData
  | unexpectedEof
  | other
  deriving DecidableEq, Repr

inductive RangeFault where
  | tooLong (length : Nat)
  | outside (lo hi width : Nat)
  | lane (index lanes : Nat)
  deriving DecidableEq, Repr

/-- A size that the program does not go on with. A shape whose product wraps around to the number of
its values is let through by a build without checks; what that leads to is not followed here. -/
inductive SizeFault where
  | overflow
  | capacity
  | wrapped
  deriving DecidableEq, Repr

inductive Error where
  | sizeMismatch (expected found : Nat)
  | indivisible (last blocks : Nat)
  | shape (fault : ShapeFault)
  | wordWidth (expected found : Nat)
  | stream (fault : StreamFault)
  | element (fault : ElementFault)
  | format (fault : FormatFault)
  | io (fault : IoError)
  | range (fault : RangeFault)
  | size (fault : SizeFault)
  deriving DecidableEq, Repr

def ShapeFault.message : ShapeFault → String
  | noDimension => "shape must have at least one dimension"
  | noBlock => "multi_pixel_out must be positive"
  | count shape expected found =>
    s!"shape {Text.shape shape} holds {expected} elements but {found} values were given"
  | innerTooWide inner lanes =>
    s!"inner dimension {inner} does not fit in a {lanes}-element vector"
  | lastTooWide last lanes => s!"last dimension {last} does not fit in a {lanes}-element vector"

def StreamFault.message : StreamFault → String
  | empty => "read from empty stream"
  | readerGone => "stream reader disconnected"
  | writerGone => "stream writer disconnected"

def ElementFault.message : ElementFault → String
  | badWidth text => s!"bad bit width in '{text}'"
  | noPair text => s!"expected FIXED<w,i>, got '{text}'"
  | unknown text => s!"unknown element type '{text}'"
  | widthRange bits => s!"{bits} bits is outside 1..=64"
  | integerBits bits intBits =>
    s!"FIXED<{bits},{intBits}> has more integer bits than total bits"

def FormatFault.message : FormatFault → String
  | wordOverflow width => s!"value does not fit in a {width}-bit word"
  | hexDigit digit text => s!"invalid hex digit '{digit}' in '{text}'"
  | hexOverflow text width => s!"'{text}' does not fit in a {width}-bit word"
  | hexEmpty text => s!"empty hex word '{text}'"
  | descrEmpty text => s!"empty descr '{text}'"
  | descrUnsupported text => s!"unsupported descr '{text}'"
  | dtypeUnsupported descr => s!"unsupported npy dtype '{descr}'"
  | dtypeUnknown text => s!"unknown npy dtype '{text}'"
  | countOverflow shape => s!"shape {Text.shape shape} overflows the element count"
  | sizeOverflow shape => s!"shape {Text.shape shape} overflows the data size"
  | structured => "structured dtype"
  | fortranOrder => "fortran-ordered arrays are not supported"
  | truncated => "npy data is truncated"
  | notAFile path => s!"not a file path: {path}"

def IoError.message : IoError → String
  | notFound => "NotFound"
  | notADirectory => "NotADirectory"
  | isADirectory => "IsADirectory"
  | alreadyExists => "AlreadyExists"
  | permissionDenied => "PermissionDenied"
  | resourceBusy => "ResourceBusy"
  | invalidInput => "InvalidInput"
  | invalidData => "InvalidData"
  | unexpectedEof => "UnexpectedEof"
  | other => "Other"

def RangeFault.message : RangeFault → String
  | tooLong length => s!"bit slice of {length} bits exceeds 64"
  | outside lo hi width => s!"bit range [{lo}, {hi}) outside {width}-bit word"
  | lane index lanes => s!"index out of bounds: the len is {lanes} but the index is {index}"

def SizeFault.message : SizeFault → String
  | overflow => "attempt to multiply with overflow"
  | capacity => "capacity overflow"
  | wrapped => "shape wraps around"

def Error.message : Error → String
  | sizeMismatch expected found =>
    s!"npy word size {found} does not match requested scalar size {expected}"
  | indivisible last blocks =>
    s!"last dimension {last} is not divisible by multi_pixel_out {blocks}"
  | shape fault => "invalid shape: " ++ fault.message
  | wordWidth expected found =>
    s!"packed word is {found} bits wide, expected at least {expected}"
  | stream fault => "stream fault: " ++ fault.message
  | element fault => "invalid element type: " ++ fault.message
  | format fault => "malformed input: " ++ fault.message
  | io fault => fault.message
  | range fault => fault.message
  | size fault => fault.message

/-- Whether the program is stopped where the error arises, and reports no failure. -/
def Error.isPanic : Error → Bool
  | range _ => true
  | size _ => true
  | _ => false

end Bitpack
