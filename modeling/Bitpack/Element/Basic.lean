import Bitpack.Arithmetic
/-!
Element types: what one slot of a packed word holds, and how wide the slot is.
-/
namespace Bitpack

structure SlotWidth where
  bits : Nat
  pos : 0 < bits
  le : bits ≤ 64
  deriving DecidableEq, Repr

/-- `uint` of one bit is the binary type, and `fixed` counts the sign among its integer bits. -/
inductive ElementType where
  | int (width : SlotWidth)
  | uint (width : SlotWidth)
  | bipolar
  | fixed (width : SlotWidth) (intBits : Nat) (le : intBits ≤ width.bits)
  | float32
  | float16
  deriving DecidableEq, Repr

inductive ElementKind where
  | integer
  | bipolar
  | fixedPoint
  | float
  deriving DecidableEq, Repr

namespace ElementType

def bits : ElementType → Nat
  | int width => width.bits
  | uint width => width.bits
  | bipolar => 1
  | fixed width _ _ => width.bits
  | float32 => 32
  | float16 => 16

def isSigned : ElementType → Bool
  | uint _ => false
  | bipolar => false
  | _ => true

def kind : ElementType → ElementKind
  | int _ => .integer
  | uint _ => .integer
  | bipolar => .bipolar
  | fixed _ _ _ => .fixedPoint
  | float32 => .float
  | float16 => .float

def fracBits : ElementType → Nat
  | fixed width intBits _ => width.bits - intBits
  | _ => 0

theorem bits_pos (e : ElementType) : 0 < e.bits := by
  cases e with
  | int width => exact width.pos
  | uint width => exact width.pos
  | fixed width => exact width.pos
  | bipolar => decide
  | float32 => decide
  | float16 => decide

theorem bits_le (e : ElementType) : e.bits ≤ 64 := by
  cases e with
  | int width => exact width.le
  | uint width => exact width.le
  | fixed width => exact width.le
  | bipolar => decide
  | float32 => decide
  | float16 => decide

end ElementType

end Bitpack
