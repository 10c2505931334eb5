import Bitpack.Arithmetic
/-!
Binary floating point in three widths. A pattern of bits stands for a number `±m · 2^e`, an
infinity or no number; `round` chooses the pattern of a value, the nearest one, and between two
equally near ones the one with an even last bit.
-/
namespace Bitpack

/-- An extended number with an unbounded binary significand; zero keeps its sign. -/
inductive FloatValue where
  | nan
  | infinite (negative : Bool)
  | finite (negative : Bool) (significand : Nat) (exponent : Int)
  deriving DecidableEq, Repr

inductive FloatFormat where
  | half
  | single
  | double
  deriving DecidableEq, Repr

namespace FloatFormat

def bytes : FloatFormat → Nat
  | half => 2
  | single => 4
  | double => 8

def fractionBits : FloatFormat → Nat
  | half => 10
  | single => 23
  | double => 52

def exponentBits : FloatFormat → Nat
  | half => 5
  | single => 8
  | double => 11

abbrev width (format : FloatFormat) : Nat :=
  8 * format.bytes

def minExponent : FloatFormat → Int
  | half => -24
  | single => -149
  | double => -1074

/-- The pattern of positive infinity; those below it are the finite magnitudes in order. -/
def infinityCode (format : FloatFormat) : Nat :=
  (2 ^ format.exponentBits - 1) * 2 ^ format.fractionBits

/-- The quotient `m / 2^k` to the nearest natural number, a half to the even one. -/
def halveEven (m k : Nat) : Nat :=
  let quotient := m / 2 ^ k
  let rest := m % 2 ^ k
  if 2 * rest < 2 ^ k ∨ (2 * rest = 2 ^ k ∧ quotient % 2 = 0) then quotient else quotient + 1

/-- The pattern without sign of `m · 2^e`. The last place `q` leaves room for all bits of the
significand unless the number is too small; a carry out of it runs into the exponent field. -/
def magnitude (format : FloatFormat) (m : Nat) (e : Int) : Nat :=
  if m = 0 then 0 else
    let q := max (e + m.log2 - format.fractionBits) format.minExponent
    let units := if q ≤ e then m * 2 ^ (e - q).toNat else halveEven m (q - e).toNat
    min ((q - format.minExponent).toNat * 2 ^ format.fractionBits + units) format.infinityCode

def signed (format : FloatFormat) (negative : Bool) (code : Nat) : BitVec format.width :=
  BitVec.ofNat _ (if negative then 2 ^ (format.width - 1) + code else code)

/-- The pattern nearest to a value. No number is written as the positive quiet pattern. -/
def round (format : FloatFormat) : FloatValue → BitVec format.width
  | .nan => format.signed false (format.infinityCode + 2 ^ (format.fractionBits - 1))
  | .infinite negative => format.signed negative format.infinityCode
  | .finite negative m e => format.signed negative (format.magnitude m e)

/-- The value that a pattern stands for. -/
def value (format : FloatFormat) (pattern : BitVec format.width) : FloatValue :=
  let negative := pattern.msb
  let code := pattern.toNat % 2 ^ (format.width - 1)
  let field := code / 2 ^ format.fractionBits
  let fraction := code % 2 ^ format.fractionBits
  if field = 2 ^ format.exponentBits - 1 then
    if fraction = 0 then .infinite negative else .nan
  else if field = 0 then .finite negative fraction format.minExponent
  else
    .finite negative (2 ^ format.fractionBits + fraction) (format.minExponent + (field - 1 : Nat))

/-- The value that remains after rounding to a format. -/
def nearest (format : FloatFormat) (v : FloatValue) : FloatValue :=
  format.value (format.round v)

end FloatFormat

namespace FloatValue

def ofInt (n : Int) : FloatValue :=
  finite (decide (n < 0)) n.natAbs 0

def scale (k : Int) : FloatValue → FloatValue
  | finite negative m e => finite negative m (e + k)
  | v => v

def isNonneg : FloatValue → Bool
  | nan => false
  | infinite negative => !negative
  | finite negative m _ => !negative || m == 0

def signedSignificand (negative : Bool) (m : Nat) : Int :=
  if negative then -m else m

/-- The integer part of `n · 2^e` by a division that cuts off as `cut` does. -/
def integerPart (cut : Int → Int → Int) (n e : Int) : Int :=
  if 0 ≤ e then n * 2 ^ e.toNat else cut n (2 ^ (-e).toNat)

def toInt (cut : Int → Int → Int) (lo hi : Int) : FloatValue → Int
  | nan => 0
  | infinite negative => if negative then lo else hi
  | finite negative m e => max lo (min hi (integerPart cut (signedSignificand negative m) e))

def truncate (lo hi : Int) : FloatValue → Int :=
  toInt Int.tdiv lo hi

def floor (lo hi : Int) : FloatValue → Int :=
  toInt Int.fdiv lo hi

end FloatValue

end Bitpack
