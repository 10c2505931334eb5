import Bitpack.FloatFormat.Basic
import Bitpack.Text

/-!
Decimal text of floating-point values: the fewest digits that read back as the same pattern, and of
these the nearest to the value.
-/
namespace Bitpack.FloatFormat

structure Decimal where
  digits : Nat
  exponent : Int
  deriving DecidableEq, Repr

def leadingExponent (num den : Nat) : Int :=
  if den ≤ num then ((Text.digits (num / den)).length : Int) - 1
  else -((Text.digits ((num + den - 1) / num - 1)).length : Int)

/-- The numbers that round to one pattern, as multiples of `2^exponent`: from `low` to `high`, with
the ends or without them, around `centre`. -/
structure Interval where
  low : Nat
  centre : Nat
  high : Nat
  exponent : Int
  closed : Bool

/-- The spacing below a power of two is half of the spacing above it, except at the bottom. -/
def interval (format : FloatFormat) (m : Nat) (e : Int) : Interval where
  low := if m = 2 ^ format.fractionBits ∧ format.minExponent < e then 4 * m - 1 else 4 * m - 2
  centre := 4 * m
  high := 4 * m + 2
  exponent := e - 2
  closed := m % 2 == 0

/-- The neighbour of the centre on the grid of `10^k` that lies in the interval, the nearer of two,
the upper one if they are equally near. -/
def Interval.onGrid? (i : Interval) (k : Int) : Option Nat :=
  let grid := 10 ^ k.toNat * 2 ^ (-i.exponent).toNat
  let unit := 2 ^ i.exponent.toNat * 10 ^ (-k).toNat
  let lower := i.centre * unit / grid
  let inside (n : Nat) : Bool :=
    if i.closed then decide (i.low * unit ≤ n * grid ∧ n * grid ≤ i.high * unit)
    else decide (i.low * unit < n * grid ∧ n * grid < i.high * unit)
  let preferLower := decide (2 * i.centre * unit < (2 * lower + 1) * grid)
  match inside lower, inside (lower + 1) with
  | true, true => some (if preferLower then lower else lower + 1)
  | true, false => some lower
  | false, true => some (lower + 1)
  | false, false => none

/-- The shortest decimal of a positive number; seventeen digits always suffice. -/
def shortest (format : FloatFormat) (m : Nat) (e : Int) : Decimal :=
  let i := format.interval m e
  let top := leadingExponent (m * 2 ^ e.toNat) (2 ^ (-e).toNat)
  let found := (List.range 17).findSome? fun (j : Nat) =>
    (i.onGrid? (top - j)).map fun n => Decimal.mk n (top - j)
  found.getD ⟨m, e⟩

def Decimal.significant (d : Decimal) : List Char × Int :=
  let all := Text.digits d.digits
  let zeros := (all.reverse.takeWhile (· == '0')).length
  (all.take (all.length - zeros), d.exponent + zeros)

def positional (d : Decimal) : List Char :=
  let (digits, exponent) := d.significant
  let point := digits.length + exponent
  if 0 ≤ exponent then digits ++ List.replicate exponent.toNat '0'
  else if 0 < point then digits.take point.toNat ++ '.' :: digits.drop point.toNat
  else '0' :: '.' :: (List.replicate (-point).toNat '0' ++ digits)

def scientific (d : Decimal) : List Char :=
  let (digits, exponent) := d.significant
  let power := digits.length + exponent - 1
  let fraction := if digits.length ≤ 1 then [] else '.' :: digits.drop 1
  digits.take 1 ++ fraction ++ 'e' :: (toString power).toList

def withSign (negative : Bool) (text : List Char) : String :=
  String.ofList (if negative then '-' :: text else text)

def plainText (format : FloatFormat) (pattern : BitVec format.width) : String :=
  match format.value pattern with
  | .nan => "NaN"
  | .infinite negative => withSign negative "inf".toList
  | .finite negative m e =>
    withSign negative (if m = 0 then ['0'] else positional (format.shortest m e))

def withPoint (text : List Char) : List Char :=
  if '.' ∈ text then text else text ++ ['.', '0']

/-- Listing text: a point in every number, and a power of ten below `10^-4` and from `10^16` on. -/
def listingText (format : FloatFormat) (pattern : BitVec format.width) : String :=
  match format.value pattern with
  | .nan => "NaN"
  | .infinite negative => withSign negative "inf".toList
  | .finite negative m e =>
    if m = 0 then withSign negative ['0', '.', '0'] else
      let tiny := decide (m * 2 ^ e.toNat * 10 ^ 4 < 2 ^ (-e).toNat)
      let huge := decide (10 ^ 16 * 2 ^ (-e).toNat ≤ m * 2 ^ e.toNat)
      let d := format.shortest m e
      withSign negative (if tiny || huge then scientific d else withPoint (positional d))

end Bitpack.FloatFormat
