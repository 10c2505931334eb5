/-!
Powers, products and sums. A definition means the same whichever library is in scope beside it:
`x ^ n` is the power of the core library and not that of a monoid, and the product and the sum of a
list start from the numerals one and zero.
-/
namespace Bitpack

attribute [scoped instance (high)] instPowNat One.ofOfNat1 Zero.ofOfNat0

-- The default decides where the exponent is a numeral, as in `2 ^ 64`.
attribute [default_instance (high + 1)] instPowNat

end Bitpack
