/-!
# Words of 64 bits

Sizes, addresses and counts are exact numbers in this development. A program
keeps them in words of 64 bits. Where a sum or a product is too large for a
word, a build of the program that checks its arithmetic stops, and one that does
not goes on with the low bits. Where every number is a word, both builds compute
the exact one; the functions that take an `Arithmetic` say what they do where it
is not.
-/

namespace QuantAccel

/-- What becomes of a number that is too large for a word. -/
inductive Arithmetic where
  /-- The program stops. -/
  | checked
  /-- The low 64 bits remain. -/
  | wrapping
  deriving Repr, DecidableEq

namespace Arithmetic

end Arithmetic

end QuantAccel
