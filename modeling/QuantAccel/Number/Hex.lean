/-!
# Hexadecimal text

Addresses and registers are written in lower-case hexadecimal after `0x`.
-/

namespace QuantAccel

/-- The number `n` in hexadecimal, zero-padded to `width` digits. -/
def hexDigits (n : Nat) (width : Nat) : String :=
  let digits := Nat.toDigits 16 n
  String.ofList (List.replicate (width - digits.length) '0' ++ digits)

/-- The mark `0x` and the hexadecimal digits of `n`. -/
def hex (n : Nat) : String :=
  "0x" ++ hexDigits n 1

/-- The mark `0x` and at least eight hexadecimal digits of `n`. -/
def hexAddress (n : Nat) : String :=
  "0x" ++ hexDigits n 8

end QuantAccel
