import QuantAccel.Number.Saturating

/-!
# Bit fields of byte buffers

Bits of a buffer are numbered from the lowest bit of its first byte. A field of
`width` bits holds an integer in two's complement; a read returns it as a 64-bit
word, signed or unsigned.
-/

namespace QuantAccel

/-- A byte buffer. -/
abbrev Bytes := Array UInt8

namespace Bytes

/-- Bit `position` of a buffer; bits past the end are clear. -/
def bit (buffer : Bytes) (position : Nat) : Bool :=
  (buffer.getD (position / 8) 0).toNat.testBit (position % 8)

/-- The buffer with one bit set or cleared. -/
def setBit (buffer : Bytes) (position : Nat) (value : Bool) : Bytes :=
  buffer.modify (position / 8) fun byte =>
    let mask : UInt8 := 1 <<< UInt8.ofNat (position % 8)
    if value then byte ||| mask else byte &&& ~~~mask

/-- The low `width` bits of an integer in two's complement. -/
def fieldBits (width : Nat) (value : Int) : Nat :=
  (value % Nat.pow 2 width).toNat

/-- The buffer with the low `width` bits of `raw` written from bit `offset`
on. -/
def setBits (buffer : Bytes) (offset : Nat) : (width raw : Nat) → Bytes
  | 0, _ => buffer
  | width + 1, raw => setBits (buffer.setBit offset (raw % 2 == 1)) (offset + 1) width (raw / 2)

/-- The buffer with the low `width` bits of `value` written from bit `offset`
on. -/
def writeField (buffer : Bytes) (offset width : Nat) (value : Int) : Bytes :=
  buffer.setBits offset width (fieldBits width value)

/-- The `width` bits from `offset` on, as a natural number. -/
def fieldAt (buffer : Bytes) (offset : Nat) : (width : Nat) → Nat
  | 0 => 0
  | width + 1 => (buffer.bit offset).toNat + 2 * fieldAt buffer (offset + 1) width

/-- The 64-bit word that a field stands for. Only a field narrower than the word
has a sign of its own to extend; a wider one fills the word, and the word's sign
is all there is. -/
def fieldValue (width : Nat) (signed : Bool) (raw : Nat) : Int :=
  if signed && decide (width < 64) && raw.testBit (width - 1) then (raw : Int) - Nat.pow 2 width
  else Word64.wrap raw

/-- The field of `width` bits from `offset` on. -/
def readField (buffer : Bytes) (offset width : Nat) (signed : Bool) : Int :=
  fieldValue width signed (buffer.fieldAt offset width)

/-! ## Whole bytes and words -/

/-- The buffer with `data` written from byte `start` on. -/
def splice (buffer : Bytes) (start : Nat) : (data : List UInt8) → Bytes
  | [] => buffer
  | byte :: rest => splice (buffer.setIfInBounds start byte) (start + 1) rest

/-- The four bytes of a word, lowest first. -/
def ofWord (word : UInt32) : List UInt8 :=
  [word.toUInt8, (word >>> 8).toUInt8, (word >>> 16).toUInt8, (word >>> 24).toUInt8]

/-- The word in the four bytes from `start` on, lowest byte first. -/
def wordAt (buffer : Bytes) (start : Nat) : UInt32 :=
  let byte (i : Nat) : UInt32 := (buffer.getD (start + i) 0).toUInt32
  byte 0 ||| byte 1 <<< 8 ||| byte 2 <<< 16 ||| byte 3 <<< 24

/-- The word at `start`, if all of it lies in the buffer. -/
def readWord? (buffer : Bytes) (start : Nat) : Option UInt32 :=
  if start + 4 ≤ buffer.size then some (buffer.wordAt start) else none

/-- The buffer with a word written at `start`, if all of it lies in the
buffer. -/
def writeWord? (buffer : Bytes) (start : Nat) (word : UInt32) : Option Bytes :=
  if start + 4 ≤ buffer.size then some (buffer.splice start (ofWord word)) else none

end Bytes

end QuantAccel
