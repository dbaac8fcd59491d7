import QuantAccel.Number.Saturating

/-!
# Seeded random numbers

A stream of 64-bit words from a seed: the seed is expanded to the 256-bit key of
the ChaCha stream cipher with twelve rounds, and the blocks of its key stream
are taken two words at a time, the low word first. Draws from a range use whole
words of the stream and draw again when a word would make the range uneven.
-/

namespace QuantAccel

namespace ChaCha

/-- The sixteen words of a block. -/
abbrev Block := Vector UInt32 16

def rotateLeft (x : UInt32) (n : UInt32) : UInt32 :=
  x <<< n ||| x >>> (32 - n)

/-- Mixes four words of a block. -/
def quarterRound (s : Block) (a b c d : Fin 16) : Block :=
  let xa := s[a] + s[b]
  let xd := rotateLeft (s[d] ^^^ xa) 16
  let xc := s[c] + xd
  let xb := rotateLeft (s[b] ^^^ xc) 12
  let xa := xa + xb
  let xd := rotateLeft (xd ^^^ xa) 8
  let xc := xc + xd
  let xb := rotateLeft (xb ^^^ xc) 7
  (((s.set a xa).set b xb).set c xc).set d xd

/-- A round on the columns and a round on the diagonals. -/
def doubleRound (s : Block) : Block :=
  let s := quarterRound s 0 4 8 12
  let s := quarterRound s 1 5 9 13
  let s := quarterRound s 2 6 10 14
  let s := quarterRound s 3 7 11 15
  let s := quarterRound s 0 5 10 15
  let s := quarterRound s 1 6 11 12
  let s := quarterRound s 2 7 8 13
  quarterRound s 3 4 9 14

/-- The block before the first round: four constants, the key, and a 64-bit
counter. -/
def initial (key : Vector UInt32 8) (counter : UInt64) : Block :=
  #v[0x61707865, 0x3320646e, 0x79622d32, 0x6b206574,
     key[0], key[1], key[2], key[3], key[4], key[5], key[6], key[7],
     counter.toUInt32, (counter >>> 32).toUInt32, 0, 0]

/-- Applies the two rounds `n` times. -/
def rounds : Nat → Block → Block
  | 0, s => s
  | n + 1, s => rounds n (doubleRound s)

/-- A block of the key stream. -/
def block (key : Vector UInt32 8) (counter : UInt64) : Block :=
  let start := initial key counter
  Vector.zipWith (· + ·) (rounds 6 start) start

end ChaCha

/-- A generator: its key, the number of the next block, and the words that are
left of the last. -/
structure Generator where
  key : Vector UInt32 8
  counter : UInt64
  pending : List UInt64

namespace Generator

def rotateRight (x n : UInt32) : UInt32 :=
  x >>> (n % 32) ||| x <<< ((32 - n) % 32)

/-- The next state of the seed expansion. -/
def advanceSeed (state : UInt64) : UInt64 :=
  state * 6364136223846793005 + 11634580027462260723

/-- The key word of a state of the seed expansion. -/
def seedWord (state : UInt64) : UInt32 :=
  rotateRight (((state >>> 18) ^^^ state) >>> 27).toUInt32 (state >>> 59).toUInt32

/-- Key words from a state, `n` of them. -/
def seedWords : (n : Nat) → UInt64 → List UInt32
  | 0, _ => []
  | n + 1, state =>
    let state := advanceSeed state
    seedWord state :: seedWords n state

/-- The generator of a seed. -/
def ofSeed (seed : UInt64) : Generator :=
  let words := (seedWords 8 seed).toArray
  { key := Vector.ofFn fun i => words.getD i 0, counter := 0, pending := [] }

/-- Pairs of words as 64-bit words, the low word first. -/
def pairWords : List UInt32 → List UInt64
  | low :: high :: rest => (low.toUInt64 ||| high.toUInt64 <<< 32) :: pairWords rest
  | _ => []

/-- The next 64-bit word. -/
def next (r : Generator) : UInt64 × Generator :=
  match r.pending with
  | word :: rest => (word, { r with pending := rest })
  | [] =>
    let words := pairWords (ChaCha.block r.key r.counter).toList
    (words.headD 0, { r with counter := r.counter + 1, pending := words.tail })

/-- Draws tried before a draw from a range gives up; each succeeds with a chance
of at least a half. -/
def attempts : Nat := 1024

/-- A real number in `[lo, hi)` from 52 bits of a word. -/
def realIn (lo hi : Float) : (fuel : Nat) → Generator → Float × Generator
  | 0, r => (lo, r)
  | fuel + 1, r =>
    let (word, r) := r.next
    let unit := Float.ofBits (word >>> 12 ||| 0x3ff0000000000000) - 1
    let x := unit * (hi - lo) + lo
    if x < hi then (x, r) else realIn lo hi fuel r

/-- The high and low halves of a product of 64-bit words. -/
def wideProduct (x y : UInt64) : UInt64 × UInt64 :=
  let p := x.toNat * y.toNat
  (UInt64.ofNat (p / Nat.pow 2 64), UInt64.ofNat p)

/-- A word in `[0, range)`: the high half of a product, where the low half is
within the zone that makes all results as likely. -/
def wordBelow (range zone : UInt64) : (fuel : Nat) → Generator → UInt64 × Generator
  | 0, r => (0, r)
  | fuel + 1, r =>
    let (word, r) := r.next
    let (high, low) := wideProduct word range
    if low ≤ zone then (high, r) else wordBelow range zone fuel r

/-- An integer in `[lo, hi]`, for 64-bit bounds; between the ends of the 64-bit
words it is the next word itself. -/
def intIn (lo hi : Int) (r : Generator) : Int × Generator :=
  let range := UInt64.ofNat ((hi - lo + 1) % Nat.pow 2 64).toNat
  if range = 0 then
    let (word, r) := r.next
    (Word64.wrap word.toNat, r)
  else
    let zone := (range <<< UInt64.ofNat (63 - range.toNat.log2)) - 1
    let (word, r) := wordBelow range zone attempts r
    (Word64.wrap (lo + word.toNat), r)

/-- Draws one after the other, `n` in all. -/
def draws {α : Type} (draw : Generator → α × Generator) : (n : Nat) → Generator → List α × Generator
  | 0, r => ([], r)
  | n + 1, r =>
    let (x, r) := draw r
    let (xs, r) := draws draw n r
    (x :: xs, r)

end Generator

end QuantAccel
