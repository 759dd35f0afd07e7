/-!
# UTF-8

Reading bytes as text. A byte sequence is cut into units: each unit is a
character, or one longest piece that starts like a character and is not one.
Strict reading refuses a text with such a piece; lossy reading puts the
replacement character in its place, one for each piece.
-/

namespace IncludeBlock.Text

/-- One unit of a byte sequence: a character, or `none` for bytes that are no
character. -/
abbrev Unit8 := Option Char

/-- Reads `more` continuation bytes behind a first byte that carried `acc`;
the next one has to lie between `lo` and `hi`. Gives what follows the bytes
that were fit. -/
def continuation : (more lo hi acc : Nat) → List UInt8 → Unit8 × List UInt8
  | 0, _, _, acc, bs => (some (Char.ofNat acc), bs)
  | _ + 1, _, _, _, [] => (none, [])
  | more + 1, lo, hi, acc, b :: bs =>
      if lo ≤ b.toNat ∧ b.toNat ≤ hi then
        continuation more 0x80 0xbf (acc * 64 + (b.toNat - 0x80)) bs
      else (none, b :: bs)

/-- The first unit of a sequence that starts with the byte `b`, and the rest.
The ranges of the second byte leave out overlong forms, surrogates and what
lies beyond the last code point. -/
def firstUnit (b : UInt8) (bs : List UInt8) : Unit8 × List UInt8 :=
  let n := b.toNat
  if n < 0x80 then (some (Char.ofNat n), bs)
  else if n < 0xc2 then (none, bs)
  else if n < 0xe0 then continuation 1 0x80 0xbf (n - 0xc0) bs
  else if n = 0xe0 then continuation 2 0xa0 0xbf (n - 0xe0) bs
  else if n = 0xed then continuation 2 0x80 0x9f (n - 0xe0) bs
  else if n < 0xf0 then continuation 2 0x80 0xbf (n - 0xe0) bs
  else if n = 0xf0 then continuation 3 0x90 0xbf (n - 0xf0) bs
  else if n < 0xf4 then continuation 3 0x80 0xbf (n - 0xf0) bs
  else if n = 0xf4 then continuation 3 0x80 0x8f (n - 0xf0) bs
  else (none, bs)

/-- The units of a byte sequence, as far as `fuel` units. -/
def unitsWithin : Nat → List UInt8 → List Unit8
  | 0, _ => []
  | _, [] => []
  | fuel + 1, b :: bs =>
      (firstUnit b bs).1 :: unitsWithin fuel (firstUnit b bs).2

/-- The units of a byte sequence; there are at most as many as bytes. -/
def units (bs : List UInt8) : List Unit8 :=
  unitsWithin bs.length bs

/-- The text that bytes stand for, if every unit is a character. -/
def decode (bs : List UInt8) : Option String :=
  ((units bs).mapM id).map String.ofList

/-- The text of bytes with U+FFFD for each unit that is no character. -/
def decodeLossy (bs : List UInt8) : List Char :=
  (units bs).map (·.getD '\uFFFD')

def encode (s : String) : List UInt8 :=
  s.toList.flatMap String.utf8EncodeChar

/-- The number of bytes of a text. -/
def byteLength (s : String) : Nat :=
  (encode s).length

end IncludeBlock.Text
