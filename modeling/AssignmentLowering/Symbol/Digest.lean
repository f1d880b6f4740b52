/-!
# A 64-bit digest of names

The xxHash digest with 64-bit words and seed zero, over the UTF-8 bytes of a
name. Its accumulator eats stripes of 32 bytes, one 8-byte word for each of four
lanes; what is left over is eaten in words of eight, then four, then single
bytes. All arithmetic wraps at 64 bits.

## Main definitions

* `Digest.ofBytes` — the digest of a list of bytes.
* `Digest.ofString` — the digest of a text's UTF-8 bytes.
-/

namespace AssignmentLowering.Digest

def prime1 : UInt64 := 0x9E3779B185EBCA87
def prime2 : UInt64 := 0xC2B2AE3D27D4EB4F
def prime3 : UInt64 := 0x165667B19E3779F9
def prime4 : UInt64 := 0x85EBCA77C2B2AE63
def prime5 : UInt64 := 0x27D4EB2F165667C5

/-- Rotation to the left, by an amount strictly between 0 and 64. -/
def rotate (x k : UInt64) : UInt64 := (x <<< k) ||| (x >>> (64 - k))

/-- The word whose bytes, least significant first, are `bytes`. -/
def word (bytes : List UInt8) : UInt64 :=
  bytes.foldr (fun b rest => (rest <<< 8) ||| b.toUInt64) 0

/-- One lane absorbs one word. -/
def round (lane input : UInt64) : UInt64 :=
  rotate (lane + input * prime2) 31 * prime1

/-- The four lanes that absorb a stripe side by side. -/
structure Lanes where
  a : UInt64
  b : UInt64
  c : UInt64
  d : UInt64

namespace Lanes

/-- The lanes before the first stripe, for seed zero. -/
def start : Lanes := ⟨prime1 + prime2, prime2, 0, 0 - prime1⟩

/-- Absorb a stripe of 32 bytes. -/
def absorb (l : Lanes) (stripe : List UInt8) : Lanes :=
  ⟨round l.a (word (stripe.take 8)), round l.b (word ((stripe.drop 8).take 8)),
   round l.c (word ((stripe.drop 16).take 8)), round l.d (word ((stripe.drop 24).take 8))⟩

/-- Fold one lane into the joined value. -/
def mergeOne (acc lane : UInt64) : UInt64 := (acc ^^^ round 0 lane) * prime1 + prime4

/-- The joined value of the four lanes. -/
def merge (l : Lanes) : UInt64 :=
  let joined := rotate l.a 1 + rotate l.b 7 + rotate l.c 12 + rotate l.d 18
  mergeOne (mergeOne (mergeOne (mergeOne joined l.a) l.b) l.c) l.d

/-- Absorb the first `stripes` stripes of `bytes`. -/
def absorbAll : Nat → List UInt8 → Lanes → Lanes
  | 0, _, l => l
  | stripes + 1, bytes, l => absorbAll stripes (bytes.drop 32) (l.absorb (bytes.take 32))

end Lanes

/-- Absorb the first `words` words of eight bytes. -/
def absorbWords : Nat → List UInt8 → UInt64 → UInt64
  | 0, _, h => h
  | words + 1, bytes, h =>
    absorbWords words (bytes.drop 8)
      (rotate (h ^^^ round 0 (word (bytes.take 8))) 27 * prime1 + prime4)

/-- Absorb single bytes. -/
def absorbBytes (bytes : List UInt8) (h : UInt64) : UInt64 :=
  bytes.foldl (fun h b => rotate (h ^^^ b.toUInt64 * prime5) 11 * prime1) h

/-- Absorb fewer than eight bytes: half a word if there is one, then single bytes. -/
def absorbRest (bytes : List UInt8) (h : UInt64) : UInt64 :=
  if 4 ≤ bytes.length then
    absorbBytes (bytes.drop 4)
      (rotate (h ^^^ word (bytes.take 4) * prime1) 23 * prime2 + prime3)
  else absorbBytes bytes h

/-- Spread every input bit over the whole word. -/
def avalanche (h : UInt64) : UInt64 :=
  let h := (h ^^^ (h >>> 33)) * prime2
  let h := (h ^^^ (h >>> 29)) * prime3
  h ^^^ (h >>> 32)

/-- The digest of `bytes`. -/
def ofBytes (bytes : List UInt8) : UInt64 :=
  let size := bytes.length
  let stripes := size / 32
  let start := if 0 < stripes then (Lanes.absorbAll stripes bytes .start).merge else prime5
  let rest := bytes.drop (32 * stripes)
  let words := rest.length / 8
  avalanche (absorbRest (rest.drop (8 * words))
    (absorbWords words rest (start + UInt64.ofNat size)))

/-- The digest of the UTF-8 bytes of `s`. -/
def ofString (s : String) : UInt64 := ofBytes s.toUTF8.toList

end AssignmentLowering.Digest
