/-!
# Digest of bytes

The 64-bit XXH64 digest with seed 0. Bytes are read as little-endian words of eight bytes. From
32 bytes on, groups of four words are mixed into four lanes that are then merged; the words,
four bytes and single bytes that remain are absorbed one after the other.
-/

namespace Stackless.Digest

def prime1 : UInt64 := 0x9E3779B185EBCA87
def prime2 : UInt64 := 0xC2B2AE3D27D4EB4F
def prime3 : UInt64 := 0x165667B19E3779F9
def prime4 : UInt64 := 0x85EBCA77C2B2AE63
def prime5 : UInt64 := 0x27D4EB2F165667C5

def rotateLeft (x k : UInt64) : UInt64 := (x <<< k) ||| (x >>> (64 - k))

/-- The word whose bytes are given, the lowest first. -/
def littleEndian : List UInt8 → UInt64
  | [] => 0
  | b :: bs => b.toUInt64 ||| (littleEndian bs <<< 8)

/-- The eight bytes of a word, the lowest first. -/
def bytesOf (w : UInt64) : List UInt8 :=
  [w, w >>> 8, w >>> 16, w >>> 24, w >>> 32, w >>> 40, w >>> 48, w >>> 56].map UInt64.toUInt8

/-- Cut bytes into words and fewer than eight bytes that remain. -/
def words : List UInt8 → List UInt64 × List UInt8
  | b₀ :: b₁ :: b₂ :: b₃ :: b₄ :: b₅ :: b₆ :: b₇ :: rest =>
    let (ws, tail) := words rest
    (littleEndian [b₀, b₁, b₂, b₃, b₄, b₅, b₆, b₇] :: ws, tail)
  | tail => ([], tail)

/-- Mix a word into a lane. -/
def mix (lane w : UInt64) : UInt64 := rotateLeft (lane + w * prime2) 31 * prime1

structure Lanes where
  a : UInt64 := prime1 + prime2
  b : UInt64 := prime2
  c : UInt64 := 0
  d : UInt64 := 0 - prime1

namespace Lanes

/-- Mix all complete groups of four words into the lanes. -/
def absorb : Lanes → List UInt64 → Lanes × List UInt64
  | l, w₀ :: w₁ :: w₂ :: w₃ :: rest =>
    absorb ⟨mix l.a w₀, mix l.b w₁, mix l.c w₂, mix l.d w₃⟩ rest
  | l, rest => (l, rest)

def merge (l : Lanes) : UInt64 :=
  let sum := rotateLeft l.a 1 + rotateLeft l.b 7 + rotateLeft l.c 12 + rotateLeft l.d 18
  [l.a, l.b, l.c, l.d].foldl (fun h lane => (h ^^^ mix 0 lane) * prime1 + prime4) sum

end Lanes

/-- The state after the complete groups of words, and the words that remain. -/
def start (ws : List UInt64) : UInt64 × List UInt64 :=
  if ws.length < 4 then (prime5, ws)
  else
    let (lanes, rest) := Lanes.absorb {} ws
    (lanes.merge, rest)

def absorbWord (h w : UInt64) : UInt64 := rotateLeft (h ^^^ mix 0 w) 27 * prime1 + prime4

def absorbByte (h : UInt64) (b : UInt8) : UInt64 :=
  rotateLeft (h ^^^ (b.toUInt64 * prime5)) 11 * prime1

/-- Absorb fewer than eight bytes: four at once if there are as many, then single ones. -/
def absorbTail (h : UInt64) : List UInt8 → UInt64
  | b₀ :: b₁ :: b₂ :: b₃ :: rest =>
    let half := littleEndian [b₀, b₁, b₂, b₃]
    rest.foldl absorbByte (rotateLeft (h ^^^ (half * prime1)) 23 * prime2 + prime3)
  | bytes => bytes.foldl absorbByte h

/-- Spread every input bit over the whole word. -/
def avalanche (h : UInt64) : UInt64 :=
  let h := (h ^^^ (h >>> 33)) * prime2
  let h := (h ^^^ (h >>> 29)) * prime3
  h ^^^ (h >>> 32)

def ofBytes (bytes : List UInt8) : UInt64 :=
  let (ws, tail) := words bytes
  let (h, rest) := start ws
  avalanche (absorbTail (rest.foldl absorbWord (h + UInt64.ofNat bytes.length)) tail)

def ofString (s : String) : UInt64 := ofBytes s.toUTF8.toList

/-- The digest of the eight bytes of a word. -/
def ofWord (w : UInt64) : UInt64 := ofBytes (bytesOf w)

end Stackless.Digest
