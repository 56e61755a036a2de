import SourceRepair.Json.Write

/-!
# Digests of contents

The 64-bit hash XXH3 without a seed, by which the contents of files are told apart. Inputs are hashed
in one of six ways, by their length.
-/

namespace SourceRepair.Digest

/-- The bytes that are mixed into the input. -/
def secret : ByteArray := ByteArray.mk #[
  0xb8, 0xfe, 0x6c, 0x39, 0x23, 0xa4, 0x4b, 0xbe, 0x7c, 0x01, 0x81, 0x2c, 0xf7, 0x21, 0xad, 0x1c,
  0xde, 0xd4, 0x6d, 0xe9, 0x83, 0x90, 0x97, 0xdb, 0x72, 0x40, 0xa4, 0xa4, 0xb7, 0xb3, 0x67, 0x1f,
  0xcb, 0x79, 0xe6, 0x4e, 0xcc, 0xc0, 0xe5, 0x78, 0x82, 0x5a, 0xd0, 0x7d, 0xcc, 0xff, 0x72, 0x21,
  0xb8, 0x08, 0x46, 0x74, 0xf7, 0x43, 0x24, 0x8e, 0xe0, 0x35, 0x90, 0xe6, 0x81, 0x3a, 0x26, 0x4c,
  0x3c, 0x28, 0x52, 0xbb, 0x91, 0xc3, 0x00, 0xcb, 0x88, 0xd0, 0x65, 0x8b, 0x1b, 0x53, 0x2e, 0xa3,
  0x71, 0x64, 0x48, 0x97, 0xa2, 0x0d, 0xf9, 0x4e, 0x38, 0x19, 0xef, 0x46, 0xa9, 0xde, 0xac, 0xd8,
  0xa8, 0xfa, 0x76, 0x3f, 0xe3, 0x9c, 0x34, 0x3f, 0xf9, 0xdc, 0xbb, 0xc7, 0xc7, 0x0b, 0x4f, 0x1d,
  0x8a, 0x51, 0xe0, 0x4b, 0xcd, 0xb4, 0x59, 0x31, 0xc8, 0x9f, 0x7e, 0xc9, 0xd9, 0x78, 0x73, 0x64,
  0xea, 0xc5, 0xac, 0x83, 0x34, 0xd3, 0xeb, 0xc3, 0xc5, 0x81, 0xa0, 0xff, 0xfa, 0x13, 0x63, 0xeb,
  0x17, 0x0d, 0xdd, 0x51, 0xb7, 0xf0, 0xda, 0x49, 0xd3, 0x16, 0x55, 0x26, 0x29, 0xd4, 0x68, 0x9e,
  0x2b, 0x16, 0xbe, 0x58, 0x7d, 0x47, 0xa1, 0xfc, 0x8f, 0xf8, 0xb8, 0xd1, 0x7a, 0xd0, 0x31, 0xce,
  0x45, 0xcb, 0x3a, 0x8f, 0x95, 0x16, 0x04, 0x28, 0xaf, 0xd7, 0xfb, 0xca, 0xbb, 0x4b, 0x40, 0x7e]

def prime32A : UInt64 := 0x9E3779B1
def prime32B : UInt64 := 0x85EBCA77
def prime32C : UInt64 := 0xC2B2AE3D
def prime64A : UInt64 := 0x9E3779B185EBCA87
def prime64B : UInt64 := 0xC2B2AE3D27D4EB4F
def prime64C : UInt64 := 0x165667B19E3779F9
def prime64D : UInt64 := 0x85EBCA77C2B2AE63
def prime64E : UInt64 := 0x27D4EB2F165667C5
def mixerA : UInt64 := 0x165667919E3779F9
def mixerB : UInt64 := 0x9FB21C651E98DF25

/-! ### Words -/

/-- The byte at an index, zero outside. -/
def byteAt (b : ByteArray) (i : Nat) : UInt64 := (b.data[i]?.getD 0).toUInt64

/-- The number that `n` bytes write, the lowest first. -/
def wordAt (b : ByteArray) (i : Nat) : Nat → UInt64
  | 0 => 0
  | n + 1 => byteAt b i ||| (wordAt b (i + 1) n <<< 8)

def word32 (b : ByteArray) (i : Nat) : UInt64 := wordAt b i 4

def word64 (b : ByteArray) (i : Nat) : UInt64 := wordAt b i 8

/-- A word of the secret. -/
def key (i : Nat) : UInt64 := word64 secret i

def rotate (x : UInt64) (n : UInt64) : UInt64 := (x <<< n) ||| (x >>> (64 - n))

/-- The bytes of a word in reverse. -/
def reverseBytes (x : UInt64) : UInt64 :=
  (List.range 8).foldl (fun acc i => (acc <<< 8) ||| ((x >>> (8 * i).toUInt64) &&& 0xFF)) 0

/-- The two halves of the full product, put on top of each other. -/
def fold (a b : UInt64) : UInt64 :=
  let product := a.toNat * b.toNat
  product.toUInt64 ^^^ (product >>> 64).toUInt64

/-- The last mixing of most lengths. -/
def finish (h : UInt64) : UInt64 :=
  let h := (h ^^^ (h >>> 37)) * mixerA
  h ^^^ (h >>> 32)

/-! ### Short inputs -/

/-- The last mixing of the shortest inputs. -/
def finishShort (h : UInt64) : UInt64 :=
  let h := (h ^^^ (h >>> 33)) * prime64B
  let h := (h ^^^ (h >>> 29)) * prime64C
  h ^^^ (h >>> 32)

def upTo3 (b : ByteArray) : UInt64 :=
  let n := b.size
  let packed := (byteAt b 0 <<< 16) ||| (byteAt b (n / 2) <<< 24) ||| byteAt b (n - 1) |||
    (n.toUInt64 <<< 8)
  finishShort (packed ^^^ (word32 secret 0 ^^^ word32 secret 4))

def upTo8 (b : ByteArray) : UInt64 :=
  let n := b.size
  let input := word32 b (n - 4) + (word32 b 0 <<< 32)
  let h := input ^^^ (key 8 ^^^ key 16)
  let h := (h ^^^ (rotate h 49 ^^^ rotate h 24)) * mixerB
  let h := (h ^^^ ((h >>> 35) + n.toUInt64)) * mixerB
  h ^^^ (h >>> 28)

def upTo16 (b : ByteArray) : UInt64 :=
  let n := b.size
  let low := word64 b 0 ^^^ (key 24 ^^^ key 32)
  let high := word64 b (n - 8) ^^^ (key 40 ^^^ key 48)
  finish (n.toUInt64 + reverseBytes low + high + fold low high)

/-- Sixteen bytes of the input, mixed with sixteen of the secret. -/
def mix16 (b : ByteArray) (i k : Nat) : UInt64 :=
  fold (word64 b i ^^^ key k) (word64 b (i + 8) ^^^ key (k + 8))

/-! ### Inputs of medium length -/

def upTo128 (b : ByteArray) : UInt64 :=
  let n := b.size
  let rounds := (n - 1) / 32 + 1
  finish ((List.range rounds).foldl
    (fun acc i => acc + mix16 b (16 * i) (32 * i) + mix16 b (n - 16 * (i + 1)) (32 * i + 16))
    (n.toUInt64 * prime64A))

def upTo240 (b : ByteArray) : UInt64 :=
  let n := b.size
  let first := finish ((List.range 8).foldl (fun acc i => acc + mix16 b (16 * i) (16 * i))
    (n.toUInt64 * prime64A))
  let second := (List.range (n / 16 - 8)).foldl
    (fun acc i => acc + mix16 b (16 * (i + 8)) (16 * i + 3)) first
  finish (second + mix16 b (n - 16) 119)

/-! ### Long inputs -/

/-- The eight sums that long inputs are gathered in. -/
abbrev Lanes := List UInt64

def startLanes : Lanes :=
  [prime32C, prime64A, prime64B, prime64C, prime64D, prime32B, prime64E, prime32A]

/-- The lower 32 bits. -/
def lowHalf (x : UInt64) : UInt64 := x &&& (0xFFFFFFFF : UInt64)

/-- Adds the pair of words at `i` to a pair of sums. -/
def addPair (b : ByteArray) (i k : Nat) (x y : UInt64) : UInt64 × UInt64 :=
  let v := word64 b i
  let w := word64 b (i + 8)
  let p := v ^^^ key k
  let q := w ^^^ key (k + 8)
  (x + w + lowHalf p * (p >>> 32), y + v + lowHalf q * (q >>> 32))

/-- Adds a stripe of 64 bytes, pair by pair. -/
def addStripe (b : ByteArray) : Nat → Nat → Lanes → Lanes
  | i, k, x :: y :: rest =>
    let (x, y) := addPair b i k x y
    x :: y :: addStripe b (i + 16) (k + 16) rest
  | _, _, lanes => lanes

/-- Stirs the sums at the end of a block. -/
def stir : Nat → Lanes → Lanes
  | _, [] => []
  | k, x :: rest => ((x ^^^ (x >>> 47) ^^^ key k) * prime32A) :: stir (k + 8) rest

/-- Stripes in a block. -/
def blockStripes : Nat := 16

/-- Adds some stripes from an index on. -/
def addStripes (b : ByteArray) (i count : Nat) (lanes : Lanes) : Lanes :=
  (List.range count).foldl (fun lanes j => addStripe b (i + 64 * j) (8 * j) lanes) lanes

/-- Brings the sums together. -/
def mergeLanes : Nat → Lanes → UInt64 → UInt64
  | k, x :: y :: rest, h => mergeLanes (k + 16) rest (h + fold (x ^^^ key k) (y ^^^ key (k + 8)))
  | _, _, h => h

def long (b : ByteArray) : UInt64 :=
  let n := b.size
  let block := 64 * blockStripes
  let blocks := (n - 1) / block
  let lanes := (List.range blocks).foldl
    (fun lanes i => stir 128 (addStripes b (block * i) blockStripes lanes)) startLanes
  let lanes := addStripes b (block * blocks) ((n - 1 - block * blocks) / 64) lanes
  let lanes := addStripe b (n - 64) 121 lanes
  finish (mergeLanes 11 lanes (n.toUInt64 * prime64A))

/-! ### All lengths -/

def hash64 (b : ByteArray) : UInt64 :=
  if b.size = 0 then finishShort (key 56 ^^^ key 64)
  else if b.size ≤ 3 then upTo3 b
  else if b.size ≤ 8 then upTo8 b
  else if b.size ≤ 16 then upTo16 b
  else if b.size ≤ 128 then upTo128 b
  else if b.size ≤ 240 then upTo240 b
  else long b

/-- The sixteen hexadecimal digits of a word. -/
def hex (h : UInt64) : String :=
  String.ofList ((List.range 16).map fun i => Json.hexDigit ((h.toNat >>> (4 * (15 - i))) % 16))

/-- The digest of some bytes, as text. -/
def ofBytes (b : ByteArray) : String := hex (hash64 b)

/-- The digest of a text. -/
def ofText (s : String) : String := ofBytes s.toUTF8

end SourceRepair.Digest
