/-!
# Checksums

The checksum of a file is the 64-bit XXH3 hash of its bytes, with seed zero and the standard secret.
Short inputs are mixed directly, with one rule for each range of lengths; long ones run through
eight lanes, stripe by stripe. Numbers are read from the lowest byte up.
-/

namespace Easel

namespace Checksum

/-! ## Reading numbers -/

/-- The byte at an index, or zero past the end. -/
def byteAt (d : ByteArray) (i : Nat) : UInt64 := if h : i < d.size then d[i].toUInt64 else 0

/-- Four bytes as a number. -/
def word32 (d : ByteArray) (i : Nat) : UInt64 :=
  byteAt d i ||| byteAt d (i + 1) <<< 8 ||| byteAt d (i + 2) <<< 16 ||| byteAt d (i + 3) <<< 24

/-- Eight bytes as a number. -/
def word64 (d : ByteArray) (i : Nat) : UInt64 := word32 d i ||| word32 d (i + 4) <<< 32

/-- The bytes that are mixed with the input. -/
def secret : ByteArray := ⟨#[
  0xb8, 0xfe, 0x6c, 0x39, 0x23, 0xa4, 0x4b, 0xbe, 0x7c, 0x01, 0x81, 0x2c, 0xf7, 0x21, 0xad, 0x1c,
  0xde, 0xd4, 0x6d, 0xe9, 0x83, 0x90, 0x97, 0xdb, 0x72, 0x40, 0xa4, 0xa4, 0xb7, 0xb3, 0x67, 0x1f,
  0xcb, 0x79, 0xe6, 0x4e, 0xcc, 0xc0, 0xe5, 0x78, 0x82, 0x5a, 0xd0, 0x7d, 0xcc, 0xff, 0x72, 0x21,
  0xb8, 0x08, 0x46, 0x74, 0xf7, 0x43, 0x24, 0x8e, 0xe0, 0x35, 0x90, 0xe6, 0x81, 0x3a, 0x26, 0x4c,
  0x3c, 0x28, 0x52, 0xbb, 0x91, 0xc3, 0x00, 0xcb, 0x88, 0xd0, 0x65, 0x8b, 0x1b, 0x53, 0x2e, 0xa3,
  0x71, 0x64, 0x48, 0x97, 0xa2, 0x0d, 0xf9, 0x4e, 0x38, 0x19, 0xef, 0x46, 0xa9, 0xde, 0xac, 0xd8,
  0xa8, 0xfa, 0x76, 0x3f, 0xe3, 0x9c, 0x34, 0x3f, 0xf9, 0xdc, 0xbb, 0xc7, 0xc7, 0x0b, 0x4f, 0x1d,
  0x8a, 0x51, 0xe0, 0x4b, 0xcd, 0xb4, 0x59, 0x31, 0xc8, 0x9f, 0x7e, 0xc9, 0xd9, 0x78, 0x73, 0x64,
  0xea, 0xc5, 0xac, 0x83, 0x34, 0xd3, 0xeb, 0xc3, 0xc5, 0x81, 0xa0, 0xff, 0xfa, 0x13, 0x63, 0xeb,
  0x17, 0x0d, 0xdd, 0x51, 0xb7, 0xf0, 0xda, 0x49, 0xd3, 0x16, 0x55, 0x26, 0x29, 0xd4, 0x68, 0x9e,
  0x2b, 0x16, 0xbe, 0x58, 0x7d, 0x47, 0xa1, 0xfc, 0x8f, 0xf8, 0xb8, 0xd1, 0x7a, 0xd0, 0x31, 0xce,
  0x45, 0xcb, 0x3a, 0x8f, 0x95, 0x16, 0x04, 0x28, 0xaf, 0xd7, 0xfb, 0xca, 0xbb, 0x4b, 0x40, 0x7e]⟩

/-- Eight bytes of the secret. -/
def key (i : Nat) : UInt64 := word64 secret i

/-! ## Mixing -/

def prime32First : UInt64 := 2654435761
def prime32Second : UInt64 := 2246822519
def prime32Third : UInt64 := 3266489917
def prime64First : UInt64 := 11400714785074694791
def prime64Second : UInt64 := 14029467366897019727
def prime64Third : UInt64 := 1609587929392839161
def prime64Fourth : UInt64 := 9650029242287828579
def prime64Fifth : UInt64 := 2870177450012600261

/-- The halves of the full product of two words, combined. -/
def fold (a b : UInt64) : UInt64 :=
  let product := a.toNat * b.toNat
  UInt64.ofNat product ^^^ UInt64.ofNat (product >>> 64)

def rotateLeft (x : UInt64) (n : UInt64) : UInt64 := x <<< n ||| x >>> (64 - n)

/-- The bytes of a word in reverse order. -/
def swapBytes (x : UInt64) : UInt64 :=
  (x &&& 0xff) <<< 56 ||| (x >>> 8 &&& 0xff) <<< 48 ||| (x >>> 16 &&& 0xff) <<< 40 |||
    (x >>> 24 &&& 0xff) <<< 32 ||| (x >>> 32 &&& 0xff) <<< 24 ||| (x >>> 40 &&& 0xff) <<< 16 |||
    (x >>> 48 &&& 0xff) <<< 8 ||| x >>> 56

/-- Spread every bit of a word over the whole word. -/
def avalanche (x : UInt64) : UInt64 :=
  let x := x ^^^ x >>> 37
  let x := x * 0x165667919e3779f9
  x ^^^ x >>> 32

/-- The length of the input as a word. -/
def size (d : ByteArray) : UInt64 := UInt64.ofNat d.size

/-! ## Short inputs -/

/-- One to three bytes. -/
def tiny (d : ByteArray) : UInt64 :=
  let combined := byteAt d 0 <<< 16 ||| byteAt d (d.size / 2) <<< 24 ||| byteAt d (d.size - 1) |||
    size d <<< 8
  let x := combined ^^^ (word32 secret 0 ^^^ word32 secret 4)
  let x := x ^^^ x >>> 33
  let x := x * prime64Second
  let x := x ^^^ x >>> 29
  let x := x * prime64Third
  x ^^^ x >>> 32

/-- Four to eight bytes. -/
def upToEight (d : ByteArray) : UInt64 :=
  let x := (word32 d (d.size - 4) + word32 d 0 <<< 32) ^^^ (key 8 ^^^ key 16)
  let x := x ^^^ (rotateLeft x 49 ^^^ rotateLeft x 24)
  let x := x * 0x9fb21c651e98df25
  let x := x ^^^ (x >>> 35 + size d)
  let x := x * 0x9fb21c651e98df25
  x ^^^ x >>> 28

/-- Nine to sixteen bytes. -/
def upToSixteen (d : ByteArray) : UInt64 :=
  let low := word64 d 0 ^^^ (key 24 ^^^ key 32)
  let high := word64 d (d.size - 8) ^^^ (key 40 ^^^ key 48)
  avalanche (size d + swapBytes low + high + fold low high)

/-- Sixteen bytes of the input at `i` mixed with the secret at `s`. -/
def mixAt (d : ByteArray) (i s : Nat) : UInt64 :=
  fold (word64 d i ^^^ key s) (word64 d (i + 8) ^^^ key (s + 8))

/-- The sum of a function over the numbers from `first` on. -/
def sumFrom (f : Nat → UInt64) (first : Nat) : Nat → UInt64
  | 0 => 0
  | count + 1 => f first + sumFrom f (first + 1) count

/-- Seventeen to 128 bytes: pieces from both ends. -/
def medium (d : ByteArray) : UInt64 :=
  avalanche (size d * prime64First + sumFrom
    (fun i => mixAt d (16 * i) (32 * i) + mixAt d (d.size - 16 - 16 * i) (32 * i + 16))
    0 ((d.size - 1) / 32 + 1))

/-- 129 to 240 bytes: eight pieces, then the others, then the last sixteen bytes. -/
def large (d : ByteArray) : UInt64 :=
  let start := avalanche (size d * prime64First + sumFrom (fun i => mixAt d (16 * i) (16 * i)) 0 8)
  let rest := sumFrom (fun i => mixAt d (16 * i) (16 * (i - 8) + 3)) 8 (d.size / 16 - 8)
  avalanche (start + rest + mixAt d (d.size - 16) 119)

/-! ## Long inputs -/

/-- The lanes a long input runs through. -/
structure Lanes where
  l0 : UInt64
  l1 : UInt64
  l2 : UInt64
  l3 : UInt64
  l4 : UInt64
  l5 : UInt64
  l6 : UInt64
  l7 : UInt64

def Lanes.start : Lanes :=
  ⟨prime32Third, prime64First, prime64Second, prime64Third, prime64Fourth, prime32Second,
    prime64Fifth, prime32First⟩

/-- The product of the halves of a word. -/
def halves (w : UInt64) : UInt64 := w % 0x100000000 * (w >>> 32)

/-- Run the 64 bytes at `p` through the lanes with the secret at `s`. A lane takes the product of
its own word and the plain word of its neighbour. -/
def Lanes.stripe (d : ByteArray) (p s : Nat) (a : Lanes) : Lanes :=
  let v0 := word64 d p
  let v1 := word64 d (p + 8)
  let v2 := word64 d (p + 16)
  let v3 := word64 d (p + 24)
  let v4 := word64 d (p + 32)
  let v5 := word64 d (p + 40)
  let v6 := word64 d (p + 48)
  let v7 := word64 d (p + 56)
  ⟨a.l0 + v1 + halves (v0 ^^^ key s), a.l1 + v0 + halves (v1 ^^^ key (s + 8)),
    a.l2 + v3 + halves (v2 ^^^ key (s + 16)), a.l3 + v2 + halves (v3 ^^^ key (s + 24)),
    a.l4 + v5 + halves (v4 ^^^ key (s + 32)), a.l5 + v4 + halves (v5 ^^^ key (s + 40)),
    a.l6 + v7 + halves (v6 ^^^ key (s + 48)), a.l7 + v6 + halves (v7 ^^^ key (s + 56))⟩

/-- A number of stripes, one after another. -/
def Lanes.stripes (d : ByteArray) : Nat → Nat → Nat → Lanes → Lanes
  | 0, _, _, a => a
  | count + 1, p, s, a => Lanes.stripes d count (p + 64) (s + 8) (a.stripe d p s)

/-- Mix each lane after a block. -/
def Lanes.scramble (a : Lanes) : Lanes :=
  let mix (x : UInt64) (s : Nat) : UInt64 := (x ^^^ x >>> 47 ^^^ key s) * prime32First
  ⟨mix a.l0 128, mix a.l1 136, mix a.l2 144, mix a.l3 152, mix a.l4 160, mix a.l5 168,
    mix a.l6 176, mix a.l7 184⟩

/-- A number of blocks of sixteen stripes. -/
def Lanes.blocks (d : ByteArray) : Nat → Nat → Lanes → Lanes
  | 0, _, a => a
  | count + 1, p, a => Lanes.blocks d count (p + 1024) (Lanes.stripes d 16 p 0 a).scramble

/-- More than 240 bytes. -/
def long (d : ByteArray) : UInt64 :=
  let count := (d.size - 1) / 1024
  let a := Lanes.blocks d count 0 .start
  let a := Lanes.stripes d ((d.size - 1024 * count - 1) / 64) (1024 * count) 0 a
  let a := a.stripe d (d.size - 64) 121
  avalanche (size d * prime64First + fold (a.l0 ^^^ key 11) (a.l1 ^^^ key 19) +
    fold (a.l2 ^^^ key 27) (a.l3 ^^^ key 35) + fold (a.l4 ^^^ key 43) (a.l5 ^^^ key 51) +
    fold (a.l6 ^^^ key 59) (a.l7 ^^^ key 67))

end Checksum

/-- The checksum of some bytes. -/
def checksum (d : ByteArray) : UInt64 :=
  if d.size = 0 then 0x2d06800538d394c2
  else if d.size ≤ 3 then Checksum.tiny d
  else if d.size ≤ 8 then Checksum.upToEight d
  else if d.size ≤ 16 then Checksum.upToSixteen d
  else if d.size ≤ 128 then Checksum.medium d
  else if d.size ≤ 240 then Checksum.large d
  else Checksum.long d

end Easel
