/-!
# Checksums of files

* `Crc32`: the remainder by a polynomial over the field of two elements, for parts of a file;
* `Adler32`: two sums modulo a prime, for compressed data.
-/

namespace Relief.Picture

namespace Crc32

/-- The state before the first byte. -/
def start : UInt32 :=
  0xFFFFFFFF

/-- Divides by the polynomial for one bit, the lowest bit being the highest power. -/
def shift (state : UInt32) : UInt32 :=
  if state &&& 1 = 1 then (state >>> 1) ^^^ 0xEDB88320 else state >>> 1

/-- Takes a byte in. -/
def absorb (state : UInt32) (byte : UInt8) : UInt32 :=
  let state := state ^^^ byte.toUInt32
  shift (shift (shift (shift (shift (shift (shift (shift state)))))))

/-- The checksum of some bytes. -/
def of (bytes : ByteArray) : UInt32 :=
  bytes.foldl absorb start ^^^ 0xFFFFFFFF

end Crc32

namespace Adler32

/-- The greatest prime below `2 ^ 16`. -/
def modulus : UInt32 :=
  65521

/-- Adds a byte to the first sum, and the first sum to the second. -/
def absorb (sums : UInt32 × UInt32) (byte : UInt8) : UInt32 × UInt32 :=
  let first := (sums.1 + byte.toUInt32) % modulus
  (first, (sums.2 + first) % modulus)

/-- The checksum of some bytes. -/
def of (bytes : ByteArray) : UInt32 :=
  let sums := bytes.foldl absorb (1, 0)
  (sums.2 <<< 16) ||| sums.1

end Adler32

/-- The four bytes that write a number, the highest first. -/
def bigEndian (n : UInt32) : List UInt8 :=
  [(n >>> 24).toUInt8, (n >>> 16).toUInt8, (n >>> 8).toUInt8, n.toUInt8]

end Relief.Picture
