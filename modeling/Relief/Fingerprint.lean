/-!
# Fingerprints

The 64-bit FNV-1a hash of a sequence of bytes: each byte is combined into the state by exclusive
or, and the state is then multiplied by a fixed odd prime. Equal programs have equal fingerprints,
so a fingerprint serves as the key under which a compiled program is kept.
-/

namespace Relief.Fingerprint

/-- The state before the first byte. -/
def start : UInt64 :=
  0xcbf29ce484222325

/-- The multiplier. -/
def prime : UInt64 :=
  0x100000001b3

/-- The state after one more byte. -/
def absorb (state : UInt64) (byte : UInt8) : UInt64 :=
  (state ^^^ byte.toUInt64) * prime

/-- The state after a list of bytes. -/
def absorbAll (state : UInt64) (bytes : List UInt8) : UInt64 :=
  bytes.foldl absorb state

/-- The bytes of a text in UTF-8. -/
def utf8 (text : String) : List UInt8 :=
  text.toUTF8.toList

/-- The bytes of a word, the lowest first. -/
def littleEndian (word : UInt32) : List UInt8 :=
  [word.toUInt8, (word >>> 8).toUInt8, (word >>> 16).toUInt8, (word >>> 24).toUInt8]

end Relief.Fingerprint
