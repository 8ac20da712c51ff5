import Relief.Number.Power

/-!
# Bytes of files

* `byteAt`: a byte at a place;
* `ByteOrder.number?`: the number that some bytes write, in either order;
* `slice?`: some bytes in a row;
* `standAt`: whether given bytes are found at a place.
-/

namespace Relief.Picture

/-- A byte at a place; zero behind the end. -/
def byteAt (bytes : ByteArray) (i : Nat) : UInt8 :=
  if h : i < bytes.size then bytes[i] else 0

/-- Some bytes in a row, if there are so many. -/
def slice? (bytes : ByteArray) (start length : Nat) : Option ByteArray :=
  if start + length ≤ bytes.size then some (bytes.extract start (start + length)) else none

/-- Whether the part is what stands from a place on. -/
def standAt (part bytes : ByteArray) (start : Nat) : Bool :=
  (bytes.extract start (start + part.size)).data == part.data

/-- Which byte of a number comes first. -/
inductive ByteOrder where
  | lowFirst
  | highFirst
  deriving DecidableEq, Repr

namespace ByteOrder

/-- The number that some bytes write. Bytes behind the end are zero. -/
def number (o : ByteOrder) (bytes : ByteArray) (start : Nat) : (length : Nat) → Nat
  | 0 => 0
  | length + 1 =>
    let last := (byteAt bytes (start + length)).toNat
    match o with
    | lowFirst => number o bytes start length + last * 256 ^ length
    | highFirst => 256 * number o bytes start length + last

/-- The number that some bytes write, if there are so many. -/
def number? (o : ByteOrder) (bytes : ByteArray) (start length : Nat) : Option Nat :=
  if start + length ≤ bytes.size then some (o.number bytes start length) else none

end ByteOrder

/-- The integer that a word of 32 bits stands for when its highest bit is a sign. -/
def signed (word : Nat) : Int :=
  word.toUInt32.toInt32.toInt

end Relief.Picture
