import Relief.Picture.Bytes
import Relief.Picture.Channels

/-!
# Surfaces in blocks

A surface file holds its pixels in blocks of four by four. A block gives two colours, from which two
more are mixed, and for each pixel the number of the one it has; alpha may come in the same way, or
in four bits for each pixel.

* `Blocks`: how the blocks of a file are made;
* `blocks?`: how they are made and where they begin;
* `decode?`: the image in a file.
-/

namespace Relief.Picture.Surface

/-! ## 1. Blocks -/

/-- How blocks are made. -/
inductive Blocks where
  /-- Colours alone. -/
  | plain
  /-- Four bits of alpha for each pixel, and then colours. -/
  | stepped
  /-- Two alphas with numbers of mixed ones for each pixel, and then colours. -/
  | mixed
  deriving DecidableEq, Repr

/-- The bytes of a block. -/
def Blocks.length : Blocks → Nat
  | plain => 8
  | stepped | mixed => 16

/-- The bytes of a pixel once it has been read. -/
def Blocks.pixelBytes : Blocks → Nat
  | plain => 3
  | stepped | mixed => 4

/-- Red, green and blue. -/
structure Colour where
  red : Nat
  green : Nat
  blue : Nat

/-- The colour with five bits of red, six of green and five of blue. -/
def Colour.ofWord (v : Nat) : Colour :=
  ⟨v / 2048 % 32 * 255 / 31, v / 32 % 64 * 255 / 63, v % 32 * 255 / 31⟩

/-- A function of two colours, channel by channel. -/
def Colour.zip (f : Nat → Nat → Nat) (a b : Colour) : Colour :=
  ⟨f a.red b.red, f a.green b.green, f a.blue b.blue⟩

/-- The colour that has a number in a block at a place. In plain blocks whose first colour does not
    come behind the second, the third is half of each and the fourth is black; otherwise both are a
    third of one and two thirds of the other. -/
def colour (b : Blocks) (bytes : ByteArray) (start number : Nat) : Colour :=
  let word (i : Nat) : Nat := ByteOrder.lowFirst.number bytes (start + i) 2
  let first := Colour.ofWord (word 0)
  let second := Colour.ofWord (word 2)
  match number with
  | 0 => first
  | 1 => second
  | n =>
    if b = .plain ∧ word 0 ≤ word 2 then
      if n = 2 then first.zip (fun a b => (a + b + 1) / 2) second else ⟨0, 0, 0⟩
    else if n = 2 then first.zip (fun a b => (2 * a + b + 1) / 3) second
    else first.zip (fun a b => (a + 2 * b + 1) / 3) second

/-- The alpha that has a number among those mixed from two. If the first is the greater one, six
    are mixed; otherwise four, and the last two are none and all. -/
def mixedAlpha (first second number : Nat) : Nat :=
  match number with
  | 0 => first
  | 1 => second
  | n =>
    if second < first then ((8 - n) * first + (n - 1) * second) / 7
    else if n = 6 then 0
    else if n = 7 then 255
    else ((6 - n) * first + (n - 1) * second) / 5

/-- The alpha of a pixel of a block at a place. -/
def alpha (b : Blocks) (bytes : ByteArray) (start pixel : Nat) : Nat :=
  match b with
  | .plain => 255
  | .stepped => ByteOrder.lowFirst.number bytes start 8 / 16 ^ pixel % 16 * 17
  | .mixed =>
    let number := ByteOrder.lowFirst.number bytes (start + 2) 6 / 8 ^ pixel % 8
    mixedAlpha (byteAt bytes start).toNat (byteAt bytes (start + 1)).toNat number

/-- A pixel of a block at a place. -/
def pixel (b : Blocks) (bytes : ByteArray) (start i : Nat) : Pixel :=
  let colours := start + b.length - 8
  let number := ByteOrder.lowFirst.number bytes (colours + 4) 4 / 4 ^ i % 4
  let c := colour b bytes colours number
  ⟨c.red.toUInt8, c.green.toUInt8, c.blue.toUInt8, (alpha b bytes start i).toUInt8⟩

/-! ## 2. Headers -/

/-- The bytes that every file begins with. -/
def signature : ByteArray :=
  "DDS ".toUTF8

/-- Flags that must be there: those of a file with a height, a width and a kind of pixels. -/
def neededFlags : Nat :=
  0x1007

/-- Flags that may be there. -/
def knownFlags : Nat :=
  0x8A100F

/-- How the blocks are made that a longer header tells of by a number. -/
def ofNumber? (number : Nat) : Option Blocks :=
  if 70 ≤ number ∧ number ≤ 72 then some .plain
  else if 73 ≤ number ∧ number ≤ 75 then some .stepped
  else if 76 ≤ number ∧ number ≤ 78 then some .mixed
  else none

/-- How the blocks are made that a longer header tells of, if its numbers fit together. -/
def longer? (bytes : ByteArray) : Option Blocks :=
  let word (i : Nat) : Nat := ByteOrder.lowFirst.number bytes (128 + 4 * i) 4
  if bytes.size < 148 then none
  else if word 1 ∈ [2, 3, 4] ∧ word 2 ∈ [0, 4] ∧ (word 1 = 4 → word 3 = 1) ∧ word 4 ≤ 4 then
    ofNumber? (word 0)
  else none

/-- How the blocks of a file are made, and where they begin. -/
def blocks? (bytes : ByteArray) : Option (Blocks × Nat) :=
  let word (i : Nat) : Nat := ByteOrder.lowFirst.number bytes i 4
  let flags := (word 8).toUInt32
  let needed := neededFlags.toUInt32
  if bytes.size < 128 ∨ !standAt signature bytes 0 ∨ word 4 ≠ 124 ∨ word 76 ≠ 32 then none
  else if flags &&& needed ≠ needed ∨ flags ||| knownFlags.toUInt32 ≠ knownFlags.toUInt32 then none
  else if word 80 / 4 % 2 = 0 then none
  else
    match String.fromUTF8? (bytes.extract 84 88) with
    | some "DXT1" => some (.plain, 128)
    | some "DXT3" => some (.stepped, 128)
    | some "DXT5" => some (.mixed, 128)
    | some "DX10" => (longer? bytes).map fun b => (b, 148)
    | _ => none

/-! ## 3. Files -/

/-- The image in a file. Its sides must be multiples of four. -/
def decode? (bytes : ByteArray) : Option Image :=
  (blocks? bytes).bind fun (b, start) =>
    let side (i : Nat) : Nat := ByteOrder.lowFirst.number bytes i 4
    let width := side 16
    let height := side 12
    let e : Extent := ⟨width.toUInt32, height.toUInt32⟩
    if width % 4 = 0 ∧ height % 4 = 0 ∧ isAllowed e b.pixelBytes
        ∧ start + e.area / 16 * b.length ≤ bytes.size then
      some (Image.tabulate e fun x y =>
        pixel b bytes (start + (y / 4 * (width / 4) + x / 4) * b.length) (y % 4 * 4 + x % 4))
    else none

end Relief.Picture.Surface
