import Relief.Image
import Relief.Picture.Bytes

/-!
# Headers of bitmaps

A bitmap header has one of six lengths. The shortest kind gives an extent and the bits of a pixel;
the others also tell how pixels are packed, how many colours there are, and which bits of a pixel
are its channels.

* `Packing`: how pixels are written;
* `Header.read?`: the header at a place.
-/

namespace Relief.Picture.Bitmap

/-! ## 1. Channels in the bits of a pixel -/

/-- Some bits of a pixel in a row, eight at most. -/
structure Field where
  /-- How many bits of the pixel are lower. -/
  shift : Nat
  length : Nat
  deriving DecidableEq, Repr

namespace Field

/-- The bits of a mask whose lowest bit is not zero, if they are in a row. -/
def rowLength? : (fuel mask : Nat) → Option Nat
  | _, 0 => some 0
  | 0, _ => none
  | fuel + 1, mask => if mask % 2 = 1 then (rowLength? fuel (mask / 2)).map (· + 1) else none

/-- How many bits of a mask are zero below its lowest bit that is not. -/
def zeros : (fuel mask : Nat) → Nat
  | 0, _ => 0
  | fuel + 1, mask => if mask % 2 = 0 then 1 + zeros fuel (mask / 2) else 0

/-- The bits that a mask chooses from a pixel. They must be in a row and within the pixel; only the
    eight highest count. -/
def ofMask? (pixelBits mask : Nat) : Option Field :=
  if mask = 0 then some ⟨0, 0⟩
  else
    let shift := zeros 32 mask
    (rowLength? 32 (mask / 2 ^ shift)).bind fun length =>
      if pixelBits < shift + length then none
      else some ⟨shift + (length - 8), min length 8⟩

/-- A channel of a pixel in eight bits: the nearest there is. -/
def level (f : Field) (pixel : Nat) : UInt8 :=
  let most := 2 ^ f.length - 1
  let v := pixel / 2 ^ f.shift % 2 ^ f.length
  if most = 0 then 0 else ((2 * 255 * v + most) / (2 * most)).toUInt8

end Field

/-- The channels in the bits of a pixel. -/
structure Fields where
  red : Field
  green : Field
  blue : Field
  alpha : Field
  deriving DecidableEq, Repr

namespace Fields

/-- Five bits for each of red, green and blue. -/
def fives : Fields :=
  ⟨⟨10, 5⟩, ⟨5, 5⟩, ⟨0, 5⟩, ⟨0, 0⟩⟩

/-- The channels that four masks choose. Only alpha may be left out. -/
def ofMasks? (pixelBits red green blue alpha : Nat) : Option Fields :=
  match Field.ofMask? pixelBits red, Field.ofMask? pixelBits green,
    Field.ofMask? pixelBits blue, Field.ofMask? pixelBits alpha with
  | some r, some g, some b, some a =>
    if r.length = 0 ∨ g.length = 0 ∨ b.length = 0 then none else some ⟨r, g, b, a⟩
  | _, _, _, _ => none

end Fields

/-! ## 2. Packing -/

/-- How pixels are written. -/
inductive Packing where
  /-- Numbers of colours. -/
  | indexed
  /-- Numbers of colours in runs, of half a byte each or of a whole one. -/
  | runs (halves : Bool)
  /-- Blue, green and red, a byte each. -/
  | three
  /-- Blue, green, red and alpha, a byte each. -/
  | four
  /-- Channels in the bits of a number. -/
  | fields (f : Fields)
  deriving DecidableEq, Repr

/-- Whether the pixels are numbers of colours. -/
def Packing.isIndexed : Packing → Bool
  | indexed | runs _ => true
  | _ => false

/-! ## 3. Headers -/

/-- What a bitmap says of its pixels. -/
structure Header where
  extent : Extent
  /-- Whether the first row comes first. -/
  fromTop : Bool
  /-- The bits of a pixel. -/
  bits : Nat
  packing : Packing
  /-- The bytes of a colour of the table. -/
  colourBytes : Nat
  /-- How many colours the table has. -/
  colourCount : Nat
  /-- Where the header ends. -/
  behind : Nat

namespace Header

/-- The lengths of headers that also give a mask of alpha. -/
def withAlpha : List Nat :=
  [56, 108, 124]

/-- The lengths of headers other than the shortest. -/
def longer : List Nat :=
  [40, 52] ++ withAlpha

/-- The lengths of headers that are followed by masks, if there are any. -/
def withMasks : List Nat :=
  [40, 108, 124]

/-- The greatest width and height. -/
def greatestSide : Int :=
  0xFFFF

/-- The header of the shortest kind, at a place. -/
def readShort? (bytes : ByteArray) (start : Nat) : Option Header :=
  let word (i : Nat) : Nat := ByteOrder.lowFirst.number bytes (start + i) 2
  let packing : Option Packing := match word 10 with
    | 1 | 4 | 8 => some .indexed
    | 24 => some .three
    | _ => none
  packing.bind fun packing =>
    let e : Extent := ⟨(word 4).toUInt32, (word 6).toUInt32⟩
    if start + 12 ≤ bytes.size ∧ !e.isEmpty ∧ word 8 = 1 then
      some {
        extent := e
        fromTop := false
        bits := word 10
        packing
        colourBytes := 3
        colourCount := 2 ^ word 10
        behind := start + 12 }
    else none

/-- The channels that the masks of a header choose, which come behind its first forty bytes. -/
def masks? (bytes : ByteArray) (start length bits : Nat) : Option Fields :=
  let mask (i : Nat) : Nat := ByteOrder.lowFirst.number bytes (start + 40 + 4 * i) 4
  let hasAlpha := length ∈ withAlpha
  if bytes.size < start + (if hasAlpha then 56 else 52) then none
  else Fields.ofMasks? bits (mask 0) (mask 1) (mask 2) (if hasAlpha then mask 3 else 0)

/-- How the pixels are written that a header tells of by two numbers. -/
def packing? (bytes : ByteArray) (start length method bits : Nat) (keepsAlpha : Bool) :
    Option Packing :=
  match method, bits with
  | 0, 1 | 0, 2 | 0, 4 | 0, 8 => some .indexed
  | 0, 16 => some (.fields .fives)
  | 0, 24 => some .three
  | 0, 32 =>
    if keepsAlpha then some .four
    else some (.fields ⟨⟨16, 8⟩, ⟨8, 8⟩, ⟨0, 8⟩, ⟨0, 0⟩⟩)
  | 1, 8 => some (.runs false)
  | 2, 4 => some (.runs true)
  | 3, 16 | 3, 32 => (masks? bytes start length bits).map .fields
  | _, _ => none

/-- A header other than the shortest, at a place. A height below zero says that the first row comes
    first. -/
def readLong? (bytes : ByteArray) (start length : Nat) (keepsAlpha : Bool) : Option Header :=
  let word (i : Nat) : Nat := ByteOrder.lowFirst.number bytes (start + i) 4
  let half (i : Nat) : Nat := ByteOrder.lowFirst.number bytes (start + i) 2
  let width := signed (word 4)
  let height := signed (word 8)
  let method := word 16
  let masks := if method = 3 ∧ length ∈ withMasks then 12 else 0
  let colours := word 32
  if bytes.size < start + 40 ∨ width ≤ 0 ∨ height = 0 ∨ height = -2 ^ 31
      ∨ greatestSide < width ∨ greatestSide < height ∨ half 12 ≠ 1 then none
  else if height < 0 ∧ method ≠ 0 ∧ method ≠ 3 then none
  else
    (packing? bytes start length method (half 14) keepsAlpha).bind fun packing =>
      if packing.isIndexed ∧ 2 ^ half 14 < colours then none
      else
        some {
          extent := ⟨width.toNat.toUInt32, height.natAbs.toUInt32⟩
          fromTop := height < 0
          bits := half 14
          packing
          colourBytes := 4
          colourCount := if colours = 0 then 2 ^ half 14 else colours
          behind := start + length + masks }

/-- The header at a place, which begins with its length. Where pixels of four bytes have no masks,
    their last byte is alpha if `keepsAlpha`, and otherwise nothing. -/
def read? (bytes : ByteArray) (start : Nat) (keepsAlpha : Bool) : Option Header :=
  (ByteOrder.lowFirst.number? bytes start 4).bind fun length =>
    if length = 12 then readShort? bytes start
    else if length ∈ longer then readLong? bytes start length keepsAlpha
    else none

/-- Where the table of colours ends, if there is one. -/
def behindTable (h : Header) : Nat :=
  h.behind + if h.packing.isIndexed then h.colourBytes * h.colourCount else 0

/-- A colour of the table; black if it has no such colour. -/
def colour (h : Header) (bytes : ByteArray) (index : Nat) : Pixel :=
  if index < h.colourCount then
    let byte (k : Nat) : UInt8 := byteAt bytes (h.behind + h.colourBytes * index + k)
    ⟨byte 2, byte 1, byte 0, 255⟩
  else ⟨0, 0, 0, 255⟩

/-- The bytes of a row: a multiple of four. -/
def rowBytes (h : Header) : Nat :=
  (h.bits * h.extent.width.toNat + 31) / 32 * 4

end Header

end Relief.Picture.Bitmap
