import Relief.Picture.Bytes
import Relief.Picture.Channels

/-!
# Targa files

A header of eighteen bytes, a name, a table of colours if there is one, and the pixels: as they are,
or in packets of pixels that are alike or not.

* `Header.read?`: what a file says of its pixels;
* `Header.pixels?`: the bytes of the pixels;
* `decode?`: the image in a file.
-/

namespace Relief.Picture.Targa

/-! ## 1. Headers -/

/-- What a file says of its pixels. -/
structure Header where
  nameLength : Nat
  /-- Whether there is a table of colours. -/
  hasTable : Bool
  /-- How the pixels are meant and written. -/
  kind : Nat
  /-- The number of the first colour of the table. -/
  firstColour : Nat
  colourCount : Nat
  /-- The bits of a colour of the table. -/
  colourBits : Nat
  extent : Extent
  /-- The bits of a pixel. -/
  depth : Nat
  /-- How many bits of a pixel are its alpha. -/
  alphaBits : Nat
  /-- Whether the last pixel of a row comes first. -/
  fromRight : Bool
  /-- Whether the first row comes first. -/
  fromTop : Bool

namespace Header

/-- The length of a header. -/
def length : Nat :=
  18

/-- The header that bytes begin with. -/
def read? (bytes : ByteArray) : Option Header :=
  if length ≤ bytes.size then
    let word (i : Nat) : Nat := ByteOrder.lowFirst.number bytes i 2
    let byte (i : Nat) : Nat := (byteAt bytes i).toNat
    some {
      nameLength := byte 0
      hasTable := byte 1 = 1
      kind := byte 2
      firstColour := word 3
      colourCount := word 5
      colourBits := byte 7
      extent := ⟨(word 12).toUInt32, (word 14).toUInt32⟩
      depth := byte 16
      alphaBits := byte 17 % 16
      fromRight := byte 17 / 16 % 2 = 1
      fromTop := byte 17 / 32 % 2 = 1 }
  else none

/-- Whether the pixels have colours. -/
def isColoured (h : Header) : Bool :=
  h.kind ∈ [1, 2, 9, 10]

/-- Whether the pixels are numbers of colours. -/
def isIndexed (h : Header) : Bool :=
  h.kind ∈ [1, 9]

/-- Whether the pixels are in packets. -/
def isPacked (h : Header) : Bool :=
  h.kind ∈ [9, 10, 11]

/-- The bytes of a pixel. -/
def pixelBytes (h : Header) : Nat :=
  h.depth / 8

/-- The bytes of a colour of the table. -/
def colourBytes (h : Header) : Nat :=
  (h.colourBits + 7) / 8

/-- Whether the numbers of a file fit together. -/
def isSound (h : Header) : Bool :=
  h.depth ∈ [8, 16, 24, 32] && h.alphaBits ∈ [0, 1, 8]
    && (!h.isIndexed || (h.hasTable && h.depth ≤ 16 && h.depth ≤ h.colourBits))
    && (!h.hasTable || h.colourBytes ∈ [2, 3, 4])

/-- Where the table of colours begins. -/
def tableStart (h : Header) : Nat :=
  length + h.nameLength

/-- Where the pixels begin. -/
def pixelStart (h : Header) : Nat :=
  h.tableStart + if h.hasTable then h.colourBytes * h.colourCount else 0

end Header

/-! ## 2. Colours -/

/-- How the bytes of a colour are read. -/
inductive Colouring where
  | grey
  | greyAlpha
  /-- Blue, green and red. -/
  | three
  /-- Blue, green, red and alpha. -/
  | four
  /-- Five bits for each of red, green and blue. -/
  | fives
  deriving DecidableEq, Repr

/-- How the colours of a file are read, if they can be. -/
def Header.colouring? (h : Header) : Option Colouring :=
  let bits := if h.hasTable then h.colourBits else h.depth
  if bits < h.alphaBits then none
  else
    match h.alphaBits, bits - h.alphaBits, h.isColoured with
    | 0, 32, true | 8, 24, true => some .four
    | 0, 24, true => some .three
    | 1, 15, true | 0, 15, true | 0, 16, true => some .fives
    | 8, 8, false => some .greyAlpha
    | 0, 8, false | 8, 0, false => some .grey
    | _, _, _ => none

/-- The bytes of a pixel once it has been read. -/
def Colouring.samples : Colouring → Nat
  | grey => 1
  | greyAlpha => 2
  | three | fives => 3
  | four => 4

/-- Five bits in eight: the nearest there is. -/
def levelOfFive (v : Nat) : UInt8 :=
  ((255 * v + 15) / 31).toUInt8

/-- The pixel of a colour at a place. -/
def Colouring.pixel (c : Colouring) (bytes : ByteArray) (i : Nat) : Pixel :=
  let byte (k : Nat) : UInt8 := byteAt bytes (i + k)
  match c with
  | grey => .grey (byte 0)
  | greyAlpha => ⟨byte 0, byte 0, byte 0, byte 1⟩
  | three => ⟨byte 2, byte 1, byte 0, 255⟩
  | four => ⟨byte 2, byte 1, byte 0, byte 3⟩
  | fives =>
    let v := ByteOrder.lowFirst.number bytes i 2
    ⟨levelOfFive (v / 1024 % 32), levelOfFive (v / 32 % 32), levelOfFive (v % 32), 255⟩

/-! ## 3. Pixels -/

/-- The bytes of pixels in packets, `wanted` in all, after those that are there already. A packet
    begins with a byte that tells how many pixels it holds, and whether they are alike; then there
    is only one. -/
def unpackAfter? (pixelBytes wanted : Nat) (bytes : ByteArray) :
    (fuel start : Nat) → ByteArray → Option ByteArray
  | 0, _, _ => none
  | fuel + 1, start, done =>
    if wanted ≤ done.size then some done
    else if h : start < bytes.size then
      let head := bytes[start].toNat
      let room := wanted - done.size
      if 128 ≤ head then
        (slice? bytes (start + 1) pixelBytes).bind fun pixel =>
          let count := min (head - 127) (room / pixelBytes)
          let done := (List.range count).foldl (fun done _ => done ++ pixel) done
          unpackAfter? pixelBytes wanted bytes fuel (start + 1 + pixelBytes) done
      else
        let length := min ((head + 1) * pixelBytes) room
        (slice? bytes (start + 1) length).bind fun pixels =>
          unpackAfter? pixelBytes wanted bytes fuel (start + 1 + length) (done ++ pixels)
    else none

/-- The bytes of the pixels of a file, in the order in which they come. -/
def Header.pixels? (h : Header) (bytes : ByteArray) : Option ByteArray :=
  let wanted := h.extent.area * h.pixelBytes
  if bytes.size < h.pixelStart then none
  else if h.isPacked then
    unpackAfter? h.pixelBytes wanted bytes (bytes.size + 1) h.pixelStart .empty
  else slice? bytes h.pixelStart wanted

/-- The place of the pixel that is shown in column `x` of row `y`. -/
def Header.place (h : Header) (x y : Nat) : Nat :=
  let width := h.extent.width.toNat
  let height := h.extent.height.toNat
  let x := if h.fromRight then width - 1 - x else x
  let y := if h.fromTop then y else height - 1 - y
  y * width + x

/-- The place of a colour in the table, if it is there. -/
def Header.colour? (h : Header) (index : Nat) : Option Nat :=
  if h.firstColour ≤ index ∧ index < h.firstColour + h.colourCount then
    some (h.tableStart + h.colourBytes * (index - h.firstColour))
  else none

/-- The image of pixels that are numbers of colours. -/
def Header.indexedImage? (h : Header) (c : Colouring) (bytes pixels : ByteArray) : Option Image :=
  let index (i : Nat) : Nat := ByteOrder.lowFirst.number pixels (h.pixelBytes * i) h.pixelBytes
  if (List.range h.extent.area).all fun i => (h.colour? (index i)).isSome then
    some (Image.tabulate h.extent fun x y =>
      c.pixel bytes ((h.colour? (index (h.place x y))).getD 0))
  else none

/-! ## 4. Files -/

/-- The image in a file. What is behind its pixels does not matter. -/
def decode? (bytes : ByteArray) : Option Image :=
  (Header.read? bytes).bind fun h =>
    if h.isSound then
      h.colouring?.bind fun c =>
        if isAllowed h.extent c.samples then
          (h.pixels? bytes).bind fun pixels =>
            if h.isIndexed then h.indexedImage? c bytes pixels
            else
              some (Image.tabulate h.extent fun x y =>
                c.pixel pixels (h.pixelBytes * h.place x y))
        else none
    else none

end Relief.Picture.Targa
