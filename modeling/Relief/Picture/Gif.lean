import Relief.Picture.Channels
import Relief.Picture.Lzw

/-!
# Pictures on a screen

A file describes a screen and then what is drawn onto it, in blocks. Only what is drawn first is
shown. Its pixels are numbers of colours, compressed with a dictionary that grows.

* `Screen.read?`: the screen that a file describes;
* `frame?`: what is drawn onto it first;
* `decode?`: the image in a file.
-/

namespace Relief.Picture.Gif

/-! ## 1. Tables of colours -/

/-- Colours at a place, three bytes each. -/
structure Table where
  start : Nat
  count : Nat

namespace Table

/-- The table that flags tell of, if they do. -/
def ofFlags? (flags start : Nat) : Option Table :=
  if 128 ≤ flags then some ⟨start, 2 ^ (flags % 8 + 1)⟩ else none

/-- Where the bytes behind a table begin, if there is one. -/
def behind (t : Option Table) (start : Nat) : Nat :=
  match t with
  | some t => t.start + 3 * t.count
  | none => start

/-- The pixel with the number of a colour; none of it is there if there is no such colour. -/
def pixel (t : Table) (bytes : ByteArray) (clear : Option Nat) (index : Nat) : Pixel :=
  if index < t.count then
    let byte (k : Nat) : UInt8 := byteAt bytes (t.start + 3 * index + k)
    ⟨byte 0, byte 1, byte 2, if clear = some index then 0 else 255⟩
  else ⟨0, 0, 0, 0⟩

end Table

/-! ## 2. Blocks -/

/-- What a file is drawn onto. -/
structure Screen where
  extent : Extent
  table : Option Table
  /-- Where the blocks begin. -/
  behind : Nat

/-- The screen that a file describes. -/
def Screen.read? (bytes : ByteArray) : Option Screen :=
  let word (i : Nat) : Nat := ByteOrder.lowFirst.number bytes i 2
  let table := Table.ofFlags? (byteAt bytes 10).toNat 13
  let behind := Table.behind table 13
  match String.fromUTF8? (bytes.extract 0 6) with
  | some "GIF87a" | some "GIF89a" =>
    if behind ≤ bytes.size then
      some ⟨⟨(word 6).toUInt32, (word 8).toUInt32⟩, table, behind⟩
    else none
  | _ => none

/-- The data of a row of pieces, each behind its length, to the one of length zero. The last one
    may be cut off. Answers where the bytes behind them begin. -/
def pieces (bytes : ByteArray) : (fuel start : Nat) → ByteArray → ByteArray × Nat
  | 0, start, data => (data, start)
  | fuel + 1, start, data =>
    let length := (byteAt bytes start).toNat
    if length = 0 then (data, start + 1)
    else
      pieces bytes fuel (start + 1 + length)
        (data ++ bytes.extract (start + 1) (start + 1 + length))

/-- Something that is drawn. -/
structure Frame where
  left : Nat
  top : Nat
  width : Nat
  height : Nat
  table : Table
  /-- The number of the colour that is not there. -/
  clear : Option Nat
  /-- Whether the rows come in four passes. -/
  isInterlaced : Bool
  /-- The bits of a number of a colour. -/
  bits : Nat
  data : ByteArray

/-- The frame at a place. -/
def Frame.read? (bytes : ByteArray) (screen : Screen) (clear : Option Nat) (start : Nat) :
    Option Frame :=
  let word (i : Nat) : Nat := ByteOrder.lowFirst.number bytes (start + i) 2
  let flags := (byteAt bytes (start + 8)).toNat
  let own := Table.ofFlags? flags (start + 9)
  let behind := Table.behind own (start + 9)
  (own <|> screen.table).bind fun table =>
    let bits := (byteAt bytes behind).toNat
    if behind < bytes.size ∧ 0 < bits ∧ bits < 12 then
      some {
        left := word 0
        top := word 2
        width := word 4
        height := word 6
        table
        clear
        isInterlaced := flags / 64 % 2 = 1
        bits
        data := (pieces bytes bytes.size (behind + 1) .empty).1 }
    else none

/-- The first frame, in blocks from a place on. A block may tell which colour is not there. -/
def frameFrom? (bytes : ByteArray) (screen : Screen) :
    (fuel start : Nat) → (clear : Option Nat) → Option Frame
  | 0, _, _ => none
  | fuel + 1, start, clear =>
    match (byteAt bytes start).toNat with
    | 0x2C => Frame.read? bytes screen clear (start + 1)
    | 0x21 =>
      let (data, behind) := pieces bytes bytes.size (start + 2) .empty
      if bytes.size < behind then none
      else if byteAt bytes (start + 1) = 0xF9 then
        if data.size = 4 then
          let flags := (byteAt data 0).toNat
          frameFrom? bytes screen fuel behind
            (if flags % 2 = 1 then some (byteAt data 3).toNat else none)
        else none
      else frameFrom? bytes screen fuel behind clear
    | _ => none

/-! ## 3. Pixels -/

/-- The rows of a picture of a height in the order in which they come. -/
def Frame.rowOrder (f : Frame) : List Nat :=
  if f.isInterlaced then
    let pass (first step : Nat) : List Nat :=
      (List.range f.height).filter fun y => first ≤ y && (y - first) % step = 0
    pass 0 8 ++ pass 4 8 ++ pass 2 4 ++ pass 1 2
  else List.range f.height

/-- Whether a frame has pixels. One that comes in passes may also have no rows. -/
def Frame.isFilled (f : Frame) : Bool :=
  f.width * f.height ≠ 0 || (f.isInterlaced && f.height = 0)

/-- The image of a frame on a screen. -/
def Frame.image? (f : Frame) (bytes : ByteArray) (screen : Extent) : Option Image :=
  let unpacked := if f.isFilled then
    Lzw.expand? ⟨.lowFirst, f.bits, false⟩ (f.width * f.height) f.data else none
  unpacked.map fun indices =>
    let places := f.rowOrder.zipIdx.foldl (fun places (y, i) => places.setIfInBounds y i)
      (Array.replicate f.height 0)
    Image.tabulate screen fun x y =>
      if f.left ≤ x ∧ x < f.left + f.width ∧ f.top ≤ y ∧ y < f.top + f.height then
        let row := places[y - f.top]?.getD 0
        f.table.pixel bytes f.clear (byteAt indices (row * f.width + (x - f.left))).toNat
      else ⟨0, 0, 0, 0⟩

/-- The image in a file: what is drawn first, on an empty screen. -/
def decode? (bytes : ByteArray) : Option Image :=
  (Screen.read? bytes).bind fun screen =>
    if isAllowed screen.extent 4 then
      (frameFrom? bytes screen bytes.size screen.behind none).bind fun f =>
        f.image? bytes screen.extent
    else none

end Relief.Picture.Gif
