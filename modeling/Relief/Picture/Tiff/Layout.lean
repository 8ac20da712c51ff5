import Relief.Picture.Channels
import Relief.Picture.Tiff.Directory

/-!
# Layouts of tagged files

What the entries of a directory say of the pixels: their extent, what their samples are, how they
are compressed, and where the strips of rows or the tiles are that they come in.

* `Colouring`: what the samples of a pixel mean, with their bits;
* `Layout.ofDirectory?`: the layout that a directory describes.
-/

namespace Relief.Picture.Tiff

/-! ## 1. Samples -/

/-- What the samples of a pixel mean. -/
inductive Colouring where
  | grey
  /-- Grey levels that count from white. -/
  | inverseGrey
  | rgb
  | rgba
  /-- Cyan, magenta, yellow and black ink. -/
  | inks
  deriving DecidableEq, Repr

namespace Colouring

/-- How many samples a pixel has. -/
def samples : Colouring → Nat
  | grey | inverseGrey => 1
  | rgb => 3
  | rgba | inks => 4

/-- What the samples mean that two numbers of a directory tell of. -/
def ofNumbers? (meaning samples : Nat) : Option Colouring :=
  match meaning, samples with
  | 0, 1 => some inverseGrey
  | 1, 1 => some grey
  | 2, 3 => some rgb
  | 2, 4 => some rgba
  | 5, 4 => some inks
  | _, _ => none

/-- Whether samples may have so many bits. -/
def admits (c : Colouring) (bits : Nat) : Bool :=
  match c with
  | grey | inverseGrey => bits ∈ [1, 8, 16]
  | rgb | rgba => bits ∈ [8, 16, 32]
  | inks => bits ∈ [8, 16]

/-- The bytes of a pixel once it has been read. -/
def pixelBytes (c : Colouring) (bits : Nat) : Nat :=
  (match c with
    | grey | inverseGrey => 1
    | rgb | inks => 3
    | rgba => 4) * ((bits + 7) / 8)

end Colouring

/-! ## 2. Compression -/

/-- How the bytes of a strip or a tile are compressed. -/
inductive Compression where
  | none
  /-- With a dictionary that grows. -/
  | dictionary
  /-- With prefix codes. -/
  | deflated
  /-- In runs of bytes that are alike, or not. -/
  | packets
  deriving DecidableEq, Repr

/-- How bytes are compressed that a number tells of. -/
def Compression.ofNumber? (number : Nat) : Option Compression :=
  match number with
  | 1 => some none
  | 5 => some dictionary
  | 8 | 32946 => some deflated
  | 32773 => some packets
  | _ => Option.none

/-! ## 3. Layouts -/

/-- A strip or a tile: where it is, and how many bytes it has there. -/
structure Piece where
  start : Nat
  length : Nat

/-- What a directory says of the pixels. -/
structure Layout where
  extent : Extent
  colouring : Colouring
  /-- The bits of a sample. -/
  bits : Nat
  compression : Compression
  /-- Whether a sample is written as what it is more than the one of the pixel before. -/
  isDifference : Bool
  /-- The columns and rows of a piece. The pieces at the right end and at the bottom may have more
      than the image. -/
  columns : Nat
  rows : Nat
  pieces : Array Piece

namespace Layout

/-- How many pieces there are in a row. -/
def across (l : Layout) : Nat :=
  (l.extent.width.toNat + l.columns - 1) / l.columns

/-- The bytes of a row of so many pixels. -/
def rowBytes (l : Layout) (width : Nat) : Nat :=
  (width * l.bits * l.colouring.samples + 7) / 8

/-- The pieces that two entries of a directory tell of. -/
def pieces? (d : Directory) (places lengths : Nat) : Option (Array Piece) :=
  match d.numbers? places none, d.numbers? lengths none with
  | some starts, some lengths =>
    if starts.length = lengths.length then some (List.zipWith Piece.mk starts lengths).toArray
    else none
  | _, _ => none

/-- The columns and rows of a piece, and the pieces: strips of rows, or tiles. -/
def grid? (d : Directory) (e : Extent) : Option (Nat × Nat × Array Piece) :=
  match d.has 279, d.has 273, d.has 325, d.has 324 with
  | true, true, false, false =>
    (d.number? 278 (2 ^ 32) (some e.height.toNat)).bind fun rows =>
      (pieces? d 273 279).map fun pieces => (e.width.toNat, rows, pieces)
  | false, false, true, true =>
    (d.number? 322 (2 ^ 32) none).bind fun columns =>
      (d.number? 323 (2 ^ 32) none).bind fun rows =>
        (pieces? d 324 325).map fun pieces => (columns, rows, pieces)
  | _, _, _, _ => none

/-- The bits of all samples, which must be alike. One number may stand for all. -/
def bits? (d : Directory) (samples : Nat) : Option Nat :=
  (d.numbers? 258 (some [1])).bind fun all =>
    match all with
    | [] => none
    | bits :: rest =>
      if (all.length = samples ∨ rest.isEmpty) ∧ rest.all (· = bits) then some bits else none

/-- Whether the samples are numbers of the kind that fits their bits: natural ones, or of single
    precision in 32 bits. -/
def hasFormat (d : Directory) (bits : Nat) : Bool :=
  match d.numbers? 339 (some []) with
  | none => false
  | some formats => formats.all fun f => (f = 1 && bits ≤ 16) || (f = 3 && bits = 32)

/-- The layout that a directory describes. -/
def ofDirectory? (d : Directory) : Option Layout :=
  let word (tag : Nat) (default : Option Nat) : Option Nat := d.number? tag (2 ^ 16) default
  let long (tag : Nat) (default : Option Nat) : Option Nat := d.number? tag (2 ^ 32) default
  match long 256 none, long 257 none, word 262 none, word 277 (some 1), word 259 (some 1),
    word 317 (some 1), word 284 (some 1) with
  | some width, some height, some meaning, some samples, some compression, some predictor,
    some planes =>
    let e : Extent := ⟨width.toUInt32, height.toUInt32⟩
    match Colouring.ofNumbers? meaning samples, bits? d samples,
      Compression.ofNumber? compression, grid? d e with
    | some colouring, some bits, some compression, some (columns, rows, pieces) =>
      let l : Layout := {
        extent := e
        colouring
        bits
        compression
        isDifference := predictor = 2
        columns
        rows
        pieces }
      if e.isEmpty ∨ !colouring.admits bits ∨ !hasFormat d bits ∨ columns = 0 ∨ rows = 0
          ∨ predictor ∉ [1, 2] ∨ planes ≠ 1
          ∨ (predictor = 2 ∧ bits < 8) then none
      else if pieces.size ≠ l.across * ((height + rows - 1) / rows) then none
      -- a piece must not begin within a byte of a row
      else if 1 < l.across ∧ columns * bits * samples % 8 ≠ 0 then none
      else some l
    | _, _, _, _ => none
  | _, _, _, _, _, _, _ => none

end Layout

end Relief.Picture.Tiff
