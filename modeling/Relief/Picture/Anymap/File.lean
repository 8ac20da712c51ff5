import Relief.Number.Whole
import Relief.Picture.Anymap.Header
import Relief.Picture.Bytes

/-!
# Portable any maps

Behind the header of a portable any map there are its samples, row by row and pixel by pixel.

* `Header.samples?`: the samples behind a header, and nothing if there are too few of them or if
  one is above the limit;
* `Header.level`: a sample in eight bits;
* `decode?`: the image in a file.
-/

namespace Relief.Picture.Anymap

/-! ## 1. Samples -/

/-- So many digits as samples, after those that are there already. -/
def marksAfter? (samples : Array Nat) : (count : Nat) → List UInt8 → Option (Array Nat)
  | 0, _ => some samples
  | _ + 1, [] => none
  | count + 1, b :: rest =>
    let c := Char.ofUInt8 b
    if isBlank c then marksAfter? samples (count + 1) rest
    else if c = '0' then marksAfter? (samples.push 1) count rest
    else if c = '1' then marksAfter? (samples.push 0) count rest
    else none

/-- So many numbers as samples, after those that are there already. -/
def numbersAfter? (limit : Nat) (samples : Array Nat) :
    (count : Nat) → List UInt8 → Option (Array Nat)
  | 0, _ => some samples
  | count + 1, bytes =>
    let blank (b : UInt8) : Bool := isBlank (Char.ofUInt8 b)
    let (word, rest) := (bytes.dropWhile blank).span fun b => !blank b
    (readDigits? (word.map Char.ofUInt8)).bind fun n =>
      if n ≤ limit then numbersAfter? limit (samples.push n) count rest else none

/-- The first so many bytes, if there are so many. -/
def firstBytes? (count : Nat) (bytes : List UInt8) : Option ByteArray :=
  let first := (bytes.take count).toArray
  if first.size = count then some ⟨first⟩ else none

/-- The samples of an extent, one to a bit. -/
def bits? (e : Extent) (bytes : List UInt8) : Option (Array Nat) :=
  let width := e.width.toNat
  let row := (width + 7) / 8
  (firstBytes? (row * e.height.toNat) bytes).map fun packed =>
    Array.ofFn fun i : Fin e.area =>
      let x := i.val % width
      1 - (byteAt packed (i.val / width * row + x / 8)).toNat / 2 ^ (7 - x % 8) % 2

/-- So many samples in one byte or two each. -/
def bytes? (depth : Depth) (count : Nat) (bytes : List UInt8) : Option (Array Nat) :=
  (firstBytes? (depth.bytes * count) bytes).map fun packed =>
    Array.ofFn fun i : Fin count =>
      ByteOrder.highFirst.number packed (depth.bytes * i.val) depth.bytes

/-- The samples of a file, given the bytes behind its header. -/
def Header.samples? (h : Header) (bytes : List UInt8) : Option (Array Nat) :=
  let count := h.extent.area * h.channels.count
  let samples := match h.script with
    | .marks => marksAfter? #[] count bytes
    | .numbers => numbersAfter? h.limit #[] count bytes
    | .bits => bits? h.extent bytes
    | .bytes => bytes? h.depth count bytes
  samples.filter fun samples => samples.all fun v => v ≤ h.limit

/-! ## 2. Pixels -/

/-- A sample spread from what stands for full light to all of its depth, in single precision. -/
def Header.spread (h : Header) (v : Nat) : Nat :=
  if h.greatest.toNat = h.depth.full then v
  else
    let factor := h.depth.full.toUInt32.toFloat32 / h.greatest.toFloat32
    (Single.toInt 0 h.depth.full (Single.round (v.toUInt32.toFloat32 * factor))).toNat

/-- A sample in eight bits. -/
def Header.level (h : Header) (v : Nat) : UInt8 :=
  match h.depth with
  | .one => (h.spread v).toUInt8
  | .two => levelOfWord (h.spread v)

/-- The image of a file's samples. -/
def Header.image (h : Header) (samples : Array Nat) : Image :=
  let levels := samples.map h.level
  h.channels.image h.extent fun i => levels[i]?.getD 0

/-- The image in a file. What is behind its samples does not matter. -/
def decode? (bytes : ByteArray) : Option Image :=
  (Header.read? bytes.toList).bind fun (h, rest) =>
    if isAllowed h.extent (h.channels.count * h.depth.bytes) then (h.samples? rest).map h.image
    else none

end Relief.Picture.Anymap
