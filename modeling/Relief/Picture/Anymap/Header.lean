import Relief.Number.Decimal
import Relief.Picture.Channels
import Relief.Picture.Words

/-!
# Headers of portable any maps

A portable any map begins with the letter P and a digit that tells how its samples are written. In
six of the seven kinds a few numbers follow, with comments among them; in the seventh, lines that
each name what they set.

* `Header`: what a file says of its samples;
* `Header.read?`: the header that bytes begin with, and the bytes behind it.
-/

namespace Relief.Picture.Anymap

/-! ## 1. What a header says -/

/-- How samples are written. -/
inductive Script where
  /-- A digit each, 1 for black and 0 for white. -/
  | marks
  /-- Decimal numbers with blanks between them. -/
  | numbers
  /-- Eight to a byte, the highest bit first, 1 for black and 0 for white. Each row begins with a
      byte of its own. -/
  | bits
  /-- A byte each, or two, the high one first. -/
  | bytes
  deriving DecidableEq, Repr

/-- How many bytes a sample takes. -/
inductive Depth where
  | one
  | two
  deriving DecidableEq, Repr

namespace Depth

/-- The number of bytes. -/
def bytes : Depth → Nat
  | one => 1
  | two => 2

/-- The greatest sample in so many bytes. -/
def full : Depth → Nat
  | one => 255
  | two => 65535

/-- The depth for samples up to a greatest one, if there is one. -/
def upTo? (greatest : UInt32) : Option Depth :=
  if greatest = 0 then none
  else if greatest ≤ 255 then some one
  else if greatest ≤ 65535 then some two
  else none

end Depth

/-- What a file says of its samples. -/
structure Header where
  extent : Extent
  channels : Channels
  script : Script
  depth : Depth
  /-- The sample that stands for full light. -/
  greatest : UInt32
  /-- Samples above this one are refused. -/
  limit : Nat

/-- The header of a file whose samples may use all of their depth. -/
def Header.unlimited (extent : Extent) (channels : Channels) (script : Script) (depth : Depth)
    (greatest : UInt32) : Header :=
  { extent, channels, script, depth, greatest, limit := depth.full }

/-- The header of a file whose samples are black or white. -/
def Header.blackAndWhite (extent : Extent) (channels : Channels) (script : Script) : Header :=
  { extent, channels, script, depth := .one, greatest := 1, limit := 1 }

/-! ## 2. Words and numbers -/

/-- The next word, and the bytes behind the blank that ends it. A comment goes from a number sign
    to the end of its line; all of it counts for nothing, not even for a blank. -/
def wordAfter? (inComment : Bool) (word : List Char) : List UInt8 → Option (List Char × List UInt8)
  | [] => if word.isEmpty then none else some (word.reverse, [])
  | b :: rest =>
    let c := Char.ofUInt8 b
    if inComment then wordAfter? (c ≠ '\n' && c ≠ '\r') word rest
    else if c = '#' then wordAfter? true word rest
    else if isBlank c then
      if word.isEmpty then wordAfter? false word rest else some (word.reverse, rest)
    else if b < 128 then wordAfter? false (c :: word) rest
    else none

/-- A number, if a machine word of 32 bits can hold it. -/
def held? (n : Nat) : Option UInt32 :=
  if n < 2 ^ 32 then some n.toUInt32 else none

/-- The next number, which is written in digits, and the bytes behind it. -/
def nextNumber? (bytes : List UInt8) : Option (UInt32 × List UInt8) :=
  (wordAfter? false [] bytes).bind fun (word, rest) =>
    ((readDigits? word).bind held?).map fun n => (n, rest)

/-- The next two numbers as an extent. -/
def nextExtent? (bytes : List UInt8) : Option (Extent × List UInt8) :=
  (nextNumber? bytes).bind fun (width, bytes) =>
    (nextNumber? bytes).map fun (height, bytes) => (⟨width, height⟩, bytes)

/-- The header of a file in black and white. -/
def Header.readBitmap? (script : Script) (bytes : List UInt8) : Option (Header × List UInt8) :=
  (nextExtent? bytes).map fun (extent, bytes) => (.blackAndWhite extent .grey script, bytes)

/-- The header of a file in grey or in colours. -/
def Header.readMap? (channels : Channels) (script : Script) (bytes : List UInt8) :
    Option (Header × List UInt8) :=
  (nextExtent? bytes).bind fun (extent, bytes) =>
    (nextNumber? bytes).bind fun (greatest, bytes) =>
      (Depth.upTo? greatest).map fun depth =>
        (.unlimited extent channels script depth greatest, bytes)

/-! ## 3. Lines that set something -/

/-- What the lines so far have set. -/
structure Settings where
  width : Option UInt32 := none
  height : Option UInt32 := none
  /-- How many samples a pixel has. -/
  count : Option UInt32 := none
  greatest : Option UInt32 := none
  /-- What the samples mean. -/
  meaning : Option (List Char) := none

namespace Settings

/-- A number that may be set only once. It may have a plus sign in front. -/
def once? (before : Option UInt32) (value : List Char) : Option (Option UInt32) :=
  match before with
  | some _ => none
  | none => ((readNat? value).bind held?).map some

/-- What a line sets. Lines that set the meaning add words to it. -/
def set? (s : Settings) (name value : List Char) : Option Settings :=
  match String.ofList name with
  | "WIDTH" => (once? s.width value).map fun n => { s with width := n }
  | "HEIGHT" => (once? s.height value).map fun n => { s with height := n }
  | "DEPTH" => (once? s.count value).map fun n => { s with count := n }
  | "MAXVAL" => (once? s.greatest value).map fun n => { s with greatest := n }
  | "TUPLTYPE" =>
    let meaning := match s.meaning with
      | none => value
      | some before => before ++ ' ' :: value
    some { s with meaning := some meaning }
  | _ => none

/-- What is set after a line, and whether the line is the last one. -/
def line? (s : Settings) (line : List UInt8) : Option (Settings × Bool) :=
  (String.fromUTF8? ⟨line.toArray⟩).bind fun text =>
    if text.startsWith "#" then some (s, false)
    else if text.toList.all fun c => c.toNat < 128 then
      let (name, value) := text.toList.span fun c => !isBlank c
      if String.ofList name = "ENDHDR" then some (s, true)
      else (s.set? name (trim value)).map fun s => (s, false)
    else none

/-- What is set by all lines, and the bytes behind the last of them. The line that has been begun
    is given with its last byte first. -/
def readAfter? (s : Settings) (line : List UInt8) : List UInt8 → Option (Settings × List UInt8)
  | [] =>
    match s.line? line.reverse with
    | some (s, true) => some (s, [])
    | _ => none
  | b :: rest =>
    if b = '\n'.toUInt8 then
      match s.line? line.reverse with
      | some (s, true) => some (s, rest)
      | some (s, false) => readAfter? s [] rest
      | none => none
    else readAfter? s (b :: line) rest

/-- The header with settings. Without a meaning there is a byte to each sample, and the number of
    samples tells what they mean. Grey pixels of no sample have one of two bytes. -/
def header? (s : Settings) : Option Header :=
  match s.width, s.height, s.count, s.greatest with
  | some width, some height, some count, some greatest =>
    let extent : Extent := ⟨width, height⟩
    let as (channels : Channels) (depth : Depth) : Header :=
      .unlimited extent channels .bytes depth greatest
    let measured (channels : Channels) : Option Header :=
      if count.toNat = channels.count then (Depth.upTo? greatest).map (as channels) else none
    let flags (channels : Channels) : Option Header :=
      if count.toNat = channels.count ∧ greatest = 1 then
        some (.blackAndWhite extent channels .bytes)
      else none
    if greatest = 0 then none
    else
      match s.meaning.map String.ofList, count with
      | none, 1 => some (as .grey .one)
      | none, 2 => some (as .greyAlpha .one)
      | none, 3 => some (as .rgb .one)
      | none, 4 => some (as .rgba .one)
      | some "BLACKANDWHITE", _ => flags .grey
      | some "BLACKANDWHITE_ALPHA", _ => flags .greyAlpha
      | some "GRAYSCALE", 0 => (Depth.upTo? greatest).map fun _ => as .grey .two
      | some "GRAYSCALE", _ => measured .grey
      | some "GRAYSCALE_ALPHA", _ => measured .greyAlpha
      | some "RGB", _ => measured .rgb
      | some "RGB_ALPHA", _ => measured .rgba
      | _, _ => none
  | _, _, _, _ => none

end Settings

/-- The header of a file in lines. -/
def Header.readLines? (bytes : List UInt8) : Option (Header × List UInt8) :=
  match bytes with
  | b :: bytes =>
    if b = '\n'.toUInt8 then
      (Settings.readAfter? {} [] bytes).bind fun (s, bytes) => s.header?.map fun h => (h, bytes)
    else none
  | [] => none

/-! ## 4. All kinds -/

/-- The header that bytes begin with, and the bytes behind it. -/
def Header.read? (bytes : List UInt8) : Option (Header × List UInt8) :=
  match bytes with
  | letter :: digit :: bytes =>
    match Char.ofUInt8 letter, Char.ofUInt8 digit with
    | 'P', '1' => readBitmap? .marks bytes
    | 'P', '2' => readMap? .grey .numbers bytes
    | 'P', '3' => readMap? .rgb .numbers bytes
    | 'P', '4' => readBitmap? .bits bytes
    | 'P', '5' => readMap? .grey .bytes bytes
    | 'P', '6' => readMap? .rgb .bytes bytes
    | 'P', '7' => readLines? bytes
    | _, _ => none
  | _ => none

end Relief.Picture.Anymap
