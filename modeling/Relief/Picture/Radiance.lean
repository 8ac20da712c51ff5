import Relief.Number.Decimal
import Relief.Picture.Channels
import Relief.Picture.Words

/-!
# Radiance pictures

A picture begins with lines of text that set what is to be known of it, and one that gives its
height and width. Its pixels have three channels with a common power of two; a row may be shortened
by telling how often something comes again.

* `header?`: the extent of a picture, and the bytes behind it;
* `row?`: the next row of pixels;
* `decode?`: the image in a picture, where a channel of one and above is full light.
-/

namespace Relief.Picture.Radiance

/-! ## 1. Headers -/

/-- The bytes that every picture begins with. -/
def signature : List UInt8 :=
  "#?RADIANCE".toUTF8.data.toList

/-- The text of some bytes. If they are no text, a mark stands for each byte that is no letter of
    its own. -/
def textOf (bytes : List UInt8) : List Char :=
  match String.fromUTF8? ⟨bytes.toArray⟩ with
  | some text => text.toList
  | none => bytes.map fun b => if b < 128 then Char.ofUInt8 b else '\uFFFD'

/-- The text up to the end of a line, and the bytes behind it; none if there are no bytes. -/
def line? (bytes : List UInt8) : Option (List Char × List UInt8) :=
  if bytes.isEmpty then none
  else
    let (line, rest) := bytes.span (· ≠ '\n'.toUInt8)
    some (textOf line, rest.drop 1)

/-- The texts in front of the first equals sign and behind it, if there is something on both
    sides. -/
def setting? (line : List Char) : Option (List Char × List Char) :=
  match line.span (· ≠ '=') with
  | (name@(_ :: _), _ :: value@(_ :: _)) => some (trim name, value)
  | _ => none

/-- Whether a line sets only what can be. The format must be the one with red, green and blue, and
    what is a number must read as one. -/
def isSound (line : List Char) : Bool :=
  match setting? line with
  | none => true
  | some (name, value) =>
    match String.ofList name with
    | "FORMAT" => String.ofList (trim value) = "32-bit_rle_rgbe"
    | "EXPOSURE" | "PIXASPECT" => (readSingle? (trim value)).isSome
    | "COLORCORR" =>
      let numbers := words value
      numbers.length = 3 && numbers.all fun word => (readSingle? word).isSome
    | _ => true

/-- The bytes behind the empty line that ends the settings, trying so many lines. -/
def behindSettings? : (fuel : Nat) → List UInt8 → Option (List UInt8)
  | 0, _ => none
  | fuel + 1, bytes =>
    (line? bytes).bind fun (line, rest) =>
      match line with
      | [] => some rest
      | c :: _ => if c = '#' || isSound line then behindSettings? fuel rest else none

/-- A side of the picture. -/
def side? (word : List Char) : Option UInt32 :=
  (readNat? word).bind fun n => if n < 2 ^ 32 then some n.toUInt32 else none

/-- The extent that a line gives, for rows from the top with pixels from the left. -/
def extent? (line : List Char) : Option Extent :=
  match words line with
  | [['-', 'Y'], height, ['+', 'X'], width] =>
    match side? width, side? height with
    | some width, some height => some ⟨width, height⟩
    | _, _ => none
  | _ => none

/-- The extent of a picture, and the bytes behind its header. -/
def header? (bytes : List UInt8) : Option (Extent × List UInt8) :=
  if bytes.take signature.length = signature then
    let bytes := bytes.drop signature.length
    let rest := ((line? bytes).map fun (_, rest) => rest).getD []
    (behindSettings? bytes.length rest).bind fun rest =>
      (line? rest).bind fun (line, rest) => (extent? line).map fun e => (e, rest)
  else none

/-! ## 2. Rows -/

/-- Three channels with a common power of two. -/
structure Light where
  red : UInt8
  green : UInt8
  blue : UInt8
  exponent : UInt8
  deriving DecidableEq, Inhabited, Repr

/-- The next light. -/
def light? : List UInt8 → Option (Light × List UInt8)
  | r :: g :: b :: e :: rest => some (⟨r, g, b, e⟩, rest)
  | _ => none

/-- So many bytes after those that are there already, from runs. A count up to 128 comes before as
    many bytes, and one above before a byte that comes as often as the count is above 128. -/
def runsAfter? (width : Nat) : (fuel : Nat) → Array UInt8 → List UInt8 →
    Option (Array UInt8 × List UInt8)
  | 0, _, _ => none
  | fuel + 1, done, bytes =>
    if done.size = width then some (done, bytes)
    else
      match bytes with
      | [] => none
      | count :: bytes =>
        let count := count.toNat
        if count ≤ 128 then
          if width < done.size + count ∨ (bytes.take count).length < count then none
          else runsAfter? width fuel (done ++ bytes.take count) (bytes.drop count)
        else
          match bytes with
          | [] => none
          | b :: bytes =>
            if width < done.size + (count - 128) then none
            else runsAfter? width fuel (done ++ Array.replicate (count - 128) b) bytes

/-- A row whose channels come one after the other. -/
def channels? (width : Nat) (bytes : List UInt8) : Option (Array Light × List UInt8) :=
  let next? (bytes : List UInt8) := runsAfter? width (bytes.length + 1) #[] bytes
  (next? bytes).bind fun (red, bytes) =>
    (next? bytes).bind fun (green, bytes) =>
      (next? bytes).bind fun (blue, bytes) =>
        (next? bytes).map fun (exponent, bytes) =>
          let light (i : Fin width) : Light :=
            ⟨red[i.val]?.getD 0, green[i.val]?.getD 0, blue[i.val]?.getD 0, exponent[i.val]?.getD 0⟩
          (Array.ofFn light, bytes)

/-- So many lights after those that are there already, the last of which is given. A light whose
    channels are all one says how often the last one comes again; further such lights count
    hundreds, to the base 256, until a machine word cannot hold their weight. -/
def lightsAfter? (width : Nat) : (fuel weight : Nat) → (last : Light) → Array Light →
    List UInt8 → Option (Array Light × List UInt8)
  | 0, _, _, _, _ => none
  | fuel + 1, weight, last, done, bytes =>
    if done.size = width then some (done, bytes)
    else
      (light? bytes).bind fun (l, bytes) =>
        if l.red = 1 ∧ l.green = 1 ∧ l.blue = 1 then
          let times := l.exponent.toNat * weight
          if width < done.size + times then none
          else
            lightsAfter? width fuel (256 * weight % 2 ^ 64) last
              (done ++ Array.replicate times last) bytes
        else lightsAfter? width fuel 1 l (done.push l) bytes

/-- The next row. A light that begins with two and two and a small number says that the channels
    come one after the other. -/
def row? (width : Nat) (bytes : List UInt8) : Option (Array Light × List UInt8) :=
  (light? bytes).bind fun (first, rest) =>
    if first.red = 2 ∧ first.green = 2 ∧ first.blue < 128 then channels? width rest
    else if first.red = 1 ∧ first.green = 1 ∧ first.blue = 1 then none
    else lightsAfter? width (rest.length + 1) 1 first #[first] rest

/-- So many rows after those that are there already. -/
def rowsAfter? (width : Nat) (done : Array Light) : (count : Nat) → List UInt8 →
    Option (Array Light)
  | 0, _ => some done
  | count + 1, bytes =>
    (row? width bytes).bind fun (row, bytes) => rowsAfter? width (done ++ row) count bytes

/-! ## 3. Images -/

/-- A channel in eight bits: the nearest multiple of `1/255`, a half going up. The channel counts
    in units of `2 ^ (exponent - 136)`, and nothing has a power of zero. -/
def level (channel exponent : UInt8) : UInt8 :=
  if exponent = 0 ∨ channel = 0 then 0
  else if 136 ≤ exponent then 255
  else
    let unit := 2 ^ (136 - exponent.toNat)
    (min 255 ((2 * 255 * channel.toNat + unit) / (2 * unit))).toUInt8

/-- The pixel of a light. -/
def Light.pixel (l : Light) : Pixel :=
  ⟨level l.red l.exponent, level l.green l.exponent, level l.blue l.exponent, 255⟩

/-- The image in a picture. What is behind its rows does not matter. Its lights are held in four
    bytes for each of their channels. -/
def decode? (bytes : ByteArray) : Option Image :=
  (header? bytes.toList).bind fun (e, rest) =>
    if isAllowed e 12 then
      let rows := if e.isEmpty then 0 else e.height.toNat
      (rowsAfter? e.width.toNat #[] rows rest).bind fun lights =>
        (Image.ofPixels? e (lights.map Light.pixel)).toOption
    else none

end Relief.Picture.Radiance
