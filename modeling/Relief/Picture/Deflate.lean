import Relief.Picture.Bytes
import Relief.Picture.Checksum

/-!
# Inflating

Compressed data are a row of blocks. A block holds bytes as they are, or symbols in a prefix code:
a symbol is a byte, or stands for a run of bytes that has been there before, a given distance back.

* `Bits`: bytes read bit by bit, the lowest bit of each byte first;
* `Code`: the canonical prefix code with given lengths of its words;
* `inflate?`: the bytes that data were made of; `unwrap?` does that for data in their usual
  wrapping, and `wrap` wraps bytes without compressing them.
-/

namespace Relief.Picture.Deflate

/-! ## 1. Bits -/

/-- Bytes, and how many bits of them have been read. -/
structure Bits where
  bytes : ByteArray
  read : Nat

namespace Bits

/-- The next bit. -/
def next? (b : Bits) : Option (Nat × Bits) :=
  if h : b.read / 8 < b.bytes.size then
    some (b.bytes[b.read / 8].toNat / 2 ^ (b.read % 8) % 2, { b with read := b.read + 1 })
  else none

/-- The number written by the next `n` bits, the lowest first. -/
def number? : (n : Nat) → Bits → Option (Nat × Bits)
  | 0, b => some (0, b)
  | n + 1, b =>
    b.next?.bind fun (low, b) => (number? n b).map fun (high, b) => (low + 2 * high, b)

/-- Goes on to the next byte that has not been begun. -/
def align (b : Bits) : Bits :=
  { b with read := (b.read + 7) / 8 * 8 }

/-- How many bits there are in all. -/
def size (b : Bits) : Nat :=
  8 * b.bytes.size

end Bits

/-! ## 2. Prefix codes -/

/-- The longest word of a code. -/
def longest : Nat := 15

/-- A canonical prefix code: how many words there are of each length, and the symbols in the order
    of their words. -/
structure Code where
  counts : Array Nat
  symbols : Array Nat

namespace Code

/-- The code in which the words of the symbols `0`, `1`, … have the given lengths; a symbol of
    length zero has no word. -/
def ofLengths (lengths : List Nat) : Code :=
  let lengthOf := (List.range (longest + 1)).map fun length =>
    lengths.zipIdx.filterMap fun (l, symbol) => if l = length ∧ 0 < l then some symbol else none
  { counts := (lengthOf.map List.length).toArray
    symbols := lengthOf.flatten.toArray }

/-- The symbol whose word comes next. The words of one length are consecutive numbers from `first`
    on, and their symbols begin at place `index`. -/
def symbolFrom? (c : Code) :
    (fuel length word first index : Nat) → Bits → Option (Nat × Bits)
  | 0, _, _, _, _, _ => none
  | fuel + 1, length, word, first, index, b =>
    b.next?.bind fun (bit, b) =>
      let word := word + bit
      let count := c.counts[length]?.getD 0
      if word < first + count then (c.symbols[index + (word - first)]?).map fun s => (s, b)
      else symbolFrom? c fuel (length + 1) (2 * word) (2 * (first + count)) (index + count) b

/-- The symbol whose word comes next. -/
def symbol? (c : Code) (b : Bits) : Option (Nat × Bits) :=
  c.symbolFrom? longest 1 0 0 0 b

/-- The code for bytes and lengths that needs no table. -/
def standardBytes : Code :=
  ofLengths (List.replicate 144 8 ++ List.replicate 112 9 ++ List.replicate 24 7
    ++ List.replicate 8 8)

/-- The code for distances that needs no table. -/
def standardDistances : Code :=
  ofLengths (List.replicate 30 5)

end Code

/-! ## 3. Runs -/

/-- The least number of a symbol, and how many bits tell how much is added to it. -/
structure Span where
  least : Nat
  bits : Nat

/-- The lengths of runs, by their symbols from 257 on. -/
def runLengths : Array Span :=
  #[⟨3, 0⟩, ⟨4, 0⟩, ⟨5, 0⟩, ⟨6, 0⟩, ⟨7, 0⟩, ⟨8, 0⟩, ⟨9, 0⟩, ⟨10, 0⟩, ⟨11, 1⟩, ⟨13, 1⟩, ⟨15, 1⟩,
    ⟨17, 1⟩, ⟨19, 2⟩, ⟨23, 2⟩, ⟨27, 2⟩, ⟨31, 2⟩, ⟨35, 3⟩, ⟨43, 3⟩, ⟨51, 3⟩, ⟨59, 3⟩, ⟨67, 4⟩,
    ⟨83, 4⟩, ⟨99, 4⟩, ⟨115, 4⟩, ⟨131, 5⟩, ⟨163, 5⟩, ⟨195, 5⟩, ⟨227, 5⟩, ⟨258, 0⟩]

/-- How far back runs begin, by their symbols. -/
def runDistances : Array Span :=
  #[⟨1, 0⟩, ⟨2, 0⟩, ⟨3, 0⟩, ⟨4, 0⟩, ⟨5, 1⟩, ⟨7, 1⟩, ⟨9, 2⟩, ⟨13, 2⟩, ⟨17, 3⟩, ⟨25, 3⟩, ⟨33, 4⟩,
    ⟨49, 4⟩, ⟨65, 5⟩, ⟨97, 5⟩, ⟨129, 6⟩, ⟨193, 6⟩, ⟨257, 7⟩, ⟨385, 7⟩, ⟨513, 8⟩, ⟨769, 8⟩,
    ⟨1025, 9⟩, ⟨1537, 9⟩, ⟨2049, 10⟩, ⟨3073, 10⟩, ⟨4097, 11⟩, ⟨6145, 11⟩, ⟨8193, 12⟩,
    ⟨12289, 12⟩, ⟨16385, 13⟩, ⟨24577, 13⟩]

/-- The number that a symbol stands for, with its further bits. -/
def Span.number? (spans : Array Span) (symbol : Nat) (b : Bits) : Option (Nat × Bits) :=
  spans[symbol]?.bind fun s => (b.number? s.bits).map fun (more, b) => (s.least + more, b)

/-- Repeats `length` bytes from `distance` back. The run may go into itself. -/
def repeatRun? (distance : Nat) : (length : Nat) → ByteArray → Option ByteArray
  | 0, out => some out
  | length + 1, out =>
    if h : 0 < distance ∧ distance ≤ out.size then
      have : out.size - distance < out.size := by omega
      repeatRun? distance length (out.push out[out.size - distance])
    else none

/-! ## 4. Blocks -/

/-- How many bytes are wanted: all there are, or only the first. -/
abbrev Wanted := Option Nat

/-- Whether there are as many bytes as are wanted. -/
def Wanted.isMet (w : Wanted) (out : ByteArray) : Bool :=
  match w with
  | none => false
  | some count => count ≤ out.size

/-- The symbols of a block, to the one that ends it. -/
def symbols? (wanted : Wanted) (bytes distances : Code) :
    (fuel : Nat) → Bits → ByteArray → Option (ByteArray × Bits)
  | 0, _, _ => none
  | fuel + 1, b, out =>
    if wanted.isMet out then some (out, b)
    else
      (bytes.symbol? b).bind fun (symbol, b) =>
        if symbol < 256 then symbols? wanted bytes distances fuel b (out.push symbol.toUInt8)
        else if symbol = 256 then some (out, b)
        else
          (Span.number? runLengths (symbol - 257) b).bind fun (length, b) =>
            (distances.symbol? b).bind fun (symbol, b) =>
              (Span.number? runDistances symbol b).bind fun (distance, b) =>
                (repeatRun? distance length out).bind (symbols? wanted bytes distances fuel b)

/-- A block of bytes as they are. It may be cut off if enough of it is there. -/
def plainBlock? (wanted : Wanted) (b : Bits) (out : ByteArray) : Option (ByteArray × Bits) :=
  let b := b.align
  (b.number? 16).bind fun (length, b) =>
    (b.number? 16).bind fun (complement, b) =>
      let start := b.read / 8
      let out := out ++ b.bytes.extract start (start + length)
      if length + complement = 65535 ∧ (start + length ≤ b.bytes.size ∨ wanted.isMet out) then
        some (out, { b with read := 8 * (start + length) })
      else none

/-- The order in which the lengths of the words for lengths are written. -/
def lengthOrder : List Nat :=
  [16, 17, 18, 0, 8, 7, 9, 6, 10, 5, 11, 4, 12, 3, 13, 2, 14, 1, 15]

/-- The numbers written by `n` times three bits. -/
def triples? : (n : Nat) → Bits → Option (List Nat × Bits)
  | 0, b => some ([], b)
  | n + 1, b =>
    (b.number? 3).bind fun (first, b) =>
      (triples? n b).map fun (rest, b) => (first :: rest, b)

/-- Lengths of words, of which `wanted` are still to come; the last one comes first. -/
def lengths? (c : Code) : (fuel wanted : Nat) → List Nat → Bits → Option (List Nat × Bits)
  | _, 0, reversed, b => some (reversed, b)
  | 0, _ + 1, _, _ => none
  | fuel + 1, wanted + 1, reversed, b =>
    (c.symbol? b).bind fun (symbol, b) =>
      let again (length least bits : Nat) : Option (List Nat × Bits) :=
        (b.number? bits).bind fun (more, b) =>
          if least + more ≤ wanted + 1 then
            lengths? c fuel (wanted + 1 - (least + more))
              (List.replicate (least + more) length ++ reversed) b
          else none
      if symbol < 16 then lengths? c fuel wanted (symbol :: reversed) b
      else if symbol = 16 then
        match reversed with
        | [] => none
        | length :: _ => again length 3 2
      else if symbol = 17 then again 0 3 3
      else again 0 11 7

/-- The codes of a block with tables. -/
def codes? (b : Bits) : Option (Code × Code × Bits) :=
  (b.number? 5).bind fun (bytes, b) =>
    (b.number? 5).bind fun (distances, b) =>
      (b.number? 4).bind fun (orders, b) =>
        (triples? (orders + 4) b).bind fun (given, b) =>
          let lengthOf (symbol : Nat) : Nat :=
            ((lengthOrder.zip given).lookup symbol).getD 0
          let code := Code.ofLengths ((List.range 19).map lengthOf)
          let all := bytes + 257 + (distances + 1)
          (lengths? code all all [] b).map fun (reversed, b) =>
            let lengths := reversed.reverse
            (.ofLengths (lengths.take (bytes + 257)), .ofLengths (lengths.drop (bytes + 257)), b)

/-- Blocks to the last, or until there are enough bytes. -/
def blocks? (wanted : Wanted) : (fuel : Nat) → Bits → ByteArray → Option (ByteArray × Bits)
  | 0, _, _ => none
  | fuel + 1, b, out =>
    if wanted.isMet out then some (out, b)
    else
      (b.number? 1).bind fun (last, b) =>
        (b.number? 2).bind fun (kind, b) =>
          let block := match kind with
            | 0 => plainBlock? wanted b out
            | 1 => symbols? wanted .standardBytes .standardDistances b.size b out
            | 2 =>
              (codes? b).bind fun (bytes, distances, b) =>
                symbols? wanted bytes distances b.size b out
            | _ => none
          block.bind fun (out, b) =>
            if last = 1 then some (out, b) else blocks? wanted fuel b out

/-- The bytes that compressed data were made of, and what comes after the data. -/
def inflate? (wanted : Wanted) (bytes : ByteArray) (start : Nat) : Option (ByteArray × Bits) :=
  blocks? wanted (8 * bytes.size) ⟨bytes, 8 * start⟩ .empty

/-! ## 5. The wrapping -/

/-- Whether data begin with the two bytes that say how they are compressed. -/
def isWrapped (bytes : ByteArray) : Bool :=
  let method := (byteAt bytes 0).toNat
  let flags := (byteAt bytes 1).toNat
  1 < bytes.size && method % 16 = 8 && (256 * method + flags) % 31 = 0 && flags / 32 % 2 = 0

/-- The bytes in wrapped data: two bytes say how they are compressed, and a checksum follows. -/
def unwrap? (bytes : ByteArray) : Option ByteArray :=
  if isWrapped bytes then
    (inflate? none bytes 2).bind fun (out, b) =>
      if ByteOrder.highFirst.number? bytes (b.align.read / 8) 4 = some (Adler32.of out).toNat then
        some out
      else none
  else none

/-- The first so many bytes in wrapped data; what comes behind them does not matter. -/
def unwrapFirst? (count : Nat) (bytes : ByteArray) : Option ByteArray :=
  if isWrapped bytes then
    (inflate? (some count) bytes 2).bind fun (out, _) => slice? out 0 count
  else none

/-- A block of bytes as they are. -/
def plainBlock (last : Bool) (bytes : ByteArray) : List UInt8 :=
  let length := bytes.size.toUInt16
  let complement := length ^^^ 0xFFFF
  [if last then 1 else 0, length.toUInt8, (length >>> 8).toUInt8,
    complement.toUInt8, (complement >>> 8).toUInt8]

/-- Blocks of the bytes from `start` on. -/
def plainBlocks (bytes : ByteArray) : (fuel start : Nat) → ByteArray → ByteArray
  | 0, _, out => out
  | fuel + 1, start, out =>
    let block := bytes.extract start (start + 65535)
    let last := bytes.size ≤ start + 65535
    let out := out ++ ⟨(plainBlock last block).toArray⟩ ++ block
    if last then out else plainBlocks bytes fuel (start + 65535) out

/-- Bytes in the wrapping, as they are. -/
def wrap (bytes : ByteArray) : ByteArray :=
  plainBlocks bytes (bytes.size / 65535 + 1) 0 ⟨#[0x78, 0x01]⟩
    ++ ⟨(bigEndian (Adler32.of bytes)).toArray⟩

end Relief.Picture.Deflate
