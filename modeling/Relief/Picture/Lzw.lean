import Relief.Picture.Bytes

/-!
# Dictionaries that grow

Compressed data are a row of codes. A code stands for a byte, or for a string that has been there
before: each string but the first is entered into a dictionary, with one byte more, as soon as the
next one is known. Codes become longer as the dictionary grows, and one code empties it.

* `Style`: how codes are written;
* `expand?`: the bytes that data stand for.
-/

namespace Relief.Picture.Lzw

/-- How codes are written. -/
structure Style where
  /-- Which bits of a byte come first. -/
  order : ByteOrder
  /-- The bits of a byte that a code stands for by itself. -/
  literalBits : Nat
  /-- Whether codes become longer one code before they have to. -/
  isEarly : Bool

namespace Style

/-- The code that empties the dictionary. The next one ends the data. -/
def clear (s : Style) : Nat :=
  2 ^ s.literalBits

/-- The code of the first string of the dictionary. -/
def first (s : Style) : Nat :=
  s.clear + 2

end Style

/-- The most bits of a code. -/
def longest : Nat := 12

/-- A string among the bytes that are known. -/
structure Piece where
  start : Nat
  length : Nat

/-- What is known after some codes. -/
structure State where
  out : ByteArray
  /-- The strings of the dictionary. -/
  strings : Array Piece
  /-- The string of the last code. -/
  last : Option Piece
  /-- The bits of the next code. -/
  width : Nat

/-- What is known before the first code. -/
def State.start (s : Style) : State :=
  ⟨.empty, #[], none, s.literalBits + 1⟩

/-- The number in some bits from a place on, counted in bits; none if they are not all there. -/
def code? (s : Style) (bytes : ByteArray) (place width : Nat) : Option Nat :=
  if place + width ≤ 8 * bytes.size then
    let start := place / 8
    let number := s.order.number bytes start 3
    match s.order with
    | .lowFirst => some (number / 2 ^ (place % 8) % 2 ^ width)
    | .highFirst => some (number / 2 ^ (24 - width - place % 8) % 2 ^ width)
  else none

/-- Enters the last string, with the byte that comes behind it. Nothing can be entered into a full
    dictionary. -/
def State.enter (s : Style) (st : State) : State :=
  match st.last with
  | none => st
  | some p =>
    if s.first + st.strings.size < 2 ^ longest then
      let strings := st.strings.push ⟨p.start, p.length + 1⟩
      let next := s.first + strings.size + if s.isEarly then 1 else 0
      { st with
        strings
        width := if 2 ^ st.width ≤ next ∧ st.width < longest then st.width + 1 else st.width }
    else st

/-- Takes a string of the bytes that are known once more, byte by byte. -/
def State.copy (st : State) (p : Piece) : ByteArray :=
  (List.range p.length).foldl (fun out i => out.push (byteAt out (p.start + i))) st.out

/-- Takes a code that stands for a string. The string that has not been entered yet is the last one
    with its own first byte. -/
def State.take? (s : Style) (st : State) (code : Nat) : Option State :=
  let known (out : ByteArray) : State :=
    let piece : Piece := ⟨st.out.size, out.size - st.out.size⟩
    { st.enter s with out, last := some piece }
  if code < s.clear then some (known (st.out.push code.toUInt8))
  else
    match st.strings[code - s.first]?, st.last with
    | some p, _ => some (known (st.copy p))
    | none, some p =>
      if code = s.first + st.strings.size ∧ code < 2 ^ longest then
        some (known (st.copy ⟨p.start, p.length + 1⟩))
      else none
    | none, none => none

/-- The bytes that codes stand for, from a place on, until there are as many as are wanted. -/
def expandFrom? (s : Style) (bytes : ByteArray) (wanted : Nat) :
    (fuel place : Nat) → State → Option ByteArray
  | 0, _, st => some st.out
  | fuel + 1, place, st =>
    if wanted ≤ st.out.size then some st.out
    else
      match code? s bytes place st.width with
      | none => some st.out
      | some code =>
        let place := place + st.width
        if code = s.clear then
          expandFrom? s bytes wanted fuel place { State.start s with out := st.out }
        else if code = s.clear + 1 then some st.out
        else (st.take? s code).bind (expandFrom? s bytes wanted fuel place)

/-- The first so many bytes that data stand for; none if there are not so many. -/
def expand? (s : Style) (wanted : Nat) (bytes : ByteArray) : Option ByteArray :=
  (expandFrom? s bytes wanted (8 * bytes.size + 1) 0 (.start s)).bind fun out => slice? out 0 wanted

end Relief.Picture.Lzw
