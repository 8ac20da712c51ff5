import Relief.Picture.Bytes

/-!
# Directories of tagged files

A tagged file tells by its first bytes in which order the bytes of its numbers come, and where its
directory is. An entry of the directory gives one or more values under a tag: where they fit into
the entry they stand there, and otherwise elsewhere in the file.

* `Source`: a file with the order of its bytes;
* `Directory.read?`: the directory of a file;
* `Directory.numbers?`: the values under a tag.
-/

namespace Relief.Picture.Tiff

/-! ## 1. Files -/

/-- A file with the order of its bytes. -/
structure Source where
  bytes : ByteArray
  order : ByteOrder
  /-- Whether places in the file are numbers of eight bytes, and not of four. -/
  isLong : Bool

namespace Source

/-- The number that some bytes write. -/
def number? (s : Source) (start length : Nat) : Option Nat :=
  s.order.number? s.bytes start length

/-- The bytes of a place. -/
def placeBytes (s : Source) : Nat :=
  if s.isLong then 8 else 4

/-- The bytes of the number of entries of a directory. -/
def countBytes (s : Source) : Nat :=
  if s.isLong then 8 else 2

/-- The bytes of an entry: a tag, a type, a number of values, and a place or the values. -/
def entryBytes (s : Source) : Nat :=
  4 + 2 * s.placeBytes

/-- A file as its first four bytes describe it. -/
def read? (bytes : ByteArray) : Option Source :=
  let order : Option ByteOrder := match String.fromUTF8? (bytes.extract 0 2) with
    | some "II" => some .lowFirst
    | some "MM" => some .highFirst
    | _ => none
  order.bind fun order =>
    match order.number? bytes 2 2 with
    | some 42 => some ⟨bytes, order, false⟩
    | some 43 =>
      if order.number? bytes 4 2 = some 8 ∧ order.number? bytes 6 2 = some 0 then
        some ⟨bytes, order, true⟩
      else none
    | _ => none

/-- Where the directory is. -/
def directory? (s : Source) : Option Nat :=
  (s.number? s.placeBytes s.placeBytes).bind fun start => if start = 0 then none else some start

end Source

/-! ## 2. Entries -/

/-- The bytes of a value of a type. -/
def valueBytes? (type : Nat) : Option Nat :=
  match type with
  | 1 | 2 | 6 | 7 => some 1
  | 3 | 8 => some 2
  | 4 | 9 | 11 | 13 => some 4
  | 5 | 10 | 12 | 16 | 17 | 18 => some 8
  | _ => none

/-- Whether the values of a type are natural numbers. -/
def isNumber (type : Nat) : Bool :=
  type ∈ [1, 3, 4, 13, 16, 18]

/-- Values under a tag. -/
structure Entry where
  tag : Nat
  type : Nat
  /-- The bytes of a value. -/
  length : Nat
  count : Nat
  /-- Where the values are, or the place where they are. -/
  start : Nat

/-- The entry at a place. Entries of other types count for nothing. -/
def Entry.read? (s : Source) (start : Nat) : Option (Option Entry) :=
  match s.number? start 2, s.number? (start + 2) 2, s.number? (start + 4) s.placeBytes,
    s.number? (start + 4 + s.placeBytes) s.placeBytes with
  | some tag, some type, some count, some _ =>
    some ((valueBytes? type).map fun length =>
      ⟨tag, type, length, count, start + 4 + s.placeBytes⟩)
  | _, _, _, _ => none

/-- The values of an entry, which must be natural numbers. -/
def Entry.numbers? (s : Source) (e : Entry) : Option (List Nat) :=
  let size := e.length * e.count
  if !isNumber e.type ∧ e.count ≠ 0 then none
  else
    let start := if size ≤ s.placeBytes then some e.start else s.number? e.start s.placeBytes
    start.bind fun start =>
      if start + size ≤ s.bytes.size then
        some ((List.range e.count).map fun i => s.order.number s.bytes (start + i * e.length) e.length)
      else none

/-! ## 3. Directories -/

/-- A file with the entries of its directory. -/
structure Directory where
  source : Source
  entries : List Entry

namespace Directory

/-- The directory of a file. The place of a further one comes behind its entries. -/
def read? (bytes : ByteArray) : Option Directory :=
  (Source.read? bytes).bind fun s =>
    s.directory?.bind fun start =>
      (s.number? start s.countBytes).bind fun count =>
        let first := start + s.countBytes
        let behind := first + count * s.entryBytes
        if behind + s.placeBytes ≤ bytes.size then
          ((List.range count).mapM fun i => Entry.read? s (first + i * s.entryBytes)).map fun found =>
            ⟨s, found.filterMap id⟩
        else none

/-- The last entry with a tag. -/
def entry? (d : Directory) (tag : Nat) : Option Entry :=
  d.entries.reverse.find? fun e => e.tag = tag

/-- Whether there is an entry with a tag. -/
def has (d : Directory) (tag : Nat) : Bool :=
  (d.entry? tag).isSome

/-- The values under a tag, or `default` if there is no such entry. -/
def numbers? (d : Directory) (tag : Nat) (default : Option (List Nat)) : Option (List Nat) :=
  match d.entry? tag with
  | none => default
  | some e => e.numbers? d.source

/-- The one value under a tag, below a bound, or `default` if there is no such entry. -/
def number? (d : Directory) (tag bound : Nat) (default : Option Nat) : Option Nat :=
  match d.entry? tag with
  | none => default
  | some e =>
    match e.numbers? d.source with
    | some [n] => if n < bound then some n else none
    | _ => none

end Directory

end Relief.Picture.Tiff
