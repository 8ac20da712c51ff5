import Relief.Json.Basic

/-!
# Records and choices in JSON

A record with named fields is read from an object, or from an array of its fields in order. What is
not said keeps the value that it has. Members of other names are passed over, but no field may be
said twice.

* `Record.read?`, `Record.write`: records;
* `Choice.read?`, `Choice.write`: one of some named things, written as its name, or as an object
  with that name and nothing.
-/

namespace Relief

/-- A field of a record: its name, what it says of a record, and how it is set. -/
structure Field (α : Type) where
  name : String
  get : α → Json
  set? : α → Json → Option α

namespace Record

variable {α : Type}

/-- Sets the fields that the members of an object name. -/
def setMembers? (fields : List (Field α)) :
    (said : List String) → List (Option String × Json) → α → Option α
  | _, [], a => some a
  | _, (none, _) :: _, _ => none
  | said, (some name, value) :: rest, a =>
    match fields.find? fun f => f.name = name with
    | none => setMembers? fields said rest a
    | some f =>
      if name ∈ said then none
      else (f.set? a value).bind (setMembers? fields (name :: said) rest)

/-- Sets the first fields to the items of an array. -/
def setItems? : List (Field α) → List Json → α → Option α
  | _, [], a => some a
  | [], _ :: _, _ => none
  | f :: fields, value :: rest, a => (f.set? a value).bind (setItems? fields rest)

/-- The record that `a` becomes by what a value says. -/
def read? (fields : List (Field α)) (a : α) : Json → Option α
  | .object members => setMembers? fields [] members a
  | .array items => setItems? fields items a
  | _ => none

/-- A record as an object of all its fields. -/
def write (fields : List (Field α)) (a : α) : Json :=
  .object (fields.map fun f => (some f.name, f.get a))

end Record

namespace Choice

variable {α : Type}

/-- The one of some things that has a name. -/
def named? (all : List α) (name : α → String) (text : String) : Option α :=
  all.find? fun a => name a = text

/-- The one of some things that a value names. -/
def read? (all : List α) (name : α → String) : Json → Option α
  | .string (some text) => named? all name text
  | .object [(some text, .null)] => named? all name text
  | _ => none

/-- The name of a thing as a value. -/
def write (name : α → String) (a : α) : Json :=
  .string (some (name a))

end Choice

end Relief
