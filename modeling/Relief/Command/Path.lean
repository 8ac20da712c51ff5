/-!
# Paths

The texts by which files are named: names with slashes between them. A dot stands for the directory
itself, and nothing between two slashes stands for nothing.

* `Path.parent?`: the text of the directory that a path is in;
* `Path.extension?`: what a name ends in behind its last point.
-/

namespace Relief.Command.Path

/-- The text of a path. -/
abbrev Parts := List String

/-- The parts of a path, between its slashes. -/
def parts (path : String) : Parts :=
  path.splitOn "/"

/-- Whether a part leads nowhere. -/
def isIdle (part : String) : Bool :=
  part = "" || part = "."

/-- The names that a path goes through. -/
def names (path : String) : List String :=
  (parts path).filter fun part => !isIdle part

/-- Whether a file or a directory can have a name: it has at most 255 bytes. -/
def isName (name : String) : Bool :=
  name.utf8ByteSize ≤ 255

/-- Whether a path is short enough to lead anywhere: it has less than 4096 bytes. -/
def isShort (path : String) : Bool :=
  path.utf8ByteSize < 4096

/-- Whether a path begins at the root. -/
def isAbsolute (path : String) : Bool :=
  path.startsWith "/"

/-- Takes the parts off the end of a path that lead nowhere, to the first part at most. The last
    part comes first here. -/
def trim : Parts → Parts
  | part :: rest => if isIdle part && !rest.isEmpty then trim rest else part :: rest
  | [] => []

/-- The directory that a path is in; none if there is nothing that needs to be there. -/
def parent? (path : String) : Option String :=
  match trim (parts path).reverse with
  | [] | [_] => none
  | _ :: rest =>
    let parent := "/".intercalate (trim rest).reverse
    some (if parent = "" then "/" else parent)

/-- Whether a path can only be a directory. -/
def isDirectory (path : String) : Bool :=
  match (parts path).getLast? with
  | some part => isIdle part || part = ".."
  | none => true

/-- What is behind the last point of a path's last name, in small letters. A name that only begins
    with a point has nothing behind it. -/
def extension? (path : String) : Option String :=
  (names path).getLast?.bind fun name =>
    match name.toList.reverse.span (· ≠ '.') with
    | (_, []) | (_, [_]) => none
    | (word, _) => some (String.ofList (word.reverse.map Char.toLower))

end Relief.Command.Path
