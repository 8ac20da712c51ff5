import Relief.Command.Session
import Relief.Picture.Format

/-!
# Files in memory

A tree of files that holds texts and images, for sessions to talk to.

* `Files.resolve?`: where a path leads;
* `Session.inFiles`: a session among the files of a tree.
-/

namespace Relief.Command

/-- What a file holds. -/
inductive Content where
  /-- A text, whose bytes may be an image in one of the formats. -/
  | text (text : String)
  /-- An image as the program writes it, which is no text. -/
  | image (img : Image)

/-- Where something is: the names from the root on. -/
abbrev Place := List String

/-- Files and directories by their places. The root is a directory without being listed. -/
structure Files where
  contents : List (Place × Content)
  directories : List Place
  /-- Where paths begin that do not begin with a slash. -/
  working : Place

namespace Files

/-- A tree without files, whose working directory lies in the root. -/
def empty : Files :=
  ⟨[], [["work"]], ["work"]⟩

/-- What the file at a place holds. -/
def content? (fs : Files) (place : Place) : Option Content :=
  fs.contents.lookup place

/-- Whether there is a directory at a place. -/
def isDirectory (fs : Files) (place : Place) : Bool :=
  place.isEmpty || fs.directories.contains place

/-- The place that names lead to from a directory. All but the last must lead to directories. The
    directory that the root is in is the root. -/
def follow? (fs : Files) : Place → List String → Option Place
  | place, [] => some place
  | place, name :: rest =>
    if fs.isDirectory place then
      if name = ".." then follow? fs place.dropLast rest
      else if Path.isName name then follow? fs (place ++ [name]) rest
      else none
    else none

/-- The directory that a path begins at. -/
def start (fs : Files) (path : String) : Place :=
  if Path.isAbsolute path then [] else fs.working

/-- The place that a path leads to. -/
def resolve? (fs : Files) (path : String) : Option Place :=
  if Path.isShort path then fs.follow? (fs.start path) (Path.names path) else none

/-- The file that a path leads to. -/
def file? (fs : Files) (path : String) : Option Content :=
  if Path.isDirectory path then none else (fs.resolve? path).bind fs.content?

/-- The text that a path leads to. -/
def text? (fs : Files) (path : String) : Option String :=
  match fs.file? path with
  | some (.text text) => some text
  | _ => none

/-- The image that a path leads to. The name of the file must tell how the image is kept in it. -/
def image? (fs : Files) (path : String) : Option Image :=
  ((Path.extension? path).bind Picture.Format.ofExtension?).bind fun format =>
    match fs.file? path with
    | some (.image img) => if format = .png then some img else none
    | some (.text text) => format.decode? text.toUTF8
    | none => none

/-- The place that names lead to from a directory, and the tree with all directories on the way;
    none if a file is in the way, or if there can be no such directory. -/
def makeAll? : Files → Place → List String → Option Files
  | fs, _, [] => some fs
  | fs, place, ".." :: rest => makeAll? fs place.dropLast rest
  | fs, place, name :: rest =>
    let place := place ++ [name]
    if (fs.content? place).isSome || !Path.isName name then none
    else if fs.isDirectory place then makeAll? fs place rest
    else makeAll? { fs with directories := place :: fs.directories } place rest

/-- The tree with a directory, and with those that it is in. -/
def make? (fs : Files) (path : String) : Option Files :=
  if Path.isShort path then fs.makeAll? (fs.start path) (Path.names path) else none

/-- The tree with a file, in a directory that there is. -/
def write? (fs : Files) (path : String) (content : Content) : Option Files :=
  match fs.resolve? path with
  | none => none
  | some place =>
    if Path.isDirectory path || fs.isDirectory place then none
    else some { fs with contents := (place, content) :: fs.contents.filter (·.1 ≠ place) }

/-- The tree with an image, and whether it has been written. An image without pixels cannot be: of
    its file only the name is there. -/
def writeImage (fs : Files) (path : String) (img : Image) : Files × Bool :=
  match fs.write? path (if img.isEmpty then .text "" else .image img) with
  | some fs => (fs, !img.isEmpty)
  | none => (fs, false)

/-- The tree with a file, and with the directories that it is in. -/
def add? (fs : Files) (path : String) (content : Content) : Option Files :=
  match Path.parent? path with
  | none => fs.write? path content
  | some parent => (fs.make? parent).bind fun fs => fs.write? path content

end Files

/-- A session among the files of a tree: its outcome, and the tree after it. -/
def Session.inFiles : Session → Files → Outcome × Files
  | done o, fs => (o, fs)
  | readText path rest, fs => (rest (fs.text? path)).inFiles fs
  | readImage path rest, fs => (rest (fs.image? path)).inFiles fs
  | makeDirectory path rest, fs =>
    match fs.make? path with
    | some fs => (rest true).inFiles fs
    | none => (rest false).inFiles fs
  | writeImage path img rest, fs =>
    let (fs, written) := fs.writeImage path img
    (rest written).inFiles fs

end Relief.Command
