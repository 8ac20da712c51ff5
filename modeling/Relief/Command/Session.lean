import Relief.Command.Help
import Relief.Command.Path
import Relief.Reconstructor

/-!
# Sessions

A command talks to the files of a machine: it asks for contents, and has directories made and images
written. A session is that talk, with what is printed in the end.

* `Session`: the questions of a command and what it makes of the answers;
* `Query.session`: the session of what a command line asks for.

Files can be read or not for reasons that only the machine knows. The answers say no more than that.
-/

namespace Relief.Command

/-- What a command leaves behind: its exit code, what is printed, and the lines of its messages. -/
structure Outcome where
  code : UInt8
  output : String := ""
  messages : List String := []
  deriving DecidableEq, Repr

/-- A talk with the files of a machine. -/
inductive Session where
  | done (o : Outcome)
  /-- Asks for a text; none if there is no such text. -/
  | readText (path : String) (rest : Option String → Session)
  /-- Asks for an image; none if there is no such image. -/
  | readImage (path : String) (rest : Option Image → Session)
  /-- Has a directory made, with those that it is in, and hears whether it is there. -/
  | makeDirectory (path : String) (rest : Bool → Session)
  /-- Has an image written, and hears whether it has been. -/
  | writeImage (path : String) (image : Image) (rest : Bool → Session)

namespace Session

/-- An end with a message. -/
def fail (message : String) : Session :=
  done { code := 1, messages := ["Error: " ++ message] }

/-- The end that a failure makes. A fault has an exit code of its own, and its message stands behind
    an empty line. -/
def refuse (f : Failure) : Session :=
  if f.isFault then done { code := 101, messages := ["", f.text] } else fail f.text

/-! ## 1. Reading -/

/-- Reads an image. -/
def image (path : String) (rest : Image → Session) : Session :=
  readImage path fun
    | none => fail ("decode image '" ++ path ++ "'")
    | some img => rest img

/-- Reads an image, if one is named. -/
def image? (path : Option String) (rest : Option Image → Session) : Session :=
  match path with
  | none => rest none
  | some path => image path fun img => rest (some img)

/-- Reads options; they are the standard ones if no file is named. -/
def options (path : Option String) (rest : Options → Session) : Session :=
  match path with
  | none => rest {}
  | some path =>
    readText path fun
      | none => fail ("read options '" ++ path ++ "'")
      | some text =>
        match Options.read text with
        | .error f => refuse f
        | .ok o => rest o

/-! ## 2. Writing -/

/-- Makes the directory that a file is to be in. -/
def ensureParent (path : String) (rest : Session) : Session :=
  match Path.parent? path with
  | none => rest
  | some parent =>
    makeDirectory parent fun made =>
      if made then rest else fail ("create output dir '" ++ parent ++ "'")

/-- Writes an image, and then tells what has been done. -/
def write (path : String) (img : Image) (messages : List String) : Session :=
  ensureParent path <|
    writeImage path img fun written =>
      if written then done { code := 0, messages } else fail ("write png '" ++ path ++ "'")

end Session

/-! ## 3. Commands -/

/-- The options of a command line, over those of a file. -/
def Reconstruct.override (r : Reconstruct) (o : Options) : Options :=
  { o with
    quality := r.quality.getD o.quality
    perspective := r.perspective.getD o.perspective
    layout := r.layout.getD o.layout
    blackens := o.blackens && !r.unmasked
    threading := { o.threading with threads := r.threads <|> o.threading.threads } }

/-- What is said of a depth map that has been written. -/
def Reconstruct.messages (r : Reconstruct) (done : Reconstruction) : List String :=
  let written := "wrote " ++ r.output ++ " (" ++ done.depth.text ++ ", "
    ++ toString done.stats.integrated ++ " directions, "
    ++ toString done.stats.workers ++ " workers)"
  if done.stats.overflowed then
    [written, "warning: depth accumulator overflowed; output is approximate"]
  else [written]

/-- Makes a depth map. -/
def Reconstruct.session (r : Reconstruct) (processors : Processors) : Session :=
  .options r.options fun o =>
    .image r.input fun map =>
      .image? r.mask fun mask =>
        let worker := Reconstructor.new processors
        match (worker.run worker.issue { map, mask, options := r.override o }).1 with
        | .error f => .refuse f
        | .ok none => .fail "reconstruction was cancelled"
        | .ok (some done) => .write r.output done.depth (r.messages done)

/-- Makes a slope field. -/
def Gradient.session (g : Gradient) : Session :=
  .image g.input fun map =>
    match Extraction.slopes map g.convention with
    | .error f => .refuse f
    | .ok slopes => .write g.output slopes.image ["wrote " ++ g.output]

/-- Prints the program that takes slopes. -/
def Shader.session (s : Shader) : Session :=
  match Extraction.program s.extent s.convention with
  | .error f => .refuse f
  | .ok p =>
    let vertex := if s.vertex then Wgsl.vertexStage ++ "\n" else ""
    .done { code := 0, output := vertex ++ p.source }

/-- Runs a command. -/
def Invocation.session (i : Invocation) (processors : Processors) : Session :=
  match i with
  | .reconstruct r => r.session processors
  | .gradient g => g.session
  | .shader s => s.session

/-- Does what a command line asks for. -/
def Query.session (q : Query) (processors : Processors) : Session :=
  match q with
  | .run i => i.session processors
  | .help name => .done { code := 0, output := Help.text name }
  | .helpOnHelp => .done { code := 0, output := Help.ofHelp }
  | .version => .done { code := 0, output := program ++ " " ++ release ++ "\n" }
  | .misfit =>
    .done {
      code := 2
      messages := ["error: the arguments do not fit", "", "For more information, try '--help'."] }

/-- The session of a command line. -/
def session (args : List String) (processors : Processors) : Session :=
  (Query.read args).session processors

end Relief.Command
