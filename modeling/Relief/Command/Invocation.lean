import Relief.Command.Switch
import Relief.Number.Decimal
import Relief.Options

/-!
# Invocations

What a command line asks for: one of three commands, with its settings, or information about them.

* `Invocation`: the commands with their settings;
* `Invocation.read`: the invocation that arguments make.
-/

namespace Relief.Command

/-! ## 1. Commands -/

/-- Making a depth map. What is set here goes before the options of a file. -/
structure Reconstruct where
  input : String
  output : String
  options : Option String
  quality : Option Float32
  perspective : Option Float32
  layout : Option Layout
  unmasked : Bool
  mask : Option String
  threads : Option UInt64

/-- Making a slope field. -/
structure Gradient where
  input : String
  output : String
  convention : Convention

/-- Printing the program that takes slopes from maps of an extent. -/
structure Shader where
  extent : Extent
  convention : Convention
  /-- Whether the vertex stage is printed too. -/
  vertex : Bool

/-- The commands by their names. -/
inductive Name where
  | reconstruct
  | gradient
  | shader
  deriving DecidableEq, Repr

/-- A command with its settings. -/
inductive Invocation where
  | reconstruct (r : Reconstruct)
  | gradient (g : Gradient)
  | shader (s : Shader)

/-- What a command line asks for. -/
inductive Query where
  | run (i : Invocation)
  /-- Help with all commands, or with one. -/
  | help (name : Option Name)
  /-- Help with asking for help. -/
  | helpOnHelp
  | version
  /-- The arguments do not fit. -/
  | misfit

/-! ## 2. Values -/

/-- A value that must not be empty. -/
def isPath (value : String) : Bool :=
  !value.isEmpty

/-- A width or a height. -/
def length? (value : String) : Option UInt32 :=
  (readInt? value.toList).bind fun n =>
    if 0 ≤ n ∧ n < 2 ^ 32 then some n.toNat.toUInt32 else none

/-- A number of workers. -/
def count? (value : String) : Option UInt64 :=
  (readNat? value.toList).bind fun n => if n < 2 ^ 64 then some n.toUInt64 else none

/-- A single. -/
def single? (value : String) : Option Float32 :=
  readSingle? value.toList

/-- A layout. -/
def layout? (value : String) : Option Layout :=
  Choice.named? Layout.all Layout.name value

/-- A backend. -/
def backend? (value : String) : Option Backend :=
  Choice.named? Backend.all Backend.name value

/-! ## 3. Switches -/

/-- The file that a command reads. -/
def inputSwitch : Switch where
  name := "in"
  placeholder := some "IN_PATH"
  purpose := "Input normal map"
  required := true
  accepts := isPath

/-- The file that a command writes. -/
def outputSwitch : Switch where
  name := "out"
  placeholder := some "OUT"
  purpose := "Output PNG path"
  required := true
  accepts := isPath

/-- What draws. -/
def backendSwitch : Switch where
  name := "backend"
  placeholder := some "BACKEND"
  purpose := "Backend to use"
  standard := some Backend.cpu.name
  choices := Backend.all.map Backend.name
  accepts := fun v => (backend? v).isSome

/-- Whether green points down. -/
def directXSwitch : Switch where
  name := "directx"
  purpose := "Flip green (DirectX-style normal maps)"

/-- The switches of a command. -/
def Name.switches : Name → List Switch
  | reconstruct => [
    inputSwitch,
    outputSwitch,
    { name := "opts", placeholder := some "OPTS"
      purpose := "Options JSON; flags below override its fields", accepts := isPath },
    { name := "quality", placeholder := some "QUALITY"
      purpose := "Fraction of the maximum direction count, in [0, 1]"
      accepts := fun v => (single? v).isSome },
    { name := "perspective", placeholder := some "PERSPECTIVE"
      purpose := "Radial perspective correction strength", accepts := fun v => (single? v).isSome },
    { name := "frame", placeholder := some "FRAME"
      purpose := "Ray launch layout", choices := Layout.all.map Layout.name
      accepts := fun v => (layout? v).isSome },
    { name := "no-mask", purpose := "Keep integration noise on invalid pixels" },
    { name := "mask", placeholder := some "MASK"
      purpose := "Separate validity mask image", accepts := isPath },
    { name := "threads", placeholder := some "THREADS"
      purpose := "Override integration worker threads", accepts := fun v => (count? v).isSome },
    backendSwitch]
  | gradient => [inputSwitch, outputSwitch, directXSwitch, backendSwitch]
  | shader => [
    { name := "width", placeholder := some "WIDTH", purpose := "Target width"
      standard := some "256", accepts := fun v => (length? v).isSome },
    { name := "height", placeholder := some "HEIGHT", purpose := "Target height"
      standard := some "256", accepts := fun v => (length? v).isSome },
    directXSwitch,
    { name := "vertex", purpose := "Also print the vertex stage" }]

/-! ## 4. Settings -/

/-- The convention that settings ask for. -/
def conventionOf (settings : List Setting) : Convention :=
  if isSet settings "directx" then .directX else .openGl

/-- The command that settings make. -/
def Name.invocation (name : Name) (settings : List Setting) : Invocation :=
  let value := setting? settings
  match name with
  | reconstruct => .reconstruct {
      input := (value "in").getD ""
      output := (value "out").getD ""
      options := value "opts"
      quality := (value "quality").bind single?
      perspective := (value "perspective").bind single?
      layout := (value "frame").bind layout?
      unmasked := isSet settings "no-mask"
      mask := value "mask"
      threads := (value "threads").bind count? }
  | gradient => .gradient {
      input := (value "in").getD ""
      output := (value "out").getD ""
      convention := conventionOf settings }
  | shader => .shader {
      extent := {
        width := ((value "width").bind length?).getD 256
        height := ((value "height").bind length?).getD 256 }
      convention := conventionOf settings
      vertex := isSet settings "vertex" }

/-! ## 5. Command lines -/

/-- The name of a command. -/
def Name.text : Name → String
  | reconstruct => "reconstruct"
  | gradient => "gradient"
  | shader => "shader"

/-- All commands. -/
def Name.all : List Name :=
  [reconstruct, gradient, shader]

/-- What help is asked for by the names of commands. -/
def helpWith : List String → Query
  | [] => .help none
  | ["help"] => .helpOnHelp
  | [name] =>
    match Choice.named? Name.all Name.text name with
    | some name => .help (some name)
    | none => .misfit
  | _ => .misfit

/-- What a command is asked for by its arguments. -/
def Name.query (name : Name) (args : List String) : Query :=
  match Switch.read name.switches args with
  | .ok settings => .run (name.invocation settings)
  | .error .help => .help (some name)
  | .error .usage => .misfit

/-- What arguments ask for. -/
def Query.read : List String → Query
  | [] => .misfit
  | "help" :: names => helpWith names
  | arg :: args =>
    match Switch.formOf arg with
    | .long "help" none => .help none
    | .long "version" none => .version
    | .short ('h' :: _) => .help none
    | .short ('V' :: _) => .version
    | .plain =>
      match Choice.named? Name.all Name.text arg with
      | some name => name.query args
      | none => .misfit
    | _ => .misfit

end Relief.Command
