import Relief.Command.Session
import Relief.Picture.Format

/-!
# The program

Runs the session of a command line among the files of the machine.
-/

namespace Relief

/-- The answer of something that may go wrong. -/
def attempt {α : Type} (act : IO α) : IO (Option α) := do
  try return some (← act) catch _ => return none

/-- The text in a file. -/
def readText (path : String) : IO (Option String) := do
  return (← attempt (IO.FS.readBinFile path)).bind String.fromUTF8?

/-- The image in a file, whose name must tell how it is kept there. -/
def readImage (path : String) : IO (Option Image) := do
  match (Command.Path.extension? path).bind Picture.Format.ofExtension? with
  | some format => return (← attempt (IO.FS.readBinFile path)).bind format.decode?
  | none => return none

/-- Writes an image to a file. Of one without pixels only an empty file is made. -/
def writeImage (path : String) (img : Image) : IO Bool := do
  let bytes := if img.isEmpty then .empty else Picture.Png.encode img
  let written ← attempt (IO.FS.writeBinFile path bytes)
  return written.isSome && !img.isEmpty

/-- Runs a session among the files of the machine. -/
def Command.Session.inMachine : Session → IO Outcome
  | done o => return o
  | readText path rest => do
    let text ← Relief.readText path
    (rest text).inMachine
  | readImage path rest => do
    let img ← Relief.readImage path
    (rest img).inMachine
  | makeDirectory path rest => do
    let made ← attempt (IO.FS.createDirAll path)
    (rest made.isSome).inMachine
  | writeImage path img rest => do
    let written ← Relief.writeImage path img
    (rest written).inMachine

/-- How many processors the machine tells of. -/
def processors : IO Nat := do
  let told := (← attempt (IO.FS.lines "/proc/cpuinfo")).getD #[]
  return max 1 (told.filter fun line => line.startsWith "processor").size

end Relief

/-- Runs a command line. -/
def main (args : List String) : IO UInt32 := do
  let outcome ← (Relief.Command.session args (← Relief.processors)).inMachine
  IO.print outcome.output
  for message in outcome.messages do IO.eprintln message
  return outcome.code.toUInt32
