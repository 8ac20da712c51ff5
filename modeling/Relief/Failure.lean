import Relief.Image
import Relief.Shading.Misuse

/-!
# Reasons to refuse

Every operation of the library that can refuse its input does so with a `Failure`, which names the
cause and carries what the cause speaks about. `Failure.text` is the wording that users see: the
category of the failure, and the message of its cause.

Work that has been superseded is not a failure (see `Relief.Run.Generation`).
-/

namespace Relief

/-- What part of the work a failure belongs to. -/
inductive Category where
  /-- Data or options of the caller do not fit together. -/
  | validation
  /-- The device that draws images cannot be used. -/
  | backend
  /-- A program or a worker failed while it ran. -/
  | evaluation
  /-- Something outside the library, such as a file. -/
  | other
  deriving DecidableEq, Repr

/-- A message as users see it, with its category in front. -/
def Category.describe (c : Category) (message : String) : String :=
  match c with
  | .validation => "validation error: " ++ message
  | .backend => "backend error: " ++ message
  | .evaluation => "evaluation error: " ++ message
  | .other => message

/-- Why an operation refused its input. -/
inductive Failure where
  /-- There is no such image. -/
  | unfitImage (reason : Image.Unfit)
  /-- A texture does not have the extent of the target it is sampled for. -/
  | textureExtent (texture target : Extent)
  /-- A program samples another number of images than it was given. -/
  | inputCount (sampled given : Nat)
  /-- An image given to a program does not have the extent of its target. -/
  | inputExtent (input target : Extent)
  /-- An instruction does not fit its operands. -/
  | illFormedInstruction (id : Nat)
  /-- A tally was to be made of lists that do not have its length. -/
  | tallyLength (sums counts expected : Nat)
  /-- Integration was asked for no worker at all. -/
  | noWorkers
  /-- The machine did not start the threads of the workers. -/
  | noWorkerThreads (reason : String)
  /-- The machine did not start the thread of a job. -/
  | noJobThread
  /-- A mask does not have the extent of the normal map. -/
  | maskExtent (mask map : Extent)
  /-- The text of the options cannot be read. -/
  | unreadableOptions
  /-- An expression was built wrongly. -/
  | misuse (mistake : Shading.Misuse)

namespace Failure

/-- The category of a failure. -/
def category : Failure → Category
  | .illFormedInstruction _ | .noWorkerThreads _ => .evaluation
  | .unfitImage .unholdable | .misuse _ | .noJobThread => .other
  | _ => .validation

/-- The wording of the cause alone. -/
def message : Failure → String
  | .unfitImage reason => reason.message
  | .textureExtent texture target =>
    "texture is " ++ texture.text ++ ", raster target is " ++ target.text
  | .inputCount sampled given =>
    "program samples " ++ toString sampled ++ " inputs, " ++ toString given ++ " bound"
  | .inputExtent input target => "input is " ++ input.text ++ ", raster target is " ++ target.text
  | .illFormedInstruction id => "instruction v" ++ toString id ++ " does not fit its operands"
  | .tallyLength sums counts expected =>
    "accumulator buffers hold " ++ toString sums ++ " sums and " ++ toString counts
      ++ " counts, expected " ++ toString expected
  | .noWorkers => "integration 'threads' must be >= 1 when set"
  | .noWorkerThreads reason => "failed to build rayon thread pool: " ++ reason
  | .noJobThread => "spawn reconstruction thread"
  | .maskExtent mask map => "mask is " ++ mask.text ++ ", normal map is " ++ map.text
  | .unreadableOptions => "invalid reconstruct options"
  | .misuse mistake => mistake.message

/-- Whether a failure is a fault of the program, and not of what it was given: an expression was
    built wrongly, or more memory was asked for than there can be. -/
def isFault : Failure → Bool
  | .unfitImage .unholdable | .misuse _ => true
  | _ => false

/-- The wording that users see. -/
def text (f : Failure) : String :=
  f.category.describe f.message

end Failure

end Relief
