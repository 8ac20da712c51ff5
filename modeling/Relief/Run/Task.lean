import Relief.Failure
import Relief.Run.Course

/-!
# Tasks

A task is a course that may fail, and may give up because it has been superseded.

* `Task.bind`: one task after another; the first that has no result ends both;
* `Task.goOn`: looks, and gives up if the task has been superseded;
* `Task.ofCourse`, `Task.attempt`: a course as a task.
-/

namespace Relief

/-- A course with a result, with a reason why there is none, or with nothing where it has been
    superseded. -/
def Task (α : Type) : Type :=
  Course (Except Failure (Option α))

namespace Task

variable {α β : Type}

/-- A task that has its result. -/
def done (a : α) : Task α :=
  Course.done (.ok (some a))

/-- A task that gives up. -/
def givenUp : Task α :=
  Course.done (.ok none)

/-- A task that fails. -/
def fail (f : Failure) : Task α :=
  Course.done (.error f)

/-- What comes after an outcome. -/
def next (f : α → Task β) : Except Failure (Option α) → Task β
  | .error reason => fail reason
  | .ok none => givenUp
  | .ok (some a) => f a

/-- One task after another. -/
def bind (t : Task α) (f : α → Task β) : Task β :=
  Course.bind t (next f)

instance : Monad Task where
  pure := done
  bind := bind

/-- A course that always has a result. -/
def ofCourse (c : Course α) : Task α :=
  Course.bind c done

/-- A course that may fail. -/
def attempt (c : Course (Except Failure α)) : Task α :=
  Course.bind c fun
    | .error f => fail f
    | .ok a => done a

/-- Reports an event. -/
def tell (e : Event) : Task Unit :=
  Course.report e (done ())

/-- Looks, and goes on unless the task has been superseded. -/
def goOn : Task Unit :=
  Course.look fun superseded => if superseded then givenUp else done ()

end Task

end Relief
