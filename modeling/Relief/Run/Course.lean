import Relief.Run.Event

/-!
# Courses

A course is a computation seen from outside: it reports events, and from time to time it looks
whether it is still wanted. What it does after a look may depend on the answer, and on nothing else
of the world.

* `Course`: the inductive type, and its monad;
* `Course.follow`: runs a course against an observer, who takes the reports and answers the looks;
* `Course.result`: the result of a course that nobody withdraws.

So whatever can be done to a course from outside is a choice of the observer, and a statement about
all observers is a statement about every moment at which it can be interrupted.
-/

namespace Relief

/-- A computation that reports events and looks whether it is still wanted. -/
inductive Course (α : Type) where
  /-- It has a result. -/
  | done (result : α)
  /-- It reports an event and goes on. -/
  | report (event : Event) (rest : Course α)
  /-- It looks, and goes on according to whether it has been superseded. -/
  | look (rest : (superseded : Bool) → Course α)

namespace Course

variable {α β σ : Type}

/-- One course after another. -/
def bind : Course α → (α → Course β) → Course β
  | done a, f => f a
  | report e rest, f => report e (rest.bind f)
  | look rest, f => look fun superseded => (rest superseded).bind f

instance : Monad Course where
  pure := done
  bind := bind

/-- Reports one event. -/
def tell (e : Event) : Course Unit :=
  report e (done ())

/-- Reports some events. -/
def tellAll : List Event → Course Unit
  | [] => done ()
  | e :: rest => report e (tellAll rest)

/-- Somebody who watches a course, with a memory of type `σ`. -/
structure Observer (σ : Type) where
  /-- Takes a report. -/
  note : σ → Event → σ
  /-- Answers a look. -/
  answer : σ → Bool

/-- The result of a course before an observer, and what the observer remembers then. -/
def follow (o : Observer σ) : Course α → σ → α × σ
  | done a, s => (a, s)
  | report e rest, s => rest.follow o (o.note s e)
  | look rest, s => (rest (o.answer s)).follow o s

/-- **One course after another is followed one after the other.** -/
theorem follow_bind (o : Observer σ) (c : Course α) (f : α → Course β) (s : σ) :
    (c.bind f).follow o s = (f (c.follow o s).1).follow o (c.follow o s).2 := by
  induction c generalizing s with
  | done a => rfl
  | report e rest ih => exact ih (o.note s e)
  | look rest ih => exact ih (o.answer s) s

/-- Somebody who never withdraws anything. -/
def patient : Observer Unit where
  note _ _ := ()
  answer _ := false

/-- The result of a course that is never superseded. -/
def result (c : Course α) : α :=
  (c.follow patient ()).1

@[simp] theorem result_done (a : α) : (done a).result = a :=
  rfl

@[simp] theorem result_report (e : Event) (rest : Course α) :
    (report e rest).result = rest.result :=
  rfl

@[simp] theorem result_look (rest : Bool → Course α) : (look rest).result = (rest false).result :=
  rfl

@[simp] theorem result_bind (c : Course α) (f : α → Course β) :
    (c.bind f).result = (f c.result).result := by
  simp only [result, follow_bind]

end Course

end Relief
