import Relief.Run.Task

/-!
# Observers who stand by what they said

Work that has been superseded stays superseded.

* `Observer.Persists`: an observer who never takes a withdrawal back;
* `Persists.follow`: before such an observer, a course that is superseded at the beginning is
  superseded at the end;
* `Persists.follow_calm`: and one that is not superseded at the end has its undisturbed result;
* `Task.follow_goOn_superseded`, `Task.follow_goOn_calm`: what a look does to a task.
-/

namespace Relief

namespace Course

variable {σ : Type}

/-- Work that has been superseded stays superseded, whatever is reported. -/
def Observer.Persists (o : Observer σ) : Prop :=
  ∀ s e, o.answer s = true → o.answer (o.note s e) = true

/-- **Before a persistent observer, what is superseded when a course begins is superseded when it
    ends.** -/
theorem Observer.Persists.follow {α : Type} {o : Observer σ} (ho : o.Persists) (c : Course α)
    {s : σ} (hs : o.answer s = true) : o.answer (c.follow o s).2 = true := by
  induction c generalizing s with
  | done a => exact hs
  | report e rest ih => exact ih (ho s e hs)
  | look rest ih => exact ih _ hs

/-- **What is not superseded in the end has never been**, so that it has the result of work that
    nobody withdraws. -/
theorem Observer.Persists.follow_calm {α : Type} {o : Observer σ} (ho : o.Persists) (c : Course α)
    {s : σ} (hs : o.answer (c.follow o s).2 = false) : (c.follow o s).1 = c.result := by
  induction c generalizing s with
  | done a => rfl
  | report e rest ih => exact ih hs
  | look rest ih =>
    have calm : o.answer s = false := by
      rw [← Bool.not_eq_true]
      intro superseded
      have still := ho.follow (look rest) superseded
      rw [hs] at still
      cases still
    change o.answer ((rest (o.answer s)).follow o s).2 = false at hs
    show ((rest (o.answer s)).follow o s).1 = (rest false).result
    rw [calm] at hs ⊢
    exact ih false hs

/-- A patient observer persists: there is nothing to stand by. -/
theorem patient_persists : patient.Persists := fun _ _ h => h

end Course

namespace Task

variable {α β σ : Type} {o : Course.Observer σ} {s : σ}

theorem follow_bind (t : Task α) (f : α → Task β) :
    Course.follow o (t.bind f) s
      = Course.follow o (next f (Course.follow o t s).1) (Course.follow o t s).2 :=
  Course.follow_bind o t (next f) s

theorem follow_tell_bind (e : Event) (f : Unit → Task β) :
    Course.follow o ((tell e).bind f) s = Course.follow o (f ()) (o.note s e) :=
  rfl

/-- What has been superseded gives up at its next look. -/
theorem follow_goOn_superseded (f : Unit → Task β) (hs : o.answer s = true) :
    Course.follow o (goOn.bind f) s = (.ok none, s) := by
  have look : Course.follow o goOn s = (.ok none, s) := by
    show Course.follow o (if o.answer s then givenUp else done ()) s = _
    rw [hs]
    rfl
  rw [follow_bind, look]
  rfl

/-- What is still wanted goes on after its next look. -/
theorem follow_goOn_calm (f : Unit → Task β) (hs : o.answer s = false) :
    Course.follow o (goOn.bind f) s = Course.follow o (f ()) s := by
  have look : Course.follow o goOn s = (.ok (some ()), s) := by
    show Course.follow o (if o.answer s then givenUp else done ()) s = _
    rw [hs]
    rfl
  rw [follow_bind, look]
  rfl

end Task

end Relief
