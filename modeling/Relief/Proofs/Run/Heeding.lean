import Relief.Run.Task

/-!
# Tasks that look only to give up

A task that looks whether it is still wanted may do two things with the answer: go on as if it had
not looked, or give up. Such a task has one result, or none.

* `Course.IsQuiet`: a course that never looks;
* `Task.Heeds`: a task that gives up at once where it finds itself superseded, and does nothing else
  with its looks; `Heeds.bind` puts such tasks together;
* `Course.Moves`: one step of a course, which finds itself superseded or not;
* `Heeds.moves`: **after each step the task still has its result, or none**.
-/

namespace Relief

namespace Course

variable {α β : Type}

/-! ## 1. Courses one after the other -/

theorem bind_assoc {γ : Type} (c : Course α) (f : α → Course β) (g : β → Course γ) :
    (c.bind f).bind g = c.bind fun a => (f a).bind g := by
  induction c with
  | done a => rfl
  | report e rest ih => exact congrArg (report e) ih
  | look rest ih => exact congrArg look (funext ih)

/-! ## 2. Courses that never look -/

/-- A course that never looks. -/
inductive IsQuiet : Course α → Prop
  | done (a : α) : IsQuiet (.done a)
  | report (e : Event) {rest : Course α} (h : IsQuiet rest) : IsQuiet (.report e rest)

theorem IsQuiet.bind {c : Course α} {f : α → Course β} (h : c.IsQuiet) (hf : ∀ a, (f a).IsQuiet) :
    (c.bind f).IsQuiet := by
  induction h with
  | done a => exact hf a
  | report e _ ih => exact .report e ih

/-! ## 3. Single steps -/

/-- One step of a course that has been superseded or not. It reports an event, or it looks. -/
inductive Moves (superseded : Bool) : Course α → (looks : Bool) → Course α → Prop
  | report (e : Event) (rest : Course α) : Moves superseded (.report e rest) false rest
  | look (rest : Bool → Course α) : Moves superseded (.look rest) true (rest superseded)

/-- A course that never looks takes no step that looks, and never will. -/
theorem IsQuiet.moves {superseded looks : Bool} {c c' : Course α} (h : c.IsQuiet)
    (hm : Moves superseded c looks c') : looks = false ∧ c'.IsQuiet ∧ c'.result = c.result := by
  cases h with
  | done a => cases hm
  | report e h =>
    cases hm
    exact ⟨rfl, h, rfl⟩

end Course

namespace Task

variable {α β : Type}

theorem bind_assoc {γ : Type} (t : Task α) (f : α → Task β) (g : β → Task γ) :
    (t.bind f).bind g = t.bind fun a => (f a).bind g := by
  refine (Course.bind_assoc t (next f) (next g)).trans (congrArg (Course.bind t) ?_)
  funext outcome
  rcases outcome with reason | _ | a <;> rfl

/-! ## 4. Tasks that look only to give up -/

/-- A task that gives up where it finds itself superseded, and otherwise goes on whatever it
    finds. -/
inductive Heeds : Task α → Prop
  | done (outcome : Except Failure (Option α)) : Heeds (Course.done outcome)
  | report (e : Event) {rest : Task α} (h : Heeds rest) : Heeds (Course.report e rest)
  | look {rest : Bool → Task α} (gives : rest true = givenUp) (goes : Heeds (rest false)) :
      Heeds (Course.look rest)

theorem Heeds.bind {t : Task α} {f : α → Task β} (h : t.Heeds) (hf : ∀ a, (f a).Heeds) :
    (t.bind f).Heeds := by
  induction h with
  | done outcome =>
    rcases outcome with reason | _ | a
    · exact .done _
    · exact .done _
    · exact hf a
  | report e _ ih => exact .report e ih
  | @look rest gives _ ih =>
    refine .look ?_ ih
    show (rest true).bind f = givenUp
    rw [gives]
    rfl

theorem heeds_goOn : goOn.Heeds := .look rfl (.done _)

theorem heeds_tell (e : Event) : (tell e).Heeds := .report e (.done _)

/-- A course that never looks is a task that heeds its looks. -/
theorem Heeds.of_quiet {c : Course α} {f : α → Task β} (h : c.IsQuiet) (hf : ∀ a, (f a).Heeds) :
    Heeds (Course.bind c f) := by
  induction h with
  | done a => exact hf a
  | report e _ ih => exact .report e ih

theorem heeds_ofCourse {c : Course α} (h : c.IsQuiet) : (ofCourse c).Heeds :=
  .of_quiet h fun a => .done (.ok (some a))

theorem heeds_attempt {c : Course (Except Failure α)} (h : c.IsQuiet) : (attempt c).Heeds :=
  .of_quiet h fun outcome => by cases outcome <;> exact .done _

/-- **After each step a task that heeds its looks still has its result**, unless it has found itself
    superseded. Then it has none. -/
theorem Heeds.moves {superseded looks : Bool} {t t' : Task α} (h : t.Heeds)
    (hm : Course.Moves superseded t looks t') :
    (looks = true ∧ superseded = true ∧ t' = givenUp) ∨
      t'.Heeds ∧ Course.result t' = Course.result t := by
  cases h with
  | done outcome => cases hm
  | report e h =>
    cases hm
    exact .inr ⟨h, rfl⟩
  | look gives goes =>
    cases hm
    cases superseded with
    | true => exact .inl ⟨rfl, rfl, gives⟩
    | false => exact .inr ⟨goes, rfl⟩

/-- **Before every observer, a task that heeds its looks has its result, or none.** -/
theorem Heeds.follow {σ : Type} {t : Task α} (h : t.Heeds) (o : Course.Observer σ) (s : σ) :
    (Course.follow o t s).1 = .ok none ∨ (Course.follow o t s).1 = Course.result t := by
  induction h generalizing s with
  | done outcome => exact .inr rfl
  | report e _ ih => exact ih (o.note s e)
  | @look rest gives _ ih =>
    show (Course.follow o (rest (o.answer s)) s).1 = _ ∨
      (Course.follow o (rest (o.answer s)) s).1 = Course.result (rest false)
    cases o.answer s with
    | true =>
      rw [gives]
      exact .inl rfl
    | false => exact ih s

/-! ## 5. Results of tasks that nobody withdraws -/

theorem result_bind (t : Task α) (f : α → Task β) :
    Course.result (t.bind f) = Course.result (next f (Course.result t)) :=
  Course.result_bind t (next f)

theorem result_goOn_bind (f : Unit → Task β) :
    Course.result (goOn.bind f) = Course.result (f ()) := rfl

theorem result_attempt_bind (c : Course (Except Failure α)) (f : α → Task β) :
    Course.result ((attempt c).bind f) = match c.result with
      | .error reason => .error reason
      | .ok a => Course.result (f a) := by
  rw [result_bind, attempt, Course.result_bind]
  cases c.result <;> rfl

theorem result_ofCourse_bind (c : Course α) (f : α → Task β) :
    Course.result ((ofCourse c).bind f) = Course.result (f c.result) := by
  have result : Course.result (ofCourse c) = .ok (some c.result) := Course.result_bind c done
  rw [result_bind, result]
  rfl

end Task

end Relief
