import Relief.Proofs.Run.Persistence
import Relief.Run.Watch

/-!
# Watches stand by what they said

A watch advances a generation once at most while it is armed. So it takes a withdrawal back only if
that one advance brings the counter round to the count of the token.

* `Course.follow_map`: two observers who say the same see the same;
* `Watch.StandsBy`: a watch that cannot take a withdrawal back;
* `Watch.run_eq_steady`: **before such a watch a course runs as before a persistent observer**;
* `Watch.generations_run`: a watch that waits for no milestone advances nothing.
-/

namespace Relief

/-- Two observers, of whom one remembers more than the other, see a course come to the same
    result. -/
theorem Course.follow_map {α σ ρ : Type} {o : Observer σ} {o' : Observer ρ} (forget : ρ → σ)
    (note : ∀ s e, forget (o'.note s e) = o.note (forget s) e)
    (answer : ∀ s, o'.answer s = o.answer (forget s)) (c : Course α) (s : ρ) :
    c.follow o (forget s) = ((c.follow o' s).1, forget (c.follow o' s).2) := by
  induction c generalizing s with
  | done a => rfl
  | report e rest ih =>
    show rest.follow o (o.note (forget s) e) = _
    rw [← note]
    exact ih (o'.note s e)
  | look rest ih =>
    show (rest (o.answer (forget s))).follow o (forget s) = _
    rw [← answer]
    exact ih (o'.answer s) s

namespace Watch

variable {t : Token}

/-- The watch waits for no milestone, or the next advance does not bring the counter round to the
    count of the token. -/
def StandsBy (w : Watch) (t : Token) : Prop :=
  w.armed = none ∨ w.generations.current t.generation + 1 ≠ t.captured

/-- Taking an event leaves generations and milestone alone, or it meets the milestone. -/
theorem note_cases (w : Watch) (e : Event) :
    ((w.note e).generations = w.generations ∧ (w.note e).armed = w.armed) ∨
      ∃ m gen, w.armed = some (m, gen) ∧ (w.note e).armed = none ∧
        (w.note e).generations = w.generations.advance gen := by
  obtain ⟨generations, reversed, armed, fired⟩ := w
  rcases armed with _ | ⟨m, gen⟩
  · exact .inl ⟨rfl, rfl⟩
  · by_cases met : e.milestone? = some m
    · refine .inr ⟨m, gen, rfl, ?_⟩
      simp only [note, enter, met, if_true]
      exact ⟨rfl, rfl⟩
    · refine .inl ?_
      simp only [note, enter, met, if_false, and_self]

/-- An advance leaves a counter alone, or moves it on by one. -/
theorem current_advance_cases (g : Generations) (gen gen' : Generation) :
    (g.advance gen).current gen' = g.current gen' ∨
      (g.advance gen).current gen' = g.current gen' + 1 := by
  unfold Generations.advance Generations.current
  rw [Array.getElem?_setIfInBounds]
  split
  · rename_i same
    split
    · exact .inr (by rw [same]; rfl)
    · rename_i outside
      rw [← same, Array.getElem?_eq_none (by omega)]
      exact .inl rfl
  · exact .inl rfl

theorem StandsBy.note {w : Watch} (h : w.StandsBy t) (e : Event) : (w.note e).StandsBy t := by
  rcases w.note_cases e with ⟨generations, armed⟩ | ⟨_, _, _, armed, _⟩
  · unfold StandsBy
    rwa [generations, armed]
  · exact .inl armed

/-- What such a watch has found superseded stays so. -/
theorem StandsBy.isStale_note {w : Watch} (h : w.StandsBy t) (e : Event)
    (stale : w.generations.isStale t = true) : (w.note e).generations.isStale t = true := by
  rcases w.note_cases e with ⟨generations, _⟩ | ⟨m, gen, waiting, _, generations⟩
  · rwa [generations]
  · have behind : w.generations.current t.generation + 1 ≠ t.captured :=
      h.resolve_left (by rw [waiting]; exact nofun)
    unfold Generations.isStale at stale ⊢
    rw [decide_eq_true_eq] at stale ⊢
    rw [generations]
    rcases current_advance_cases w.generations gen t.generation with same | next
    · rwa [same]
    · rwa [next]

/-- A watch that stands by what it said, as an observer of work under a token. -/
def steady (t : Token) : Course.Observer {w : Watch // w.StandsBy t} where
  note w e := ⟨w.1.note e, w.2.note e⟩
  answer w := w.1.generations.isStale t

theorem steady_persists (t : Token) : (steady t).Persists :=
  fun w e stale => w.2.isStale_note e stale

/-- **A watch that stands by what it said runs a course as a persistent observer does.** -/
theorem run_eq_steady {α : Type} {w : Watch} (h : w.StandsBy t) (c : Course α) :
    w.run t c = ((c.follow (steady t) ⟨w, h⟩).1, (c.follow (steady t) ⟨w, h⟩).2.1) :=
  Course.follow_map Subtype.val (fun _ _ => rfl) (fun _ => rfl) c ⟨w, h⟩

/-- **A watch that waits for no milestone advances nothing.** -/
theorem generations_run {α : Type} {w : Watch} (h : w.armed = none) (c : Course α) :
    (w.run t c).2.generations = w.generations := by
  induction c generalizing w with
  | done a => rfl
  | report e rest ih =>
    rcases w.note_cases e with ⟨generations, armed⟩ | ⟨m, gen, waiting, _⟩
    · rw [← generations]
      exact ih (armed.trans h)
    · rw [h] at waiting
      cases waiting
  | look rest ih => exact ih _ h

end Watch

end Relief
