import Relief.Proofs.Depth.Parallel
import Relief.Proofs.Run.Staleness

/-!
# Where integration in turn stops

Headings that are marched one after the other look before every ray whether they are still wanted.
Their token may go stale at any moment, before, between or during rays, so that each look has an
answer of its own.

* `Course.answered`: a course each of whose looks has an answer of its own;
* `Calm`: how many looks there are before the first that finds the work superseded;
* `answered_marchRays`, `answered_inOrder`: the rays of a heading, and headings one after the other,
  march one ray for each of these looks, and absorb its visits;
* `inOrder_ne_strayed`: no ray strays from a tally as large as the field;
* `inOrder_stops_between_rays`: so **they stop between two rays**, with all visits of the rays before
  in the tally and no others, and count the headings of which they have marched every ray.
-/

namespace Relief

/-! ## 1. Looks with answers of their own -/

namespace Course

variable {α β : Type}

/-- The result of a course whose looks are answered one after the other, from a number on, and the
    number of the next look. -/
def answered (answer : ℕ → Bool) : Course α → ℕ → α × ℕ
  | done a, n => (a, n)
  | report _ rest, n => rest.answered answer n
  | look rest, n => (rest (answer n)).answered answer (n + 1)

theorem answered_bind (answer : ℕ → Bool) (c : Course α) (f : α → Course β) (n : ℕ) :
    (c.bind f).answered answer n
      = (f (c.answered answer n).1).answered answer (c.answered answer n).2 := by
  induction c generalizing n with
  | done a => rfl
  | report e rest ih => exact ih n
  | look rest ih => exact ih (answer n) (n + 1)

end Course

/-- Visits after others are absorbed where the others have been. -/
theorem Tally.absorb_append (t : Tally) (visits later : List Visit) :
    t.absorb (visits ++ later)
      = if (t.absorb visits).2 then (t.absorb visits).1.absorb later else t.absorb visits := by
  induction visits generalizing t with
  | nil => rfl
  | cons v rest ih =>
    rw [List.cons_append, absorb, absorb]
    split
    · exact ih _
    · rfl

namespace Integration

/-- Of so many looks from number `n` on, the first `calm` find nothing, and if there is one more, it
    finds the work superseded. -/
structure Calm (answer : ℕ → Bool) (n looks calm : ℕ) : Prop where
  le : calm ≤ looks
  quiet : ∀ i < calm, answer (n + i) = false
  found : calm < looks → answer (n + calm) = true

namespace Calm

variable {answer : ℕ → Bool} {n looks calm : ℕ}

/-- Some look is the first to find the work superseded, or none does. -/
theorem exists_calm (answer : ℕ → Bool) (n looks : ℕ) : ∃ calm, Calm answer n looks calm := by
  induction looks with
  | zero => exact ⟨0, Nat.le_refl 0, fun i hi => by omega, fun h => by omega⟩
  | succ looks ih =>
    obtain ⟨calm, h⟩ := ih
    rcases Nat.lt_or_eq_of_le h.le with early | rfl
    · exact ⟨calm, by omega, h.quiet, fun _ => h.found early⟩
    · cases last : answer (n + calm) with
      | true => exact ⟨calm, Nat.le_succ _, h.quiet, fun _ => last⟩
      | false =>
        refine ⟨calm + 1, Nat.le_refl _, fun i hi => ?_, fun h => by omega⟩
        rcases Nat.lt_succ_iff_lt_or_eq.mp hi with hi | rfl
        · exact h.quiet i hi
        · exact last

/-- Where the first look finds the work superseded, none is calm. -/
theorem eq_zero (h : Calm answer n looks calm) (superseded : answer n = true) : calm = 0 := by
  by_contra nonzero
  rw [← Nat.add_zero n, h.quiet 0 (Nat.pos_of_ne_zero nonzero)] at superseded
  cases superseded

/-- Where it finds nothing, it is one of the calm ones. -/
theorem tail (h : Calm answer n (looks + 1) calm) (wanted : answer n = false) :
    ∃ later, calm = later + 1 ∧ Calm answer (n + 1) looks later := by
  cases calm with
  | zero =>
    have superseded : answer n = true := h.found (Nat.succ_pos _)
    rw [wanted] at superseded
    cases superseded
  | succ later =>
    have shift (i : ℕ) : n + 1 + i = n + (i + 1) := by omega
    refine ⟨later, rfl, Nat.le_of_succ_le_succ h.le, fun i hi => ?_, fun hl => ?_⟩
    · rw [shift]
      exact h.quiet (i + 1) (Nat.succ_lt_succ hi)
    · rw [shift]
      exact h.found (Nat.succ_lt_succ hl)

/-- What is found during the first looks is found among them. -/
theorem start {more : ℕ} (h : Calm answer n (looks + more) calm) (hl : calm < looks) :
    Calm answer n looks calm :=
  ⟨hl.le, h.quiet, fun _ => h.found (Nat.lt_add_right more hl)⟩

/-- What is not found during the first looks leaves them all calm, -/
theorem whole {more : ℕ} (h : Calm answer n (looks + more) (looks + calm)) :
    Calm answer n looks looks :=
  ⟨Nat.le_refl _, fun i hi => h.quiet i (Nat.lt_add_right calm hi), fun h => absurd h (lt_irrefl _)⟩

/-- and is found among the later ones. -/
theorem later {more : ℕ} (h : Calm answer n (looks + more) (looks + calm)) :
    Calm answer (n + looks) more calm := by
  refine ⟨Nat.le_of_add_le_add_left h.le, fun i hi => ?_, fun hl => ?_⟩
  · rw [Nat.add_assoc]
    exact h.quiet (looks + i) (Nat.add_lt_add_left hi looks)
  · rw [Nat.add_assoc]
    exact h.found (Nat.add_lt_add_left hl looks)

end Calm

/-! ## 2. The rays of a heading -/

/-- How marching ends, by whether its visits were absorbed and whether it was found to be
    superseded. -/
def endingOf (absorbed superseded : Bool) : Ending :=
  if absorbed then if superseded then .withdrawn else .complete else .strayed

theorem endingOf_superseded_ne (absorbed : Bool) : endingOf absorbed true ≠ .complete := by
  cases absorbed <;> decide

theorem endingOf_eq_strayed {absorbed superseded : Bool} :
    endingOf absorbed superseded = .strayed ↔ absorbed = false := by
  cases absorbed <;> cases superseded <;> decide

variable (slopes : Slopes) (launch : Launch)

/-- What a launch point adds to a tally. -/
theorem absorb_rayVisits (step start : Point) (t : Tally) :
    t.absorb (rayVisits slopes launch step start)
      = if launch.reaches start step then t.absorb (Ray.visits slopes launch step start)
        else (t, true) := by
  unfold rayVisits
  split <;> rfl

/-- **The rays of a heading stop before the first that is superseded**, and leave the visits of those
    before it. -/
theorem answered_marchRays {answer : ℕ → Bool} (step : Point) {starts : List Point} {n calm : ℕ}
    (h : Calm answer n starts.length calm) (t : Tally) :
    let absorbed := t.absorb ((starts.take calm).flatMap (rayVisits slopes launch step))
    ∃ looks, (marchRays slopes launch step starts t).answered answer n
        = ((absorbed.1, endingOf absorbed.2 (calm < starts.length)), looks) ∧
      (absorbed.2 = true → calm = starts.length → looks = n + calm) := by
  induction starts generalizing n calm t with
  | nil =>
    obtain rfl : calm = 0 := Nat.le_zero.mp h.le
    exact ⟨n, rfl, fun _ _ => rfl⟩
  | cons start rest ih =>
    have course : (marchRays slopes launch step (start :: rest) t).answered answer n
        = (if answer n then Course.done (t, Ending.withdrawn)
          else if (t.absorb (rayVisits slopes launch step start)).2 then
            marchRays slopes launch step rest (t.absorb (rayVisits slopes launch step start)).1
          else .done ((t.absorb (rayVisits slopes launch step start)).1, .strayed)).answered answer
            (n + 1) := by
      rw [marchRays, Course.answered, absorb_rayVisits]
      split
      · rfl
      · split
        · generalize t.absorb (Ray.visits slopes launch step start) = absorbed
          obtain ⟨t', _ | _⟩ := absorbed <;> rfl
        · rfl
    rw [course]
    cases look : answer n with
    | true =>
      obtain rfl := h.eq_zero look
      exact ⟨n + 1, rfl, fun _ done => by cases done⟩
    | false =>
      obtain ⟨later, rfl, hl⟩ := h.tail look
      rw [List.take_succ_cons, List.flatMap_cons, Tally.absorb_append, if_neg Bool.false_ne_true]
      obtain ⟨t', all⟩ := t.absorb (rayVisits slopes launch step start)
      cases all with
      | false => exact ⟨n + 1, rfl, fun done => by cases done⟩
      | true =>
        obtain ⟨looks, e, whole⟩ := ih hl t'
        refine ⟨looks, ?_, fun all len => ?_⟩
        · simpa [Nat.succ_lt_succ_iff] using e
        · rw [whole all (Nat.succ.inj len), Nat.add_right_comm, Nat.add_assoc]

/-! ## 3. Headings one after the other -/

/-- The visits of all rays of the first `k` headings, and of the first `j` launch points of the next
    one. -/
def visitsBefore (headings : List Heading) (k j : ℕ) : List Visit :=
  (headings.take k).flatMap (headingVisits slopes launch) ++
    headings[k]?.toList.flatMap fun heading =>
      (launch.points.take j).flatMap (rayVisits slopes launch heading.opposite.step)

/-- Where a heading and one of its rays are in a sweep. -/
structure IsPlace (launch : Launch) (headings : List Heading) (k j : ℕ) : Prop where
  le : k ≤ headings.length
  within : k < headings.length → j < launch.points.length
  past : k = headings.length → j = 0

section Headings

variable {slopes launch} {answer : ℕ → Bool} {heading : Heading} {rest : List Heading} {t t' : Tally}
  {ending : Ending} {n looks : ℕ}

/-- A heading that is not completed is the last. -/
theorem answered_inOrder_stopped
    (e : (marchHeading slopes launch heading t).answered answer n = ((t', ending), looks))
    (stopped : ending ≠ .complete) :
    (inOrder slopes launch (heading :: rest) t).answered answer n = ((t', 0, ending), looks) := by
  rw [inOrder, Course.answered_bind, e]
  cases ending with
  | complete => exact absurd rfl stopped
  | withdrawn => rfl
  | strayed => rfl

/-- After one that is completed come the others. -/
theorem answered_inOrder_completed
    (e : (marchHeading slopes launch heading t).answered answer n = ((t', .complete), looks))
    {u : Tally} {completed looks' : ℕ}
    (e' : (inOrder slopes launch rest t').answered answer looks = ((u, completed, ending), looks')) :
    (inOrder slopes launch (heading :: rest) t).answered answer n
      = ((u, completed + 1, ending), looks') := by
  rw [inOrder, Course.answered_bind, e]
  dsimp only
  rw [Course.answered_bind, e']
  rfl

end Headings

/-- **Headings one after the other stop before the first ray that is superseded**, and leave the
    visits of those before it. -/
theorem answered_inOrder {answer : ℕ → Bool} {headings : List Heading} {n k j : ℕ}
    (place : IsPlace launch headings k j)
    (h : Calm answer n (headings.length * launch.points.length) (k * launch.points.length + j))
    (t : Tally) :
    let absorbed := t.absorb (visitsBefore slopes launch headings k j)
    ∃ looks completed, (inOrder slopes launch headings t).answered answer n
        = ((absorbed.1, completed, endingOf absorbed.2 (k < headings.length)), looks) ∧
      (absorbed.2 = true → completed = k) := by
  induction headings generalizing n k t with
  | nil =>
    obtain rfl : k = 0 := Nat.le_zero.mp place.le
    exact ⟨n, 0, rfl, fun _ => rfl⟩
  | cons heading rest ih =>
    have total : (heading :: rest).length * launch.points.length
        = launch.points.length + rest.length * launch.points.length := by
      rw [List.length_cons, Nat.succ_mul, Nat.add_comm]
    rw [total] at h
    cases k with
    | zero =>
      -- the heading at hand is the one that is not completed
      have fewer : j < launch.points.length := place.within (Nat.succ_pos _)
      rw [Nat.zero_mul, Nat.zero_add] at h
      obtain ⟨looks, e, -⟩ := answered_marchRays slopes launch heading.opposite.step
        (h.start fewer) t
      have visits : visitsBefore slopes launch (heading :: rest) 0 j
          = (launch.points.take j).flatMap (rayVisits slopes launch heading.opposite.step) := by
        simp [visitsBefore]
      rw [decide_eq_true fewer] at e
      dsimp only
      rw [visits, decide_eq_true (show 0 < (heading :: rest).length from Nat.succ_pos _)]
      refine ⟨looks, 0, answered_inOrder_stopped e ?_, fun _ => rfl⟩
      exact endingOf_superseded_ne _
    | succ k =>
      have sum : (k + 1) * launch.points.length + j
          = launch.points.length + (k * launch.points.length + j) := by
        rw [Nat.succ_mul]
        omega
      have place' : IsPlace launch rest k j :=
        ⟨Nat.le_of_succ_le_succ place.le, fun hk => place.within (Nat.succ_lt_succ hk),
          fun hk => place.past (congrArg Nat.succ hk)⟩
      have visits : visitsBefore slopes launch (heading :: rest) (k + 1) j
          = headingVisits slopes launch heading ++ visitsBefore slopes launch rest k j := by
        simp [visitsBefore]
      rw [sum] at h
      obtain ⟨looks, e, next⟩ := answered_marchRays slopes launch heading.opposite.step h.whole t
      rw [List.take_length, ← headingVisits] at e next
      rw [decide_eq_false (lt_irrefl _)] at e
      dsimp only
      rw [visits, Tally.absorb_append]
      generalize t.absorb (headingVisits slopes launch heading) = first at e next ⊢
      obtain ⟨t', all⟩ := first
      cases all with
      | false =>
        have strayed : endingOf false false ≠ .complete := by decide
        exact ⟨looks, 0, answered_inOrder_stopped e strayed, fun done => by cases done⟩
      | true =>
        obtain rfl := next rfl rfl
        obtain ⟨looks, completed, e', counted⟩ := ih place' h.later t'
        refine ⟨looks, completed + 1, ?_, fun all => congrArg Nat.succ (counted all)⟩
        rw [if_pos rfl, answered_inOrder_completed e e']
        simp

/-- The rays of a sweep are numbered in turn. -/
theorem exists_place (launch : Launch) (headings : List Heading) {calm : ℕ}
    (h : calm ≤ headings.length * launch.points.length) :
    ∃ k j, IsPlace launch headings k j ∧
      (calm < headings.length * launch.points.length ∨ k = headings.length) ∧
      k * launch.points.length + j = calm := by
  rcases Nat.lt_or_eq_of_le h with early | rfl
  · have launched : 0 < launch.points.length := Nat.pos_of_mul_pos_left (Nat.zero_lt_of_lt early)
    have within : calm / launch.points.length < headings.length :=
      (Nat.div_lt_iff_lt_mul launched).mpr early
    exact ⟨calm / launch.points.length, calm % launch.points.length,
      ⟨within.le, fun _ => Nat.mod_lt _ launched, fun e => absurd e within.ne⟩, .inl early,
      Nat.div_add_mod' _ _⟩
  · exact ⟨headings.length, 0, ⟨Nat.le_refl _, fun h => absurd h (lt_irrefl _), fun _ => rfl⟩,
      .inr rfl, rfl⟩

/-- Every visit before a place names a pixel of the field. -/
theorem slot_lt_of_mem_visitsBefore {headings : List Heading} {k j : ℕ} {v : Visit}
    (h : v ∈ visitsBefore slopes launch headings k j) : v.slot < slopes.extent.area := by
  rcases List.mem_append.mp h with h | h
  · obtain ⟨heading, -, h⟩ := List.mem_flatMap.mp h
    obtain ⟨start, -, h⟩ := List.mem_flatMap.mp h
    exact slot_lt_of_mem_rayVisits h
  · obtain ⟨heading, -, h⟩ := List.mem_flatMap.mp h
    obtain ⟨start, -, h⟩ := List.mem_flatMap.mp h
    exact slot_lt_of_mem_rayVisits h

/-- **Headings one after the other stop somewhere**, at the first ray that is superseded or at the
    end. -/
theorem exists_stop (answer : ℕ → Bool) (headings : List Heading) (n : ℕ) (t : Tally) :
    ∃ k j, IsPlace launch headings k j ∧
      (∀ i < k * launch.points.length + j, answer (n + i) = false) ∧
      (k < headings.length → answer (n + (k * launch.points.length + j)) = true) ∧
      let absorbed := t.absorb (visitsBefore slopes launch headings k j)
      ∃ completed, ((inOrder slopes launch headings t).answered answer n).1
          = (absorbed.1, completed, endingOf absorbed.2 (k < headings.length)) ∧
        (absorbed.2 = true → completed = k) := by
  obtain ⟨calm, h⟩ := Calm.exists_calm answer n (headings.length * launch.points.length)
  obtain ⟨k, j, place, early, rfl⟩ := exists_place launch headings h.le
  obtain ⟨looks, completed, e, counted⟩ := answered_inOrder slopes launch place h t
  exact ⟨k, j, place, h.quiet, fun hk => h.found (early.resolve_right hk.ne), completed,
    congrArg Prod.fst e, counted⟩

/-- A tally as large as the field has a slot for every visit. -/
theorem absorb_visitsBefore {t : Tally} (large : slopes.extent.area ≤ t.extent.area)
    (headings : List Heading) (k j : ℕ) :
    (t.absorb (visitsBefore slopes launch headings k j)).2 = true :=
  Tally.absorb_of_named fun _ hv =>
    Nat.lt_of_lt_of_le (slot_lt_of_mem_visitsBefore slopes launch hv) large

/-- So no ray strays from it. -/
theorem inOrder_ne_strayed {t : Tally} (large : slopes.extent.area ≤ t.extent.area)
    (headings : List Heading) (answer : ℕ → Bool) (n : ℕ) :
    ((inOrder slopes launch headings t).answered answer n).1.2.2 ≠ .strayed := by
  obtain ⟨k, j, -, -, -, completed, e, -⟩ := exists_stop slopes launch answer headings n t
  rw [e, absorb_visitsBefore slopes launch large]
  exact fun strayed => Bool.false_ne_true (endingOf_eq_strayed.mp strayed).symm

/-! ## 4. A token that goes stale -/

/-- The answers of looks at a token, whose generation has been advanced `times i` times when look `i`
    is taken. -/
def staleAt (issued : Generations) (gen : Generation) (times : ℕ → ℕ) (i : ℕ) : Bool :=
  (issued.advanceBy gen (times i)).isStale (issued.issue gen)

/-- **Headings one after the other stop between two rays, and count what they have completed.**
    Whenever their token goes stale: the tally has all visits of the first `k` headings and of the
    first `j` launch points of the next one, and no others, where the rays before that place were
    launched while the token was still fresh and the ray at that place was the first for which it was
    stale. They answer `k`, unless a visit names no slot of the tally, and of a tally as large as the
    field all of them do. A token that is stale on entry leaves the tally as it is, and under one that
    never goes stale every heading is completed. -/
theorem inOrder_stops_between_rays (slopes : Slopes) (launch : Launch) (headings : List Heading)
    (t : Tally) (issued : Generations) (gen : Generation) (times : ℕ → ℕ) :
    ∃ k j, IsPlace launch headings k j ∧
      (∀ i < k * launch.points.length + j, staleAt issued gen times i = false) ∧
      (k < headings.length →
        staleAt issued gen times (k * launch.points.length + j) = true) ∧
      (let absorbed := t.absorb (visitsBefore slopes launch headings k j)
       let ran := ((inOrder slopes launch headings t).answered (staleAt issued gen times) 0).1
       ran.1 = absorbed.1 ∧ (ran.2.2 = .strayed ↔ absorbed.2 = false) ∧
        (absorbed.2 = true →
          ran.2 = (k, if k < headings.length then .withdrawn else .complete)) ∧
        (slopes.extent.area ≤ t.extent.area → absorbed.2 = true) ∧
        (∀ entry ≤ times 0, times 0 < 2 ^ 64 → launch.points ≠ [] →
          (issued.advanceBy gen entry).isStale (issued.issue gen) = true →
          k = 0 ∧ j = 0 ∧ ran.1 = t)) ∧
      ((∀ i, staleAt issued gen times i = false) → k = headings.length) := by
  obtain ⟨k, j, place, quiet, found, completed, e, counted⟩ :=
    exists_stop slopes launch (staleAt issued gen times) headings 0 t
  simp only [Nat.zero_add] at quiet found
  refine ⟨k, j, place, quiet, found, ?_, fun fresh => ?_⟩
  · intro absorbed ran
    have ran_eq : ran = (absorbed.1, completed, endingOf absorbed.2 (k < headings.length)) := e
    rw [ran_eq]
    refine ⟨rfl, endingOf_eq_strayed, fun all => ?_, fun large => ?_,
      fun entry hle hlt points stale => ?_⟩
    · rw [counted all, all]
      by_cases hk : k < headings.length <;> simp [endingOf, hk]
    · exact absorb_visitsBefore slopes launch large headings k j
    · have first : k * launch.points.length + j = 0 := by
        refine Nat.eq_zero_of_not_pos fun later => ?_
        have superseded := Generations.stale_mono stale hle hlt
        rw [← staleAt, quiet 0 later] at superseded
        cases superseded
      obtain ⟨zero, rfl⟩ := Nat.add_eq_zero_iff.mp first
      obtain rfl : k = 0 := (Nat.mul_eq_zero.mp zero).resolve_right fun len =>
        points (List.length_eq_zero_iff.mp len)
      refine ⟨rfl, rfl, ?_⟩
      have nothing : visitsBefore slopes launch headings 0 0 = [] := by simp [visitsBefore]
      show (t.absorb (visitsBefore slopes launch headings 0 0)).1 = t
      rw [nothing]
      rfl
  · refine Nat.le_antisymm place.le (Nat.le_of_not_lt fun hk => ?_)
    have stale := found hk
    rw [fresh] at stale
    cases stale

/-- Three headings over the ridge have six rays each. Their token goes stale between the seventh ray
    and the eighth, so that the first heading is completed, and one ray of the second is marched. -/
theorem ridge_stops_between_rays :
    Crew.pair.launch.points ≠ [] ∧
    ∃ t, ((inOrder Crew.ridge Crew.pair.launch Crew.pair.sweep.headings (.new ⟨2, 1⟩)).answered
        (staleAt ⟨#[0]⟩ ⟨0⟩ fun i => if i < 7 then 0 else 1) 0).1 = (t, 1, .withdrawn) ∧
      t.counts = #[2, 2] := by
  have points : Crew.pair.launch.points.length = 6 := by decide +kernel
  have launched : Crew.pair.launch.points ≠ [] := fun empty => by
    rw [empty] at points
    cases points
  have stale (i : ℕ) : staleAt ⟨#[0]⟩ ⟨0⟩ (fun i => if i < 7 then 0 else 1) i
      = decide (7 ≤ i) := by
    unfold staleAt
    dsimp only
    by_cases hi : i < 7
    · rw [if_pos hi, decide_eq_false (Nat.not_le.mpr hi)]
      rfl
    · rw [if_neg hi, decide_eq_true (Nat.le_of_not_lt hi)]
      rfl
  obtain ⟨k, j, place, quiet, found, ⟨tally, -, counted, large, -⟩, -⟩ :=
    inOrder_stops_between_rays Crew.ridge Crew.pair.launch Crew.pair.sweep.headings (.new ⟨2, 1⟩)
      ⟨#[0]⟩ ⟨0⟩ fun i => if i < 7 then 0 else 1
  have three : Crew.pair.sweep.headings.length = 3 := rfl
  have early : k < 3 := by
    refine Nat.lt_of_le_of_ne place.le fun e => ?_
    have calm := quiet 7 (by rw [points, e]; omega)
    rw [stale] at calm
    cases calm
  have late : 7 ≤ k * 6 + j := by
    have superseded := found early
    rw [stale, points] at superseded
    exact of_decide_eq_true superseded
  have soon : k * 6 + j ≤ 7 := by
    by_contra more
    have calm := quiet 7 (by rw [points]; omega)
    rw [stale] at calm
    cases calm
  have within := place.within early
  rw [points] at within
  obtain rfl : k = 1 := by omega
  obtain rfl : j = 1 := by omega
  have ends := counted (large (Nat.le_refl _))
  rw [three, if_pos early] at ends
  generalize ((inOrder _ _ _ _).answered _ 0).1 = ran at tally ends ⊢
  refine ⟨launched, ran.1, Prod.ext rfl ends, ?_⟩
  rw [tally]
  decide +kernel

end Integration

end Relief
