import Relief.Proofs.Depth.Coverage
import Relief.Proofs.Depth.Parallel
import Relief.Run.Watch

/-!
# Integration that is superseded when it is called

The token may have gone stale before anything has begun. A coordinator with workers looks at it
before starting the first of them; one without workers returns before it looks.

* `Crew.refusal`: what a crew answers that is called under a stale token;
* `Crew.Run.refused`: such a crew starts nobody, and **answers nothing else**, and `Crew.can_refuse`:
  its coordinator can give the answer at once;
* `Integration.follow_task_refused`: before an observer who has superseded it already, the task gives
  the same answer;
* `stale_token_turns_headings_away`: so **wherever there is a heading there is no result**, and
  `empty_sweep_is_not_turned_away`: a sweep without headings has one, although it is superseded.
-/

namespace Relief

open Integration

namespace Crew

/-! ## 1. Crews -/

/-- What a crew answers that is called under a stale token. Without workers nobody looks. -/
def refusal (c : Crew) : Outcome :=
  if c.workers = 0 then .completed (statsOf c.sweep c.launch 0) else .superseded

variable {c : Crew} {trace : List Move} {s : State}

/-- The coordinator turns away what is superseded, before it has started a worker. -/
theorem Leads.refused {s' : State} {m : Move} (hphase : s.phase = .entering)
    (stale : s.isStale c = true) (h : Leads c s m s') :
    m = .lead ∧ s'.tally = s.tally ∧ s'.phase = .returned c.refusal := by
  cases h with
  | nobody _ hn => exact ⟨rfl, rfl, by rw [refusal, if_pos hn]⟩
  | turnAway _ hn _ => exact ⟨rfl, rfl, by rw [refusal, if_neg hn.ne']⟩
  | unmanned _ _ _ fresh _ =>
    rw [stale] at fresh
    cases fresh
  | enter _ _ fresh _ =>
    rw [stale] at fresh
    cases fresh
  | _ => simp_all

/-- It can do so at once. -/
theorem can_refuse (hphase : s.phase = .entering) (stale : s.isStale c = true) :
    ∃ s', Step c s .lead s' ∧ s'.phase = .returned c.refusal := by
  rcases Nat.eq_zero_or_pos c.workers with hn | hn
  · have lead : Leads c s .lead _ := .nobody s hphase hn
    exact ⟨_, .lead _ _ _ lead, (lead.refused hphase stale).2.2⟩
  · have lead : Leads c s .lead _ := .turnAway s hphase hn stale
    exact ⟨_, .lead _ _ _ lead, (lead.refused hphase stale).2.2⟩

section Stale

variable {issued : Generations} {gen : Generation} {before : ℕ} {kind : State → Prop}
  (ht : c.token = issued.issue gen)
  (stale : (issued.advanceBy gen before).isStale c.token = true)
  (h : Run c kind (c.start (issued.advanceBy gen before)) trace s)
  (few : before + cancels trace < 2 ^ 64)
include ht stale h few

/-- What is stale when a crew is called stays so. -/
theorem Run.still_stale : s.isStale c = true := by
  rw [ht] at stale
  rw [State.isStale, h.generations ht, ht]
  exact Generations.stale_mono stale (Nat.le_add_right _ _) few

/-- **A crew that is called under a stale token starts nobody, and answers nothing but its
    refusal.** -/
theorem Run.refused :
    (∀ m ∈ trace, m = .lead ∨ m = .cancel) ∧ s.tally = .new c.slopes.extent ∧
      (s.phase = .entering ∧ s.started = 0 ∨ s.phase = .returned c.refusal) := by
  induction h with
  | rest => exact ⟨by simp, rfl, .inl ⟨rfl, rfl⟩⟩
  | @step s' s'' trace m hrun hs hk ih =>
    rw [cancels_append] at few
    have fewer : before + cancels trace < 2 ^ 64 := by omega
    obtain ⟨quiet, tally, phase⟩ := ih fewer
    have all (hm : m = .lead ∨ m = .cancel) : ∀ m' ∈ trace ++ [m], m' = .lead ∨ m' = .cancel := by
      intro m' hm'
      rcases List.mem_append.mp hm' with hm' | hm'
      · exact quiet m' hm'
      · exact List.mem_singleton.mp hm' ▸ hm
    rcases phase with ⟨entering, idle⟩ | returned
    · cases hs with
      | work i m w t hi hw =>
        rw [idle] at hi
        cases hi
      | lead s'' m hl =>
        obtain ⟨rfl, same, refused⟩ := hl.refused entering (hrun.still_stale ht stale fewer)
        exact ⟨all (.inl rfl), same.trans tally, .inr refused⟩
      | cancel => exact ⟨all (.inr rfl), tally, .inl ⟨entering, idle⟩⟩
    · obtain ⟨rfl, stays, same⟩ := (inv_run hrun).rests returned hs
      exact ⟨all (.inr rfl), same.trans tally, .inr stays⟩

end Stale

end Crew

/-! ## 2. The task -/

namespace Integration

/-- What the task answers that is superseded when it is called. -/
def refusal (slopes : Slopes) (sweep : Sweep) (launch : Launch) : Option Integration :=
  if sweep.length = 0 then some ⟨.new slopes.extent, statsOf sweep launch 0⟩ else none

/-- **A task that is superseded when it is called answers nothing else.** -/
theorem follow_task_refused {σ : Type} {o : Course.Observer σ} (ho : o.Persists) {x : σ}
    (hx : o.answer x = true) (slopes : Slopes) (sweep : Sweep) (launch : Launch)
    {threading : Threading} (hthreads : threading.threads ≠ some 0) (processors : Processors) :
    ((task slopes sweep launch threading processors).follow o x).1
      = .ok (refusal slopes sweep launch) := by
  obtain ⟨workers, count, zero⟩ := exists_workerCount hthreads processors.count sweep.length
  have told := ho x (.integrationBegins sweep.length slopes.extent) hx
  rw [follow_task_eq, refusal]
  rcases Nat.eq_zero_or_pos workers with hn | hn
  · rw [conduct, count, hn, if_pos (zero.mp hn)]
    rfl
  · rw [conduct_of_pos slopes launch sweep count hn,
      follow_coordinate_superseded slopes launch o sweep _ workers told,
      if_neg fun empty => hn.ne' (zero.mpr empty)]

end Integration

/-! ## 3. Both -/

/-- **Under a stale token, a sweep with headings is not integrated.** Whatever the field, the launch
    points and the number of workers asked for: a crew whose token is stale when it is called starts no
    worker and leaves its tally new, its coordinator can return at once, and it returns that it has been
    superseded if there is a heading, and an integration of nothing if there is none. So does the
    task. -/
theorem stale_token_turns_headings_away (slopes : Slopes) (sweep : Sweep) (launch : Launch)
    (threading : Threading) (processors : Processors) (hthreads : threading.threads ≠ some 0) :
    ∃ workers, workerCount threading processors.count sweep.length = .ok workers ∧
      (∀ (issued : Generations) (gen : Generation) (before : ℕ) (trace : List Crew.Move)
          (s : Crew.State),
        let c : Crew :=
          { slopes, sweep, launch, workers, token := issued.issue gen
            shortage? := processors.shortage? workers }
        (issued.advanceBy gen before).isStale c.token = true →
        Crew.Run c (fun _ => True) (c.start (issued.advanceBy gen before)) trace s →
        before + Crew.cancels trace < 2 ^ 64 →
          (∀ m ∈ trace, m = .lead ∨ m = .cancel) ∧ s.tally = .new slopes.extent ∧
          ((∃ outcome, s.phase = .returned outcome) ∨
            ∃ s' outcome, Crew.Step c s .lead s' ∧ s'.phase = .returned outcome) ∧
          ∀ outcome, s.phase = .returned outcome →
            outcome = if sweep.length = 0 then .completed (statsOf sweep launch 0)
              else .superseded) ∧
      ∀ (σ : Type) (o : Course.Observer σ) (s : σ), o.Persists → o.answer s = true →
        ((task slopes sweep launch threading processors).follow o s).1
          = .ok (if sweep.length = 0 then some ⟨.new slopes.extent, statsOf sweep launch 0⟩
              else none) := by
  obtain ⟨workers, count, zero⟩ := exists_workerCount hthreads processors.count sweep.length
  refine ⟨workers, count, ?_,
    fun σ o s ho hs => follow_task_refused ho hs slopes sweep launch hthreads processors⟩
  intro issued gen before trace s c stale run few
  have refusal : c.refusal = if sweep.length = 0 then .completed (statsOf sweep launch 0)
      else .superseded := by
    rw [Crew.refusal]
    exact if_congr zero rfl rfl
  obtain ⟨quiet, tally, phase⟩ := run.refused rfl stale few
  refine ⟨quiet, tally, ?_, fun outcome hp => ?_⟩
  · rcases phase with ⟨entering, -⟩ | returned
    · obtain ⟨s', step, refused⟩ := Crew.can_refuse entering (run.still_stale rfl stale few)
      exact .inr ⟨s', c.refusal, step, refused⟩
    · exact .inl ⟨_, returned⟩
  · rcases phase with ⟨entering, -⟩ | returned
    · rw [entering] at hp
      cases hp
    · rw [returned] at hp
      cases hp
      exact refusal

/-- Two workers whose generation has been advanced before they are called are turned away, and so is
    their task before somebody who has superseded it already. -/
theorem pair_is_turned_away :
    (Threading.mk (some 2) 4).threads ≠ some 0 ∧
    ∃ s, Crew.Run Crew.pair (fun _ => True) (Crew.pair.start ⟨#[1]⟩) [.lead] s ∧
      s.phase = .returned .superseded ∧ s.tally = .new ⟨2, 1⟩ ∧
      ((task Crew.ridge Crew.pair.sweep Crew.pair.launch ⟨some 2, 4⟩ 4).follow
        (⟨fun x _ => x, fun _ => true⟩ : Course.Observer Unit) ()).1 = .ok none := by
  have asked : (Threading.mk (some 2) 4).threads ≠ some 0 := by decide
  obtain ⟨workers, count, runs, tasks⟩ :=
    stale_token_turns_headings_away Crew.ridge Crew.pair.sweep Crew.pair.launch ⟨some 2, 4⟩ 4 asked
  obtain rfl : 2 = workers := Except.ok.inj count
  have stale : (Generations.advanceBy ⟨#[0]⟩ ⟨0⟩ 1).isStale Crew.pair.token = true := by decide
  have called : Crew.Run Crew.pair (fun _ => True) (Crew.pair.start ⟨#[1]⟩) [] _ := .rest _ trivial
  obtain ⟨s, step, refused⟩ :=
    Crew.can_refuse (c := Crew.pair) (s := Crew.pair.start ⟨#[1]⟩) rfl stale
  have run := called.step step trivial
  obtain ⟨-, tally, -, answer⟩ := runs ⟨#[0]⟩ ⟨0⟩ 1 _ s stale run (by decide)
  refine ⟨asked, s, run, ?_, tally, ?_⟩
  · rw [refused]
    exact congrArg Crew.Phase.returned (answer _ refused)
  · exact tasks Unit _ () (fun _ _ h => h) rfl

/-- **A sweep without headings is not turned away**: under a token that has gone stale before the call,
    it is integrated all the same. -/
theorem empty_sweep_is_not_turned_away :
    let token : Token := ⟨⟨0⟩, 0⟩
    let watch : Watch := { Watch.new with generations := ⟨#[1]⟩ }
    (Threading.mk (some 1) 5).threads ≠ some 0 ∧ watch.generations.isStale token = true ∧
      ∃ r, (watch.run token
          (task Crew.column ⟨[]⟩ (.plan ⟨1, 4⟩ .rectangular) ⟨some 1, 5⟩ 4)).1 = .ok (some r) ∧
        r.tally.counts = #[0, 0, 0, 0] ∧ r.stats.planned = 0 := by
  intro token watch
  have asked : (Threading.mk (some 1) 5).threads ≠ some 0 := by decide
  exact ⟨asked, by decide, _, rfl, rfl, rfl⟩

end Relief
