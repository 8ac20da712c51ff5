import Relief.Proofs.Depth.Parallel

/-!
# Integration that is superseded

The generation of a crew's token may be advanced at any moment, so that anybody may find the token
stale before anybody else does.

* `integration_is_whole_or_none`: **what a crew returns is a whole integration or none**, and
  nothing is added to the tally after the return. It fails only where the machine does not start the
  threads of its workers.
-/

namespace Relief.Crew

open Contributions Integration

/-- Whether a step is one of those that an addition to the tally is made of. -/
def Move.isAdd : Move → Bool
  | .act _ (.sum _) | .act _ (.count _) | .raise _ => true
  | _ => false

/-- **What a superseded crew returns is a whole integration or none.** However often the generation
    is advanced between the issue of the token and the return, as long as it is fewer than `2 ^ 64`
    times: if the integration is completed, every worker has launched all rays of its share, and the
    numbers are those of a crew that nobody disturbs. It fails only for want of threads for its
    workers. After the return nothing is added. So the task, which returns what one of the runs
    returns, keeps to it before every observer who does not take a withdrawal back. -/
theorem integration_is_whole_or_none (slopes : Slopes) (sweep : Sweep) (launch : Launch)
    (threading : Threading) (processors : Processors) (hthreads : threading.threads ≠ some 0) :
    ∃ workers, workerCount threading processors.count sweep.length = .ok workers ∧
      (∀ (issued : Generations) (gen : Generation) (before : Nat) (trace : List Move) (s : State)
          (outcome : Outcome),
        let c : Crew :=
          { slopes, sweep, launch, workers, token := issued.issue gen
            shortage? := processors.shortage? workers }
        Run c (fun _ => True) (c.start (issued.advanceBy gen before)) trace s →
        before + cancels trace < 2 ^ 64 → s.phase = .returned outcome →
          (∀ stats, outcome = .completed stats →
            (∀ i < workers, (own i (deeds trace)).filterMap Act.launched?
              = (c.share i).flatMap fun heading =>
                  launch.points.map fun start => (heading, start)) ∧
            s.tally.Agrees (planned slopes launch sweep) ∧
            stats.integrated = sweep.length ∧ stats.planned = sweep.length) ∧
          (∀ reason, outcome = .unmanned reason → 0 < workers ∧
            processors.shortage? workers = some reason) ∧
          (∀ i, outcome ≠ .failed i) ∧
          ∀ later s', Run c (fun _ => True) s later s' →
            (∀ m ∈ later, m.isAdd = false) ∧ s'.tally = s.tally) ∧
      ∀ (σ : Type) (o : Course.Observer σ) (s : σ), o.Persists →
        ((task slopes sweep launch threading processors).follow o s).1 = .ok none ∨
        (∃ reason, ((task slopes sweep launch threading processors).follow o s).1
            = .error (.noWorkerThreads reason) ∧
          Lacks threading processors sweep.length reason) ∨
        ∃ r, ((task slopes sweep launch threading processors).follow o s).1 = .ok (some r) ∧
          r.tally.Agrees (planned slopes launch sweep) ∧
          r.stats.integrated = sweep.length ∧ r.stats.planned = sweep.length := by
  obtain ⟨workers, count, zero⟩ := exists_workerCount hthreads processors.count sweep.length
  have inTurn := holds_planned slopes launch sweep
  refine ⟨workers, count, ?_, ?_⟩
  · intro issued gen before trace s outcome c run few hp
    refine ⟨?_, ?_, ?_, ?_⟩
    · rintro stats rfl
      have nobody : c.workers = 0 → c.sweep.headings = [] :=
        fun hn => List.length_eq_zero_iff.mp (zero.mp hn)
      have completes := Run.completes_of_few rfl run nobody few hp
      refine ⟨fun i hi => ?_, completes.tally.agrees inTurn, completes.integrated,
        completes.planned⟩
      rw [completes.deeds i hi]
      exact c.launched_program i
    · rintro reason rfl
      exact run.shortage hp
    · rintro i rfl
      exact run.not_failed hp
    · intro later s' after
      obtain ⟨cancelled, _, tally⟩ := run.rests hp after
      exact ⟨fun m hm => by rw [cancelled m hm]; rfl, tally⟩
  · intro σ o s ho
    rcases follow_task ho slopes sweep launch hthreads processors s with
      ⟨gaveUp, _⟩ | failed | ⟨r, e, done⟩
    · exact .inl gaveUp
    · exact .inr (.inl failed)
    · exact .inr (.inr ⟨r, e, done.tally.agrees inTurn, done.integrated, done.planned⟩)

/-- Two workers whose generation is advanced while they are called return a whole integration or
    none. -/
theorem pair_is_whole_or_none :
    (Threading.mk (some 2) 4).threads ≠ some 0 ∧
    ∃ trace s outcome, Run pair (fun _ => True) (pair.start ⟨#[0]⟩) ([.lead, .cancel] ++ trace) s ∧
      s.phase = .returned outcome ∧ (∀ i, outcome ≠ .failed i) ∧
      ∀ stats, outcome = .completed stats → s.tally.sums = #[-1, -110] := by
  have asked : (Threading.mk (some 2) 4).threads ≠ some 0 := by decide
  obtain ⟨workers, count, runs, _⟩ :=
    integration_is_whole_or_none pair.slopes pair.sweep pair.launch ⟨some 2, 4⟩ 4 asked
  obtain rfl : 2 = workers := Except.ok.inj count
  have begin : Run pair (fun _ => True) (pair.start ⟨#[0]⟩) [] (pair.start ⟨#[0]⟩) :=
    .rest _ trivial
  have entered := (begin.step (.lead _ _ _ (.enter _ rfl (by decide) rfl rfl)) trivial).step
    (.cancel _) trivial
  obtain ⟨later, s, outcome, run, hp, quiet⟩ := entered.can_return fun _ _ _ _ => trivial
  have few : 0 + cancels ([] ++ [.lead] ++ [.cancel] ++ later) < 2 ^ 64 := by
    have fresh : cancels later = 0 := by
      refine List.countP_eq_zero.mpr fun m hm => ?_
      have calm := quiet m hm
      cases hc : m.isCancel with
      | false => exact Bool.false_ne_true
      | true =>
        rw [Move.allowance, hc, if_pos rfl] at calm
        omega
    rw [cancels, List.countP_append, ← cancels, ← cancels, fresh]
    decide
  obtain ⟨whole, _, sound, _⟩ := runs ⟨#[0]⟩ ⟨0⟩ 0 _ s outcome run few hp
  refine ⟨asked, later, s, outcome, run, hp, sound, fun stats hs => ?_⟩
  rw [(whole stats hs).2.1.sums]
  decide +kernel

end Relief.Crew
