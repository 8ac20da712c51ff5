import Relief.Proofs.Depth.Return
import Relief.Proofs.Depth.Schedule

/-!
# Integration in parallel

A crew of any size, in any interleaving of its steps, leaves the numbers that one worker leaves who
marches the sweep in its planned order. So do batches of the headings in any order.

* `integration_agrees_with_planned`: **all of them agree, and none but a superseded crew stops
  short of it**, as long as the machine starts the threads of its workers.
-/

namespace Relief.Crew

open Integration

/-- **Integration in parallel agrees with integration in turn.** On a machine that starts the
    threads of its workers, a crew whose token is never stale takes a bounded number of steps, apart
    from those in which its coordinator waits in vain, and is never stuck before it returns. What it
    returns is a completed integration with the numbers of the planned order, whoever took which
    step when. The task, where the workers take turns, returns it too, and headings in any order and
    any batches leave the same numbers. -/
theorem integration_agrees_with_planned (slopes : Slopes) (sweep : Sweep) (launch : Launch)
    (threading : Threading) (processors : Processors) (hthreads : threading.threads ≠ some 0)
    (manned : ∀ reason, ¬ Lacks threading processors sweep.length reason) :
    ∃ workers, workerCount threading processors.count sweep.length = .ok workers ∧
      (∀ (token : Token) (g : Generations) (trace : List Move) (s : State),
        let c : Crew :=
          { slopes, sweep, launch, workers, token, shortage? := processors.shortage? workers }
        Run c (fun s => s.isStale c = false) (c.start g) trace s →
          trace.length ≤ (c.start g).remaining c + 3 * timeOuts trace + cancels trace ∧
          ((∀ outcome, s.phase ≠ .returned outcome) →
            ∃ m s', Step c s m s' ∧ m ≠ .timeOut ∧ m ≠ .cancel) ∧
          ∀ outcome, s.phase = .returned outcome →
            ∃ stats, outcome = .completed stats ∧ s.tally.Agrees (planned slopes launch sweep) ∧
              stats.integrated = sweep.length ∧ stats.planned = sweep.length) ∧
      (∃ r, (task slopes sweep launch threading processors).result = .ok (some r) ∧
        r.tally.Agrees (planned slopes launch sweep) ∧
        r.stats.integrated = sweep.length ∧ r.stats.planned = sweep.length) ∧
      ∀ batches : List (List Heading), batches.flatten.Perm sweep.headings →
        (inBatches slopes launch batches (.new slopes.extent)).Agrees
          (planned slopes launch sweep) := by
  obtain ⟨workers, count, zero⟩ := exists_workerCount hthreads processors.count sweep.length
  have inTurn := holds_planned slopes launch sweep
  refine ⟨workers, count, ?_, ?_, ?_⟩
  · intro token g trace s c run
    refine ⟨?_, ?_, ?_⟩
    · have bound := run.length_le
      omega
    · intro hp
      obtain ⟨m, s', step, allowance⟩ := (inv_run run).enabled hp
      refine ⟨m, s', step, ?_, ?_⟩ <;> (rintro rfl; exact absurd allowance (by decide))
    · intro outcome hp
      obtain ⟨stats, rfl⟩ := run.completed_of_calm (shortage?_of_manned manned count) hp
      have nobody : c.workers = 0 → c.sweep.headings = [] :=
        fun hn => List.length_eq_zero_iff.mp (zero.mp hn)
      have completes := run.completes nobody
        (fun before s' _ run' sighted => by
          rw [run'.not_isSighted] at sighted
          cases sighted) hp
      exact ⟨stats, rfl, completes.tally.agrees inTurn, completes.integrated, completes.planned⟩
  · obtain ⟨r, result, complete⟩ := result_task slopes sweep launch hthreads manned
    exact ⟨r, result, complete.tally.agrees inTurn, complete.integrated, complete.planned⟩
  · intro batches hb
    have batched := holds_inBatches slopes launch batches (Tally.holds_new slopes.extent)
    exact (batched.perm (hb.flatMap_right _)).agrees inTurn

/-- A row of two pixels with different slopes. -/
def ridge : Slopes where
  image :=
    { width := 2
      height := 1
      pixels := #[⟨200, 127, 255, 255⟩, ⟨128, 90, 255, 255⟩]
      size_pixels := rfl }

/-- Two workers who march three headings over it, under the first token of a generation. -/
def pair : Crew where
  slopes := ridge
  sweep := ⟨[⟨0⟩, ⟨180⟩, ⟨90⟩]⟩
  launch := .plan ⟨2, 1⟩ .rectangular
  workers := 2
  token := ⟨⟨0⟩, 0⟩
  shortage? := none

/-- Two workers return, and leave the numbers of the planned order. -/
theorem pair_agrees_with_planned :
    (Threading.mk (some 2) 4).threads ≠ some 0 ∧
    (∀ reason, ¬ Lacks ⟨some 2, 4⟩ 4 pair.sweep.length reason) ∧
    ∃ trace s stats, Run pair (fun s => s.isStale pair = false) (pair.start ⟨#[0]⟩) trace s ∧
      s.phase = .returned (.completed stats) ∧ stats.integrated = 3 ∧
      s.tally.sums = #[-1, -110] ∧ s.tally.counts = #[3, 3] := by
  have asked : (Threading.mk (some 2) 4).threads ≠ some 0 := by decide
  have manned : ∀ reason, ¬ Lacks ⟨some 2, 4⟩ 4 pair.sweep.length reason :=
    not_lacks_plenty _ 4 _
  obtain ⟨workers, count, runs, _⟩ :=
    integration_agrees_with_planned pair.slopes pair.sweep pair.launch ⟨some 2, 4⟩ 4 asked manned
  obtain rfl : 2 = workers := Except.ok.inj count
  have begin : Run pair (fun s => s.isStale pair = false) (pair.start ⟨#[0]⟩) []
      (pair.start ⟨#[0]⟩) := .rest _ rfl
  obtain ⟨later, s, outcome, run, hp, _⟩ := begin.can_return fun s s' calm same => by
    rw [State.isStale, same]
    exact calm
  obtain ⟨stats, rfl, agrees, integrated, _⟩ := (runs pair.token ⟨#[0]⟩ _ s run).2.2 outcome hp
  refine ⟨asked, manned, _, s, stats, run, hp, integrated, ?_, ?_⟩
  · rw [agrees.sums]
    decide +kernel
  · rw [agrees.counts]
    decide +kernel

end Relief.Crew
