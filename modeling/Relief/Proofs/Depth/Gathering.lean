import Relief.Proofs.Depth.Bookkeeping
import Relief.Proofs.Run.Staleness

/-!
# What a crew has gathered when it returns

A crew returns once all of its workers are quiet. What it then answers rests on whether anybody has
found the token stale on the way.

* `Inv.gathered`: **where nobody has, all workers have done all of their programs**, the tally holds
  the visits of the whole sweep, and every heading has been counted;
* `Run.rests`: **after the return, nobody but somebody outside takes a step**;
* `Run.completes`: **a completed integration is a whole one**;
* `Run.stale_of_isSighted`: what has been found stale is still stale at the last look, as long as
  the generation is advanced fewer than `2 ^ 64` times.
-/

namespace Relief.Crew

open Contributions Integration

variable {c : Crew} {trace : List Move} {s : State} {i : Nat} {w : Worker}

/-! ## 1. Quiet workers -/

/-- A worker that is quiet has done its program, unless somebody has found the token stale. -/
theorem WorkerInv.done (h : WorkerInv c i trace w) (hs : isSighted trace = false)
    (hq : w.isOpen = false) : own i (deeds trace) = c.program i := by
  rcases h.place with place | ⟨_, sighted⟩
  · rw [(h.quiet hq).1, List.append_nil] at place
    exact place
  · rw [hs] at sighted
    cases sighted

/-- Then the coordinator has heard of every heading of its share. -/
theorem WorkerInv.reported (h : WorkerInv c i trace w) (hs : isSighted trace = false)
    (hq : w.isOpen = false) (ho : w.outbox = []) :
    (own i (heard trace)).countP (fun signal => !signal.isLast) = (c.share i).length := by
  have sent := h.sent
  rw [ho, hq, List.append_nil, if_neg Bool.false_ne_true] at sent
  have reports : (List.replicate w.completed Signal.headingDone).countP (fun m => !m.isLast)
      = w.completed := by
    rw [List.countP_replicate]
    rfl
  have last : [Signal.finished w.completed].countP (fun m => !m.isLast) = 0 := rfl
  rw [sent, List.countP_append, reports, last, Nat.add_zero, h.completed, h.done hs hq,
    c.reports_program]

/-- The visits that the programs of all workers tell of are those of the sweep. -/
theorem perm_visits (hn : 0 < c.workers) (f : Act → Option Visit)
    (hf : ∀ i, (c.program i).filterMap f
      = (c.share i).flatMap (headingVisits c.slopes c.launch)) {deeds : List (Nat × Act)}
    (hd : ∀ d ∈ deeds, d.1 < c.workers) (hp : ∀ i < c.workers, own i deeds = c.program i) :
    (deeds.filterMap fun d => f d.2).Perm
      (c.sweep.headings.flatMap (headingVisits c.slopes c.launch)) := by
  have mapped : (deeds.filterMap fun d => f d.2) = (deeds.map Prod.snd).filterMap f := by
    rw [List.filterMap_map]
    rfl
  have programs : ((List.range c.workers).flatMap fun i => own i deeds)
      = (List.range c.workers).flatMap c.program :=
    List.flatMap_congr fun i hi => hp i (List.mem_range.mp hi)
  have visits : ((List.range c.workers).flatMap c.program).filterMap f
      = (c.sweep.deal c.workers).flatten.flatMap (headingVisits c.slopes c.launch) := by
    rw [← c.flatMap_share hn, List.filterMap_flatMap, List.flatMap_assoc]
    exact List.flatMap_congr fun i _ => hf i
  rw [mapped]
  refine ((perm_own hd).filterMap f).trans ?_
  rw [programs, visits]
  exact (c.sweep.deal_perm c.workers).flatMap_right _

/-- The shares of the workers hold as many headings as the sweep. -/
theorem sum_length_share (hn : 0 < c.workers) :
    ((List.range c.workers).map fun i => (c.share i).length).sum = c.sweep.length := by
  have h := congrArg List.length (c.flatMap_share hn)
  rw [List.length_flatMap, List.length_flatten, c.sweep.sum_length_deal] at h
  exact h

/-! ## 2. The crew when all are quiet -/

/-- **Where nobody has found the token stale and all workers are quiet, all has been done.** -/
theorem Inv.gathered (h : Inv c trace s) (hn : 0 < c.workers) (hs : isSighted trace = false)
    (hq : ∀ i < c.workers, (s.workers i).isOpen = false ∧ (s.workers i).outbox = []) :
    (∀ i < c.workers, own i (deeds trace) = c.program i) ∧
    s.tally.Holds c.slopes.extent
      (c.sweep.headings.flatMap (headingVisits c.slopes c.launch)) ∧
    s.integrated = c.sweep.length := by
  have done : ∀ i < c.workers, own i (deeds trace) = c.program i :=
    fun i hi => (h.workers i).done hs (hq i hi).1
  refine ⟨done, ⟨h.extent, ?_, ?_⟩, ?_⟩
  · rw [h.sums]
    exact Tally.post_perm _ (perm_visits hn _ c.summed_program h.deedsBy done) _
  · rw [h.counts]
    exact Tally.post_perm _ (perm_visits hn _ c.counted_program h.deedsBy done) _
  · rw [h.integrated, countP_own h.heardBy fun signal => !signal.isLast, ← sum_length_share hn]
    refine congrArg List.sum (List.map_congr_left fun i hi => ?_)
    have hi : i < c.workers := List.mem_range.mp hi
    exact (h.workers i).reported hs (hq i hi).1 (hq i hi).2

/-! ## 3. After the return -/

/-- Once the crew has returned, only somebody outside takes steps. -/
theorem Inv.rests {s' : State} {m : Move} {outcome : Outcome} (h : Inv c trace s)
    (hp : s.phase = .returned outcome) (hs : Step c s m s') :
    m = .cancel ∧ s'.phase = .returned outcome ∧ s'.tally = s.tally := by
  cases hs with
  | work i m w t hi hw =>
    have place := h.place
    rw [State.IsPlaced, hp] at place
    have quiet := place i hi
    rw [hw.isOpen (h.workers i)] at quiet
    cases quiet
  | lead s' m hl => cases hl <;> simp_all
  | cancel => exact ⟨rfl, hp, rfl⟩

/-- **After the return, nothing is added and the answer stays.** -/
theorem Run.rests {before kind : State → Prop} {g : Generations} {later : List Move} {s' : State}
    {outcome : Outcome} (hr : Run c before (c.start g) trace s) (hp : s.phase = .returned outcome)
    (hl : Run c kind s later s') :
    (∀ m ∈ later, m = .cancel) ∧ s'.phase = .returned outcome ∧ s'.tally = s.tally := by
  have inv : Inv c trace s := inv_run hr
  have all : Inv c (trace ++ later) s' ∧ (∀ m ∈ later, m = .cancel) ∧
      s'.phase = .returned outcome ∧ s'.tally = s.tally := by
    induction hl with
    | rest hk =>
      rw [List.append_nil]
      exact ⟨inv, by simp, hp, rfl⟩
    | step hrun hs hk ih =>
      obtain ⟨inv', cancels, phase, tally⟩ := ih
      obtain ⟨hm, phase', tally'⟩ := inv'.rests phase hs
      refine ⟨by rw [← List.append_assoc]; exact inv'.step hs, ?_, phase', tally'.trans tally⟩
      intro m' hm'
      rcases List.mem_append.mp hm' with hm' | hm'
      · exact cancels m' hm'
      · rw [List.mem_singleton.mp hm', hm]
  exact all.2

/-! ## 4. The step that returns -/

/-- How the coordinator comes to return an outcome. -/
inductive Returns (c : Crew) (s : State) : Outcome → Prop where
  | nobody (hphase : s.phase = .entering) (hn : c.workers = 0) :
      Returns c s (.completed (statsOf c.sweep c.launch 0))
  | turnAway (hs : s.isStale c = true) : Returns c s .superseded
  | unmanned (reason : String) (hn : 0 < c.workers) (ht : c.shortage? = some reason) :
      Returns c s (.unmanned reason)
  | fail (i : Nat) (hf : s.failed = some i) : Returns c s (.failed i)
  | giveUp (hs : s.aborted = true ∨ s.isStale c = true) : Returns c s .superseded
  | complete (hphase : s.phase = .leaving) (hs : s.isStale c = false) :
      Returns c s (.completed (s.stats c))

theorem State.afterCheck_ne (s : State) (c : Crew) (outcome : Outcome) :
    s.afterCheck c ≠ .returned outcome := by
  unfold State.afterCheck
  split <;> exact Phase.noConfusion

/-- A step of the coordinator that returns leaves the tally alone. -/
theorem Leads.returns {s' : State} {m : Move} {outcome : Outcome} (h : Leads c s m s')
    (hp : s'.phase = .returned outcome) :
    m = .lead ∧ s'.tally = s.tally ∧ Returns c s outcome := by
  cases h with
  | nobody hphase hn => cases hp; exact ⟨rfl, rfl, .nobody hphase hn⟩
  | turnAway hphase hn hs => cases hp; exact ⟨rfl, rfl, .turnAway hs⟩
  | unmanned reason hphase hn hs ht => cases hp; exact ⟨rfl, rfl, .unmanned reason hn ht⟩
  | dispatch =>
    simp only at hp
    split at hp <;> cases hp
  | goOn => exact absurd hp (s.afterCheck_ne c outcome)
  | abort => exact absurd hp (s.afterCheck_ne c outcome)
  | fail i hphase hf => cases hp; exact ⟨rfl, rfl, .fail i hf⟩
  | giveUp hphase hf hs => cases hp; exact ⟨rfl, rfl, .giveUp hs⟩
  | complete hphase hf ha hs => cases hp; exact ⟨rfl, rfl, .complete hphase hs⟩
  | _ => cases hp

/-- **How a crew has come to return**: by a last step of the coordinator. After it, there are only
    steps from outside. -/
theorem Run.returned {kind : State → Prop} {g : Generations} {outcome : Outcome}
    (h : Run c kind (c.start g) trace s) (hp : s.phase = .returned outcome) :
    ∃ before later s', trace = before ++ .lead :: later ∧ (∀ m ∈ later, m = .cancel) ∧
      Run c kind (c.start g) before s' ∧ Returns c s' outcome ∧ s.tally = s'.tally := by
  induction h with
  | rest hk => cases hp
  | @step s' s'' trace m hrun hs hk ih =>
    have last : ∀ {s'' : State}, Leads c s' m s'' → s''.phase = .returned outcome →
        ∃ before later s₁, trace ++ [m] = before ++ .lead :: later ∧ (∀ m ∈ later, m = .cancel) ∧
          Run c kind (c.start g) before s₁ ∧ Returns c s₁ outcome ∧ s''.tally = s₁.tally := by
      intro s'' lead hp
      obtain ⟨rfl, tally, returns⟩ := lead.returns hp
      exact ⟨trace, [], s', rfl, by simp, hrun, returns, tally⟩
    have again : s'.phase = .returned outcome →
        ∃ before later s₁, trace ++ [m] = before ++ .lead :: later ∧ (∀ m ∈ later, m = .cancel) ∧
          Run c kind (c.start g) before s₁ ∧ Returns c s₁ outcome ∧ s''.tally = s₁.tally := by
      intro hp'
      obtain ⟨before, later, s₁, rfl, cancels, run, returns, tally⟩ := ih hp'
      obtain ⟨rfl, _, tally'⟩ := (inv_run hrun).rests hp' hs
      refine ⟨before, later ++ [.cancel], s₁, by simp, ?_, run, returns, tally'.trans tally⟩
      intro m hm
      rcases List.mem_append.mp hm with hm | hm
      · exact cancels m hm
      · exact List.mem_singleton.mp hm
    cases hs with
    | work i m w t hi hw => exact again hp
    | lead s'' m hl => exact last hl hp
    | cancel => exact again hp

/-- What a worker has done when the crew returns, it has done before the step that returns. -/
theorem deeds_returned {before later : List Move} (h : ∀ m ∈ later, m = .cancel) :
    deeds (before ++ .lead :: later) = deeds before := by
  have silent : later.filterMap Move.deed? = [] := by
    rw [List.filterMap_eq_nil_iff]
    intro m hm
    rw [h m hm]
    rfl
  rw [deeds, List.filterMap_append, List.filterMap_cons, silent]
  exact List.append_nil _

/-! ## 5. Answers -/

/-- What a crew can answer for when it has completed the integration. -/
structure Completes (c : Crew) (trace : List Move) (t : Tally) (stats : Stats) : Prop
    extends Complete c.slopes c.launch c.sweep ⟨t, stats⟩ where
  /-- Every worker has done its whole program. -/
  deeds : ∀ i < c.workers, own i (deeds trace) = c.program i

/-- A crew without workers has done nothing. -/
theorem Inv.nobody (h : Inv c trace s) (hn : c.workers = 0) :
    s.tally.Holds c.slopes.extent [] := by
  have idle : deeds trace = [] := by
    rw [List.eq_nil_iff_forall_not_mem]
    intro d hd
    have := h.deedsBy d hd
    omega
  refine ⟨h.extent, ?_, ?_⟩
  · rw [h.sums, idle]
    rfl
  · rw [h.counts, idle]
    rfl

/-- **A crew completes the integration** if what its members have found stale on the way is stale at
    the last look. -/
theorem Run.completes {kind : State → Prop} {g : Generations} {stats : Stats}
    (h : Run c kind (c.start g) trace s) (hnobody : c.workers = 0 → c.sweep.headings = [])
    (hsticky : ∀ before s', before <+: trace → Run c kind (c.start g) before s' →
      isSighted before = true → s'.isStale c = true)
    (hp : s.phase = .returned (.completed stats)) : c.Completes trace s.tally stats := by
  obtain ⟨before, later, s₁, rfl, cancels, run, returns, tally⟩ := h.returned hp
  have inv : Inv c before s₁ := inv_run run
  have same : Crew.deeds (before ++ .lead :: later) = Crew.deeds before := deeds_returned cancels
  rw [tally]
  cases returns with
  | nobody hphase hn =>
    have empty : c.sweep.length = 0 := by rw [Sweep.length, hnobody hn, List.length_nil]
    refine ⟨⟨?_, rfl, empty.symm⟩, fun i hi => by omega⟩
    rw [hnobody hn]
    exact inv.nobody hn
  | complete hphase hs =>
    have fresh : isSighted before = false := by
      cases hb : isSighted before with
      | false => rfl
      | true =>
        have stale := hsticky before s₁ (List.prefix_append _ _) run hb
        rw [hs] at stale
        cases stale
    have place := inv.place
    rw [State.IsPlaced, hphase] at place
    obtain ⟨done, holds, integrated⟩ := inv.gathered place.1.2 fresh place.2
    exact ⟨⟨holds, rfl, integrated⟩, fun i hi => by rw [same]; exact done i hi⟩

/-- No crew fails. -/
theorem Run.not_failed {kind : State → Prop} {g : Generations} {i : Nat}
    (h : Run c kind (c.start g) trace s) : s.phase ≠ .returned (.failed i) := by
  intro hp
  obtain ⟨before, later, s₁, _, _, run, returns, _⟩ := h.returned hp
  cases returns with
  | fail i hf =>
    rw [(inv_run run).failed] at hf
    cases hf

/-- No crew is without threads unless the machine is short of them. -/
theorem Run.shortage {kind : State → Prop} {g : Generations} {reason : String}
    (h : Run c kind (c.start g) trace s) (hp : s.phase = .returned (.unmanned reason)) :
    0 < c.workers ∧ c.shortage? = some reason := by
  obtain ⟨before, later, s₁, _, _, _, returns, _⟩ := h.returned hp
  cases returns with
  | unmanned _ hn ht => exact ⟨hn, ht⟩

/-- A crew that has gone on from its first look has the threads of its workers. -/
theorem Run.manned {kind : State → Prop} {g : Generations} (h : Run c kind (c.start g) trace s) :
    s.phase = .entering ∨ (∃ outcome, s.phase = .returned outcome) ∨ c.shortage? = none := by
  induction h with
  | rest hk => exact .inl rfl
  | step hrun hs hk ih =>
    cases hs with
    | work i m w t hi hw => exact ih
    | cancel => exact ih
    | lead s'' m hl =>
      cases hl with
      | nobody => exact .inr (.inl ⟨_, rfl⟩)
      | turnAway => exact .inr (.inl ⟨_, rfl⟩)
      | unmanned => exact .inr (.inl ⟨_, rfl⟩)
      | enter _ _ _ granted => exact .inr (.inr granted)
      | fail => exact .inr (.inl ⟨_, rfl⟩)
      | giveUp => exact .inr (.inl ⟨_, rfl⟩)
      | complete => exact .inr (.inl ⟨_, rfl⟩)
      | _ => simp_all

/-- So one that completes the integration has nobody to start, or the threads for it. -/
theorem Run.threads {kind : State → Prop} {g : Generations} {stats : Stats}
    (h : Run c kind (c.start g) trace s) (hp : s.phase = .returned (.completed stats)) :
    c.workers = 0 ∨ c.shortage? = none := by
  obtain ⟨before, later, s₁, _, _, run, returns, _⟩ := h.returned hp
  cases returns with
  | nobody _ hn => exact .inl hn
  | complete leaving _ =>
    rcases run.manned with entering | ⟨_, returned⟩ | granted
    · rw [entering] at leaving
      cases leaving
    · rw [returned] at leaving
      cases leaving
    · exact .inr granted

/-! ## 6. Runs that are never superseded -/

/-- A run ends in a state of its kind. -/
theorem Run.kind_end {kind : State → Prop} {s' : State} (h : Run c kind s trace s') : kind s' := by
  cases h with
  | rest hk => exact hk
  | step _ _ hk => exact hk

section Calm

variable {g : Generations} (h : Run c (fun s => s.isStale c = false) (c.start g) trace s)
include h

/-- In a run that is never stale, nobody finds the token stale. -/
theorem Run.not_isSighted : isSighted trace = false := by
  induction h with
  | rest hk => rfl
  | @step s' s'' trace m hrun hs hk ih =>
    have now := hrun.kind_end
    rw [isSighted_append, ih, Bool.false_or]
    cases hs with
    | work i m w t hi hw =>
      cases hw with
      | withdraw _ _ _ _ hs =>
        rw [State.isStale, hs] at now
        cases now
      | _ => rfl
    | lead s'' m hl =>
      cases hl with
      | notice hphase ha hs =>
        rw [hs] at now
        cases now
      | _ => rfl
    | cancel => rfl

/-- **A run that is never stale returns nothing but a completed integration**, if the machine starts
    the threads of the workers. -/
theorem Run.completed_of_calm {outcome : Outcome}
    (manned : 0 < c.workers → c.shortage? = none)
    (hp : s.phase = .returned outcome) : ∃ stats, outcome = .completed stats := by
  obtain ⟨before, later, s₁, _, _, run, returns, _⟩ := h.returned hp
  have now := run.kind_end
  cases returns with
  | nobody => exact ⟨_, rfl⟩
  | complete => exact ⟨_, rfl⟩
  | turnAway hs =>
    rw [hs] at now
    cases now
  | unmanned reason positive short =>
    rw [manned positive] at short
    cases short
  | fail i hf => exact absurd hp h.not_failed
  | giveUp hs =>
    rcases hs with aborted | hs
    · have sighted := (inv_run run).aborted aborted
      rw [run.not_isSighted] at sighted
      cases sighted
    · rw [hs] at now
      cases now

/-- **What it returns is whole.** -/
theorem Run.completes_of_calm {outcome : Outcome}
    (manned : 0 < c.workers → c.shortage? = none)
    (hnobody : c.workers = 0 → c.sweep.headings = []) (hp : s.phase = .returned outcome) :
    ∃ stats, outcome = .completed stats ∧ c.Completes trace s.tally stats := by
  obtain ⟨stats, rfl⟩ := h.completed_of_calm manned hp
  refine ⟨stats, rfl, h.completes hnobody (fun before s' _ run sighted => ?_) hp⟩
  rw [run.not_isSighted] at sighted
  cases sighted

end Calm

/-! ## 7. Runs during which the generation is advanced -/

/-- Whether a step is one from outside. -/
def Move.isCancel : Move → Bool
  | .cancel => true
  | _ => false

/-- How often the generation has been advanced. -/
def cancels (trace : List Move) : Nat :=
  trace.countP Move.isCancel

theorem cancels_append (m : Move) :
    cancels (trace ++ [m]) = cancels trace + if m.isCancel then 1 else 0 := by
  rw [cancels, List.countP_append, List.countP_singleton]
  rfl

/-- Nobody but somebody outside advances the generation. -/
theorem Step.generations {s' : State} {m : Move} (h : Step c s m s') :
    s'.generations
      = if m.isCancel then s.generations.advance c.token.generation else s.generations := by
  cases h with
  | work i m w t hi hw => cases hw <;> rfl
  | lead s' m hl =>
    cases hl with
    | hear i signal => cases signal <;> rfl
    | _ => rfl
  | cancel => rfl

section Advanced

variable {issued : Generations} {gen : Generation} {before : Nat} {kind : State → Prop}
variable (ht : c.token = issued.issue gen)
variable (h : Run c kind (c.start (issued.advanceBy gen before)) trace s)
include ht h

/-- The generation has been advanced as often as the steps say. -/
theorem Run.generations : s.generations = issued.advanceBy gen (before + cancels trace) := by
  have place : c.token.generation = gen := by rw [ht]; rfl
  induction h with
  | rest hk => rfl
  | @step s' s'' trace m hrun hs hk ih =>
    rw [hs.generations, ih, place, cancels_append]
    cases m.isCancel with
    | true => rfl
    | false => rfl

/-- **What has been found stale is still stale**, as long as the generation is advanced fewer than
    `2 ^ 64` times. -/
theorem Run.stale_of_isSighted (hlt : before + cancels trace < 2 ^ 64)
    (hs : isSighted trace = true) : s.isStale c = true := by
  induction h with
  | rest hk => cases hs
  | @step s' s'' trace m hrun hstep hk ih =>
    have now := hrun.generations ht
    have next := (hrun.step hstep hk).generations ht
    rw [cancels_append] at hlt next
    -- a token that was stale before the step is stale after it
    have stays : s'.isStale c = true → s''.isStale c = true := by
      intro stale
      rw [State.isStale, now, ht] at stale
      rw [State.isStale, next, ht]
      exact Generations.stale_mono stale (by omega) hlt
    rw [isSighted_append, Bool.or_eq_true] at hs
    rcases hs with hs | hs
    · exact stays (ih (by omega) hs)
    · refine stays ?_
      cases hstep with
      | work i m w t hi hw =>
        cases hw with
        | withdraw _ _ _ _ stale => exact stale
        | _ => cases hs
      | lead s'' m hl =>
        cases hl with
        | notice hphase ha stale => exact stale
        | _ => cases hs
      | cancel => cases hs

/-- **A crew completes the integration**, however often the generation is advanced meanwhile, as
    long as it is fewer than `2 ^ 64` times. -/
theorem Run.completes_of_few {stats : Stats} (hnobody : c.workers = 0 → c.sweep.headings = [])
    (hlt : before + cancels trace < 2 ^ 64) (hp : s.phase = .returned (.completed stats)) :
    c.Completes trace s.tally stats := by
  refine h.completes hnobody (fun early s' sooner run sighted => ?_) hp
  have fewer : cancels early ≤ cancels trace := sooner.sublist.countP_le
  exact run.stale_of_isSighted ht (by omega) sighted

end Advanced

end Relief.Crew
