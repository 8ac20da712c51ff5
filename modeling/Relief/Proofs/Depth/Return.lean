import Mathlib.Algebra.BigOperators.Group.Finset.Piecewise
import Relief.Proofs.Depth.Gathering

/-!
# That a crew returns

Every step of a crew, apart from the coordinator's waiting and from what is done outside, takes away
from the work that is left.

* `Worker.remaining`, `State.remaining`: how much that is;
* `Run.length_le`: **a run is no longer than the work that was left at its beginning**, apart from
  those other steps;
* `Inv.enabled`: **until the crew has returned, somebody can take a step**;
* `Inv.until_return`: induction on the work that is left;
* `Run.can_return`: so **every run can go on until the crew returns**.
-/

namespace Relief.Crew

open Finset (sum range)

variable {c : Crew} {trace : List Move} {s : State}

/-! ## 1. The work that is left -/

/-- The work that is left to a worker, with that of hearing its signals. -/
def Worker.remaining (w : Worker) : Nat :=
  6 * w.todo.length + (if w.wrapped then 1 else 0) + (if w.isOpen then 6 else 0)
    + 4 * w.outbox.length

/-- How far the coordinator is from its return. -/
def Phase.remaining : Phase → Nat
  | .entering => 6
  | .dispatching => 5
  | .receiving => 2
  | .checking => 4
  | .aborting => 3
  | .leaving => 1
  | .returned _ => 0

/-- The work that is left to a crew. -/
def State.remaining (s : State) (c : Crew) : Nat :=
  s.phase.remaining + (c.workers - s.started)
    + sum (range c.workers) fun i => (s.workers i).remaining

/-- What one worker does changes its own part of the work. -/
theorem sum_remaining_update {n i : Nat} (hi : i < n) (workers : Nat → Worker) (w : Worker) :
    (sum (range n) fun j => (Function.update workers i w j).remaining) + (workers i).remaining
      = (sum (range n) fun j => (workers j).remaining) + w.remaining := by
  have mem : i ∈ range n := Finset.mem_range.mpr hi
  have apart : (fun j => (Function.update workers i w j).remaining)
      = Function.update (fun j => (workers j).remaining) i w.remaining := by
    funext j
    exact Function.apply_update (fun _ => Worker.remaining) workers i w j
  rw [apart, Finset.sum_update_of_mem mem,
    ← Finset.sum_sdiff (Finset.singleton_subset_iff.mpr mem), Finset.sum_singleton]
  omega

/-! ## 2. Every step takes away from it -/

/-- A step of a worker takes away from the work that is left to it. -/
theorem Works.remaining_lt {g : Generations} {flag : Bool} {i : Nat} {w w' : Worker}
    {t t' : Tally} {m : Move} (h : Works c g flag i w t m w' t') :
    w'.remaining < w.remaining := by
  have bit : ∀ b : Bool, (if b then 1 else 0) ≤ 1 := by decide
  unfold Worker.remaining
  cases h with
  | goOn rest h => simp only [h, List.length_cons]; omega
  | halt rest h => simp only [h, List.length_cons, List.length_nil]; omega
  | launch heading start rest h => simp only [h, List.length_cons]; omega
  | withdraw heading start rest h => simp only [h, List.length_cons, List.length_nil]; omega
  | sum v rest h hv =>
    have := bit (t.wraps v)
    simp only [h, List.length_cons]
    omega
  | panic v rest h hv =>
    simp only [h, List.length_cons, List.length_nil, List.length_append, Bool.false_eq_true,
      if_false]
    omega
  | raise h => simp only [h, Bool.false_eq_true, if_false, if_true]; omega
  | count v rest h hw => simp only [h, List.length_cons]; omega
  | report rest h => simp only [h, List.length_cons, List.length_append, List.length_nil]; omega
  | close h ho hw =>
    simp only [ho, List.length_append, List.length_cons, List.length_nil, Bool.false_eq_true,
      if_false, if_true]
    omega

/-- The coordinator has waited in vain. -/
def Move.isTimeOut : Move → Bool
  | .timeOut => true
  | _ => false

/-- How often the coordinator has waited in vain. -/
def timeOuts (trace : List Move) : Nat :=
  trace.countP Move.isTimeOut

/-- Waiting in vain is followed by another look, and steps from outside take nothing away. -/
def Move.allowance (m : Move) : Nat :=
  (if m.isTimeOut then 3 else 0) + if m.isCancel then 1 else 0

theorem State.afterCheck_remaining (s : State) (c : Crew) : (s.afterCheck c).remaining ≤ 2 := by
  unfold State.afterCheck
  split <;> decide

/-- Where nothing but the coordinator moves on, it is enough to look at the coordinator. -/
theorem State.remaining_lt {s s' : State} {n : Nat} (hstarted : s'.started = s.started)
    (hworkers : s'.workers = s.workers) {p p' : Phase} (hp : s.phase = p) (hp' : s'.phase = p')
    (hn : Nat.blt p'.remaining (p.remaining + n) = true) : s'.remaining c < s.remaining c + n := by
  have less := Nat.blt_eq.mp hn
  unfold State.remaining
  rw [hstarted, hworkers, hp, hp']
  omega

/-- A step of the coordinator takes away from the work that is left. -/
theorem Leads.remaining_lt {s' : State} {m : Move} (h : Inv c trace s) (hl : Leads c s m s') :
    s'.remaining c < s.remaining c + m.allowance := by
  have place := h.place
  have checked := s.afterCheck_remaining c
  unfold State.IsPlaced at place
  cases hl with
  | nobody hphase => exact State.remaining_lt rfl rfl hphase rfl rfl
  | turnAway hphase => exact State.remaining_lt rfl rfl hphase rfl rfl
  | unmanned reason hphase => exact State.remaining_lt rfl rfl hphase rfl rfl
  | enter hphase => exact State.remaining_lt rfl rfl hphase rfl rfl
  | dispatch hphase =>
    rw [hphase] at place
    have more := place.1
    unfold State.remaining
    rw [hphase]
    by_cases hn : s.started + 1 < c.workers
    · simp only [if_pos hn, Phase.remaining]
      omega
    · simp only [if_neg hn, Phase.remaining]
      omega
  | hear i signal rest hphase hi ho =>
    generalize hw : ({ s.workers i with outbox := rest } : Worker) = w
    have update := sum_remaining_update hi s.workers w
    have before : (s.workers i).remaining = w.remaining + 4 := by
      simp only [← hw, Worker.remaining, ho, List.length_cons]
      omega
    have started : (s.hear i signal).started = s.started := by cases signal <;> rfl
    simp only [State.remaining, hphase, Phase.remaining, started]
    omega
  | timeOut hphase => exact State.remaining_lt rfl rfl hphase rfl rfl
  | disconnect hphase => exact State.remaining_lt rfl rfl hphase rfl rfl
  | goOn hphase =>
    refine State.remaining_lt rfl rfl hphase rfl (Nat.blt_eq.mpr ?_)
    exact Nat.lt_of_le_of_lt checked (by decide)
  | notice hphase => exact State.remaining_lt rfl rfl hphase rfl rfl
  | abort hphase =>
    refine State.remaining_lt rfl rfl hphase rfl (Nat.blt_eq.mpr ?_)
    exact Nat.lt_of_le_of_lt checked (by decide)
  | fail i hphase => exact State.remaining_lt rfl rfl hphase rfl rfl
  | giveUp hphase => exact State.remaining_lt rfl rfl hphase rfl rfl
  | complete hphase => exact State.remaining_lt rfl rfl hphase rfl rfl

/-- A step of anybody takes away from the work that is left, but for waiting and for what is done
    outside. -/
theorem Step.remaining_lt {s' : State} {m : Move} (h : Inv c trace s) (hs : Step c s m s') :
    s'.remaining c < s.remaining c + m.allowance := by
  cases hs with
  | work i m w t hi hw =>
    have update := sum_remaining_update (Nat.lt_of_lt_of_le hi h.started) s.workers w
    have less := hw.remaining_lt
    simp only [State.remaining]
    omega
  | lead s' m hl => exact hl.remaining_lt h
  | cancel =>
    simp only [State.remaining, Move.allowance, Move.isTimeOut, Move.isCancel]
    exact Nat.lt_succ_self _

/-- **A run is no longer than the work that was left**, but for waiting and for what is done
    outside. -/
theorem Run.length_le {kind : State → Prop} {g : Generations}
    (h : Run c kind (c.start g) trace s) :
    trace.length + s.remaining c
      ≤ (c.start g).remaining c + 3 * timeOuts trace + cancels trace := by
  induction h with
  | rest hk => exact Nat.le_of_eq (Nat.zero_add _)
  | @step s' s'' trace m hrun hs hk ih =>
    have less := hs.remaining_lt (inv_run hrun)
    have out : timeOuts (trace ++ [m]) = timeOuts trace + if m.isTimeOut then 1 else 0 := by
      rw [timeOuts, List.countP_append, List.countP_singleton]
      rfl
    rw [out, cancels_append, List.length_append, List.length_singleton]
    unfold Move.allowance at less
    cases ht : m.isTimeOut <;> cases hc : m.isCancel <;>
      simp only [ht, hc, Bool.false_eq_true, if_false, if_true] at less ⊢ <;> omega

/-! ## 3. Until the return, there is a next step -/

/-- A worker that has not sent its last signal can take a step. -/
theorem Works.enabled (g : Generations) (flag : Bool) (i : Nat) {w : Worker} (t : Tally)
    (ho : w.isOpen = true) : ∃ m w' t', Works c g flag i w t m w' t' ∧ m.allowance = 0 := by
  cases hw : w.wrapped with
  | true => exact ⟨_, _, _, .raise w t hw, rfl⟩
  | false =>
    cases htodo : w.todo with
    | nil => exact ⟨_, _, _, .close w t htodo ho hw, rfl⟩
    | cons a rest =>
      cases a with
      | lookUp =>
        cases hf : flag with
        | false => exact ⟨_, _, _, .goOn w t rest htodo rfl, rfl⟩
        | true => exact ⟨_, _, _, .halt w t rest htodo rfl, rfl⟩
      | launch heading start =>
        cases hs : g.isStale c.token with
        | false => exact ⟨_, _, _, .launch w t heading start rest htodo hs, rfl⟩
        | true => exact ⟨_, _, _, .withdraw w t heading start rest htodo hs, rfl⟩
      | sum v =>
        by_cases hv : v.slot < t.extent.area
        · exact ⟨_, _, _, .sum w t v rest htodo hv, rfl⟩
        · exact ⟨_, _, _, .panic w t v rest htodo hv, rfl⟩
      | count v => exact ⟨_, _, _, .count w t v rest htodo hw, rfl⟩
      | report => exact ⟨_, _, _, .report w t rest htodo, rfl⟩

/-- **Until the crew has returned, somebody can take a step** that takes away from the work. -/
theorem Inv.enabled (h : Inv c trace s) (hp : ∀ outcome, s.phase ≠ .returned outcome) :
    ∃ m s', Step c s m s' ∧ m.allowance = 0 := by
  have place := h.place
  unfold State.IsPlaced at place
  cases hphase : s.phase with
  | entering =>
    rcases Nat.eq_zero_or_pos c.workers with hn | hn
    · exact ⟨_, _, .lead _ _ _ (.nobody s hphase hn), rfl⟩
    · cases hs : s.isStale c with
      | true => exact ⟨_, _, .lead _ _ _ (.turnAway s hphase hn hs), rfl⟩
      | false =>
        cases ht : c.shortage? with
        | some reason => exact ⟨_, _, .lead _ _ _ (.unmanned s reason hphase hn hs ht), rfl⟩
        | none => exact ⟨_, _, .lead _ _ _ (.enter s hphase hn hs ht), rfl⟩
  | dispatching => exact ⟨_, _, .lead _ _ _ (.dispatch s hphase), rfl⟩
  | receiving =>
    rw [hphase] at place
    -- there is a signal to hear, a worker still at work, or neither
    by_cases hsent : ∃ i < c.workers, (s.workers i).outbox ≠ []
    · obtain ⟨i, hi, ho⟩ := hsent
      obtain ⟨signal, rest, ho⟩ := List.exists_cons_of_ne_nil ho
      exact ⟨_, _, .lead _ _ _ (.hear s i signal rest hphase hi ho), rfl⟩
    · by_cases hopen : ∃ i < c.workers, (s.workers i).isOpen = true
      · obtain ⟨i, hi, ho⟩ := hopen
        obtain ⟨m, w, t, hw, ha⟩ := Works.enabled (c := c) s.generations s.flag i s.tally ho
        exact ⟨m, _, .work s i m w t (place.1 ▸ hi) hw, ha⟩
      · refine ⟨_, _, .lead _ _ _ (.disconnect s hphase fun i hi => ⟨?_, ?_⟩), rfl⟩
        · exact Bool.eq_false_iff.mpr fun ho => hopen ⟨i, hi, ho⟩
        · exact Classical.byContradiction fun ho => hsent ⟨i, hi, ho⟩
  | checking =>
    cases ha : s.aborted with
    | true => exact ⟨_, _, .lead _ _ _ (.goOn s hphase (.inl ha)), rfl⟩
    | false =>
      cases hs : s.isStale c with
      | true => exact ⟨_, _, .lead _ _ _ (.notice s hphase ha hs), rfl⟩
      | false => exact ⟨_, _, .lead _ _ _ (.goOn s hphase (.inr hs)), rfl⟩
  | aborting => exact ⟨_, _, .lead _ _ _ (.abort s hphase), rfl⟩
  | leaving =>
    have hf := h.failed
    cases ha : s.aborted with
    | true => exact ⟨_, _, .lead _ _ _ (.giveUp s hphase hf (.inl ha)), rfl⟩
    | false =>
      cases hs : s.isStale c with
      | true => exact ⟨_, _, .lead _ _ _ (.giveUp s hphase hf (.inr hs)), rfl⟩
      | false => exact ⟨_, _, .lead _ _ _ (.complete s hphase hf ha hs), rfl⟩
  | returned outcome => exact absurd hphase (hp outcome)

/-- A step that takes away from the work leaves the generations alone. -/
theorem Step.generations_eq {s' : State} {m : Move} (hs : Step c s m s') (ha : m.allowance = 0) :
    s'.generations = s.generations := by
  cases hc : m.isCancel with
  | false => rw [hs.generations, hc, if_neg Bool.false_ne_true]
  | true =>
    rw [Move.allowance, hc, if_pos rfl] at ha
    omega

/-- **What holds when the crew has returned, and before a step if it holds after it, holds on the
    way.** It is enough to look at steps that take away from the work. -/
theorem Inv.until_return {motive : List Move → State → Prop}
    (returned : ∀ trace s outcome, s.phase = .returned outcome → motive trace s)
    (step : ∀ trace s m s', Step c s m s' → m.allowance = 0 → motive (trace ++ [m]) s' →
      motive trace s)
    (h : Inv c trace s) : motive trace s := by
  -- by induction on the work that is left
  generalize hn : s.remaining c = n
  induction n using Nat.strongRecOn generalizing trace s with
  | ind n ih =>
    by_cases hp : ∃ outcome, s.phase = .returned outcome
    · obtain ⟨outcome, hp⟩ := hp
      exact returned trace s outcome hp
    · obtain ⟨m, s', hs, ha⟩ := h.enabled fun outcome e => hp ⟨outcome, e⟩
      have less := hs.remaining_lt h
      exact step trace s m s' hs ha (ih (s'.remaining c) (by omega) (h.step hs) rfl)

/-- **Every run can go on until the crew returns**, without a wait in vain and without a step from
    outside. -/
theorem Run.can_return {kind : State → Prop} {g : Generations}
    (hkind : ∀ s s', kind s → s'.generations = s.generations → kind s')
    (h : Run c kind (c.start g) trace s) :
    ∃ later s' outcome, Run c kind (c.start g) (trace ++ later) s' ∧
      s'.phase = .returned outcome ∧ ∀ m ∈ later, m.allowance = 0 := by
  refine (inv_run h).until_return
    (motive := fun trace s => Run c kind (c.start g) trace s → ∃ later s' outcome,
      Run c kind (c.start g) (trace ++ later) s' ∧ s'.phase = .returned outcome ∧
        ∀ m ∈ later, m.allowance = 0) ?_ ?_ h
  · intro trace s outcome hp h
    exact ⟨[], s, outcome, by rwa [List.append_nil], hp, by simp⟩
  · intro trace s m s' hs ha go h
    have next := hkind s s' h.kind_end (hs.generations_eq ha)
    obtain ⟨later, s'', outcome, run, returned, quiet⟩ := go (h.step hs next)
    refine ⟨m :: later, s'', outcome, by simpa using run, returned, ?_⟩
    intro m' hm'
    rcases List.mem_cons.mp hm' with rfl | hm'
    · exact ha
    · exact quiet m' hm'

end Relief.Crew
