import Relief.Proofs.Depth.Contributions
import Relief.Proofs.Depth.Crew

/-!
# What the steps of a crew tell

The steps that have been taken determine what a crew has done so far.

* `deeds`, `heard`, `isSighted`: what a list of steps tells of the work, of the signals, and of
  whether anybody has found the token stale;
* `WorkerInv`: what a worker has done and what is left is its program, unless somebody has found the
  token stale; what has been heard and what is under way are the signals it has sent;
* `Inv`: the same for the crew, with the tally and the coordinator's counters;
* `inv_run`: **it holds after every run**.
-/

namespace Relief.Crew

open Contributions

/-! ## 1. What a list of steps tells -/

/-- What a step does, and who does it. -/
def Move.deed? : Move → Option (Nat × Act)
  | .act i a => some (i, a)
  | _ => none

/-- The signal that is heard in a step, and of whom. -/
def Move.heard? : Move → Option (Nat × Signal)
  | .hear i signal => some (i, signal)
  | _ => none

/-- Whether somebody finds the token stale in a step. -/
def Move.isSighting : Move → Bool
  | .withdraw _ | .notice => true
  | _ => false

/-- All that has been done, in order. -/
def deeds (trace : List Move) : List (Nat × Act) :=
  trace.filterMap Move.deed?

/-- All signals that have been heard, in order. -/
def heard (trace : List Move) : List (Nat × Signal) :=
  trace.filterMap Move.heard?

/-- Whether somebody has found the token stale. -/
def isSighted (trace : List Move) : Bool :=
  trace.any Move.isSighting

section Tells

variable (trace : List Move)

@[simp] theorem deeds_append (m : Move) :
    deeds (trace ++ [m]) = deeds trace ++ m.deed?.toList := by
  cases h : m.deed? <;> simp [deeds, h]

@[simp] theorem heard_append (m : Move) :
    heard (trace ++ [m]) = heard trace ++ m.heard?.toList := by
  cases h : m.heard? <;> simp [heard, h]

@[simp] theorem isSighted_append (m : Move) :
    isSighted (trace ++ [m]) = (isSighted trace || m.isSighting) := by
  simp [isSighted]

/-- What has been sighted once has been sighted for good. -/
theorem isSighted_mono {trace : List Move} (h : isSighted trace = true) (m : Move) :
    isSighted (trace ++ [m]) = true := by
  rw [isSighted_append, h, Bool.true_or]

end Tells

/-- The visit whose running integral is added. -/
def Act.summed? : Act → Option Visit
  | .sum v => some v
  | _ => none

/-- The visit that is counted. -/
def Act.counted? : Act → Option Visit
  | .count v => some v
  | _ => none

/-- The ray that is launched. -/
def Act.launched? : Act → Option (Heading × Point)
  | .launch heading start => some (heading, start)
  | _ => none

/-- Whether a heading is reported. -/
def Act.isReport : Act → Bool
  | .report => true
  | _ => false

/-- Whether a signal is the last of a worker. -/
def Signal.isLast : Signal → Bool
  | .headingDone => false
  | _ => true

/-! ## 2. Programs -/

variable {c : Crew}

section Programs

variable (c)

theorem summed_rayActs (heading : Heading) (start : Point) :
    (c.rayActs heading start).filterMap Act.summed?
      = Integration.rayVisits c.slopes c.launch heading.opposite.step start := by
  simp [rayActs, List.filterMap_flatMap, Act.summed?, List.filterMap_cons]

theorem counted_rayActs (heading : Heading) (start : Point) :
    (c.rayActs heading start).filterMap Act.counted?
      = Integration.rayVisits c.slopes c.launch heading.opposite.step start := by
  simp [rayActs, List.filterMap_flatMap, Act.counted?, List.filterMap_cons]

theorem launched_rayActs (heading : Heading) (start : Point) :
    (c.rayActs heading start).filterMap Act.launched? = [(heading, start)] := by
  simp [rayActs, List.filterMap_flatMap, Act.launched?, List.filterMap_cons]

theorem reports_rayActs (heading : Heading) (start : Point) :
    (c.rayActs heading start).countP Act.isReport = 0 := by
  rw [List.countP_eq_zero]
  intro a ha
  simp only [rayActs, List.mem_cons, List.mem_flatMap, List.not_mem_nil, or_false] at ha
  rcases ha with rfl | rfl | ⟨v, _, rfl | rfl⟩ <;> exact Bool.false_ne_true

/-- What a program tells of other things than reports, it tells ray by ray. -/
theorem filterMap_program {β : Type} (f : Act → Option β) (hf : f .report = none) (i : Nat) :
    (c.program i).filterMap f = (c.share i).flatMap fun heading =>
      c.launch.points.flatMap fun start => (c.rayActs heading start).filterMap f := by
  simp only [program, headingActs, List.filterMap_flatMap, List.filterMap_append,
    List.filterMap_cons, hf, List.filterMap_nil, List.append_nil]

/-- **The sums of a worker's program are those of the rays of its share.** -/
theorem summed_program (i : Nat) :
    (c.program i).filterMap Act.summed?
      = (c.share i).flatMap (Integration.headingVisits c.slopes c.launch) := by
  rw [filterMap_program c _ rfl]
  simp only [summed_rayActs]
  rfl

/-- **The counts of a worker's program are those of the rays of its share.** -/
theorem counted_program (i : Nat) :
    (c.program i).filterMap Act.counted?
      = (c.share i).flatMap (Integration.headingVisits c.slopes c.launch) := by
  rw [filterMap_program c _ rfl]
  simp only [counted_rayActs]
  rfl

/-- **A worker's program launches every ray of every heading of its share.** -/
theorem launched_program (i : Nat) :
    (c.program i).filterMap Act.launched?
      = (c.share i).flatMap fun heading => c.launch.points.map fun start => (heading, start) := by
  rw [filterMap_program c _ rfl]
  simp only [launched_rayActs, List.map_eq_flatMap]

/-- **A worker's program reports every heading of its share.** -/
theorem reports_program (i : Nat) : (c.program i).countP Act.isReport = (c.share i).length := by
  have one : ∀ heading, (c.headingActs heading).countP Act.isReport = 1 := by
    intro heading
    have rays : (c.launch.points.flatMap (c.rayActs heading)).countP Act.isReport = 0 := by
      rw [List.countP_eq_zero]
      intro a ha
      obtain ⟨start, _, ha⟩ := List.mem_flatMap.mp ha
      exact List.countP_eq_zero.mp (c.reports_rayActs heading start) a ha
    rw [headingActs, List.countP_append, rays]
    rfl
  rw [program, List.countP_flatMap]
  induction c.share i with
  | nil => rfl
  | cons heading rest ih =>
    rw [List.map_cons, List.sum_cons, ih, Function.comp_apply, one, List.length_cons, Nat.add_comm]

/-- Every sum of a program is that of a slot which the tally has. -/
theorem slot_lt_of_mem_program {i : Nat} {v : Visit} (h : Act.sum v ∈ c.program i) :
    v.slot < c.slopes.extent.area := by
  have hv : v ∈ (c.program i).filterMap Act.summed? :=
    List.mem_filterMap.mpr ⟨.sum v, h, rfl⟩
  rw [summed_program] at hv
  obtain ⟨heading, _, hv⟩ := List.mem_flatMap.mp hv
  obtain ⟨start, _, hv⟩ := List.mem_flatMap.mp hv
  exact Integration.slot_lt_of_mem_rayVisits hv

/-- The shares of the workers, one after the other, are the hands that the sweep is dealt into. -/
theorem flatMap_share (hn : 0 < c.workers) :
    (List.range c.workers).flatMap c.share = (c.sweep.deal c.workers).flatten := by
  have hl := c.sweep.length_deal hn
  rw [List.flatMap_def]
  congr 1
  apply List.ext_getElem?
  intro i
  by_cases hi : i < c.workers
  · have hd : i < (c.sweep.deal c.workers).length := hl.symm ▸ hi
    rw [List.getElem?_map, List.getElem?_range hi, List.getElem?_eq_getElem hd]
    simp only [Option.map_some, share, List.getElem?_eq_getElem hd, Option.getD_some]
  · rw [List.getElem?_eq_none (by simp; omega), List.getElem?_eq_none (by omega)]

end Programs

/-! ## 3. One worker -/

/-- What is known of a worker after some steps. -/
structure WorkerInv (c : Crew) (i : Nat) (trace : List Move) (w : Worker) : Prop where
  /-- It has done the first part of its program and has the rest before it, unless somebody has
      found the token stale. -/
  place : own i (deeds trace) ++ w.todo = c.program i ∨ (w.todo = [] ∧ isSighted trace = true)
  completed : w.completed = (own i (deeds trace)).countP Act.isReport
  /-- Signals are heard in the order in which they are sent. -/
  sent : own i (heard trace) ++ w.outbox
    = List.replicate w.completed .headingDone ++ (if w.isOpen then [] else [.finished w.completed])
  quiet : w.isOpen = false → w.todo = [] ∧ w.wrapped = false

theorem workerInv_start (i : Nat) (g : Generations) : WorkerInv c i [] ((c.start g).workers i) where
  place := .inl rfl
  completed := rfl
  sent := rfl
  quiet h := by cases h

/-- A step that is neither done by a worker nor a signal of it leaves what is known of it. -/
theorem WorkerInv.other {i : Nat} {trace : List Move} {w : Worker} (h : WorkerInv c i trace w)
    {m : Move} (hd : own i m.deed?.toList = []) (hh : own i m.heard?.toList = []) :
    WorkerInv c i (trace ++ [m]) w where
  place := by
    rw [deeds_append, own_append, hd, List.append_nil]
    exact h.place.imp id fun ⟨ht, hs⟩ => ⟨ht, isSighted_mono hs m⟩
  completed := by
    rw [deeds_append, own_append, hd, List.append_nil]
    exact h.completed
  sent := by
    rw [heard_append, own_append, hh, List.append_nil]
    exact h.sent
  quiet := h.quiet

/-- After an act, the next of a program is the one behind it. -/
theorem WorkerInv.next {i : Nat} {trace : List Move} {w : Worker} (h : WorkerInv c i trace w)
    {a : Act} {rest : List Act} (ht : w.todo = a :: rest) :
    own i (deeds (trace ++ [.act i a])) ++ rest = c.program i := by
  rcases h.place with h | ⟨h, _⟩
  · rw [← h, ht]
    simp [Move.deed?]
  · rw [ht] at h
    cases h

/-- An act that is no report leaves everything but the place in the program. -/
theorem WorkerInv.act {i : Nat} {trace : List Move} {w w' : Worker} (h : WorkerInv c i trace w)
    {a : Act} {rest : List Act} (ht : w.todo = a :: rest) (ha : a.isReport = false)
    (htodo : w'.todo = rest) (hcompleted : w'.completed = w.completed)
    (hopen : w'.isOpen = w.isOpen) (houtbox : w'.outbox = w.outbox) :
    WorkerInv c i (trace ++ [.act i a]) w' where
  place := .inl (htodo ▸ h.next ht)
  completed := by
    rw [hcompleted, h.completed]
    simp [Move.deed?, ha]
  sent := by
    rw [hcompleted, hopen, houtbox, ← h.sent]
    simp [Move.heard?]
  quiet ho := by
    have hq := (h.quiet (hopen ▸ ho)).1
    rw [ht] at hq
    cases hq

/-- A worker that gives up the rest does so because somebody has found the token stale. -/
theorem WorkerInv.stop {i : Nat} {trace : List Move} {w : Worker} (h : WorkerInv c i trace w)
    {m : Move} (hd : m.deed? = none) (hh : m.heard? = none)
    (hs : isSighted (trace ++ [m]) = true) :
    WorkerInv c i (trace ++ [m]) { w with todo := [] } := by
  have same := h.other (m := m) (by rw [hd]; rfl) (by rw [hh]; rfl)
  exact ⟨.inr ⟨rfl, hs⟩, same.completed, same.sent, fun ho => ⟨rfl, (same.quiet ho).2⟩⟩

/-- The slot of every sum that a worker has before it is one of the tally's. -/
theorem WorkerInv.slot_lt {i : Nat} {trace : List Move} {w : Worker} (h : WorkerInv c i trace w)
    {v : Visit} {rest : List Act} (htodo : w.todo = .sum v :: rest) :
    v.slot < c.slopes.extent.area := by
  have mem : Act.sum v ∈ c.program i := by
    rw [← h.next htodo]
    simp [Move.deed?]
  exact c.slot_lt_of_mem_program mem

/-- **A step of a worker keeps what is known of it**, and no worker panics. -/
theorem WorkerInv.works {i : Nat} {trace : List Move} {w w' : Worker} {t t' : Tally}
    {g : Generations} {flag : Bool} {m : Move} (h : WorkerInv c i trace w)
    (hw : Works c g flag i w t m w' t') (hflag : flag = true → isSighted trace = true)
    (ht : t.extent = c.slopes.extent) : WorkerInv c i (trace ++ [m]) w' := by
  cases hw with
  | goOn rest htodo hf => exact h.act htodo rfl rfl rfl rfl rfl
  | halt rest htodo hf => exact h.stop rfl rfl (isSighted_mono (hflag hf) _)
  | launch heading start rest htodo hs => exact h.act htodo rfl rfl rfl rfl rfl
  | withdraw heading start rest htodo hs =>
    exact h.stop rfl rfl (by rw [isSighted_append]; exact Bool.or_true _)
  | sum v rest htodo hv => exact h.act htodo rfl rfl rfl rfl rfl
  | panic v rest htodo hv =>
    rw [ht] at hv
    exact absurd (h.slot_lt htodo) hv
  | raise hwrapped =>
    have same := h.other (m := .raise i) rfl rfl
    exact ⟨same.place, same.completed, same.sent, fun ho => ⟨(same.quiet ho).1, rfl⟩⟩
  | count v rest htodo hw => exact h.act htodo rfl rfl rfl rfl rfl
  | report rest htodo =>
    have ho : w.isOpen = true := by
      cases ho : w.isOpen with
      | true => rfl
      | false =>
        have hq := (h.quiet ho).1
        rw [htodo] at hq
        cases hq
    refine ⟨.inl (h.next htodo), ?_, ?_, fun hc => ?_⟩
    · rw [h.completed]
      simp [Move.deed?, Act.isReport]
    · have hs := h.sent
      simp only [ho, if_true, List.append_nil] at hs
      simp only [ho, if_true, List.append_nil, heard_append, Move.heard?, Option.toList_none,
        List.replicate_succ', ← hs, List.append_assoc]
    · have : w.isOpen = false := hc
      rw [ho] at this
      cases this
  | close htodo ho hw =>
    have same := h.other (m := .close i) rfl rfl
    refine ⟨same.place, same.completed, ?_, fun _ => ⟨htodo, hw⟩⟩
    have hs := same.sent
    simp only [ho, if_true, List.append_nil] at hs
    rw [← List.append_assoc, hs]
    rfl

/-- Hearing a signal of a worker takes it from those under way. -/
theorem WorkerInv.hear {i : Nat} {trace : List Move} {w : Worker} (h : WorkerInv c i trace w)
    {signal : Signal} {rest : List Signal} (ho : w.outbox = signal :: rest) :
    WorkerInv c i (trace ++ [.hear i signal]) { w with outbox := rest } where
  place := by
    rw [deeds_append]
    simpa [Move.deed?, Move.isSighting] using h.place
  completed := by
    rw [deeds_append]
    simpa [Move.deed?] using h.completed
  sent := by
    have hs := h.sent
    rw [ho] at hs
    simp only [← hs, heard_append, Move.heard?, Option.toList_some, own_append,
      own_singleton_self, List.append_assoc, List.singleton_append]
  quiet := h.quiet

/-- What is under way from a worker is one of its signals: it has reported, or finished. -/
theorem WorkerInv.not_panicked {i : Nat} {trace : List Move} {w : Worker}
    (h : WorkerInv c i trace w) : Signal.panicked ∉ w.outbox := by
  intro hp
  have mem : Signal.panicked ∈ own i (heard trace) ++ w.outbox := List.mem_append_right _ hp
  rw [h.sent] at mem
  rcases List.mem_append.mp mem with mem | mem
  · cases List.eq_of_mem_replicate mem
  · split at mem
    · cases mem
    · cases List.mem_singleton.mp mem

/-- **The last signal of a worker is heard once at most, and after all the others.** -/
theorem WorkerInv.last {i : Nat} {trace : List Move} {w : Worker} (h : WorkerInv c i trace w) :
    (own i (heard trace)).countP Signal.isLast ≤ 1 ∧
    ((own i (heard trace)).countP Signal.isLast = 1 → w.isOpen = false ∧ w.outbox = []) := by
  have reports : (List.replicate w.completed Signal.headingDone).countP Signal.isLast = 0 := by
    rw [List.countP_eq_zero]
    intro signal hs
    rw [List.eq_of_mem_replicate hs]
    exact Bool.false_ne_true
  have hs := h.sent
  have total := congrArg (List.countP Signal.isLast) hs
  rw [List.countP_append, List.countP_append, reports, Nat.zero_add] at total
  cases ho : w.isOpen with
  | true =>
    rw [ho] at total
    have empty : ([] : List Signal).countP Signal.isLast = 0 := rfl
    rw [if_pos rfl, empty] at total
    exact ⟨by omega, fun h => by omega⟩
  | false =>
    rw [ho] at total hs
    have one : [Signal.finished w.completed].countP Signal.isLast = 1 := rfl
    rw [if_neg Bool.false_ne_true, one] at total
    rw [if_neg Bool.false_ne_true] at hs
    refine ⟨by omega, fun heardLast => ⟨rfl, ?_⟩⟩
    -- the last signal is the end of what has been sent: it is under way, or nothing is
    rcases List.eq_nil_or_concat w.outbox with hnil | ⟨front, signal, hw⟩
    · exact hnil
    · rw [List.concat_eq_append] at hw
      rw [hw, ← List.append_assoc] at hs
      have he := List.append_inj_right' hs rfl
      rw [hw, List.singleton_inj.mp he, List.countP_append, one] at total
      omega

/-! ## 4. The crew -/

/-- Where the coordinator is, and what it can rely on there. -/
def State.IsPlaced (s : State) (c : Crew) : Prop :=
  match s.phase with
  | .entering => s.started = 0 ∧ s.finished = 0
  | .dispatching => s.started < c.workers ∧ s.finished = 0
  | .receiving => s.started = c.workers ∧ s.finished < c.workers
  | .checking => s.started = c.workers ∧ 0 < c.workers
  | .aborting => (s.started = c.workers ∧ 0 < c.workers) ∧ s.aborted = true
  | .leaving => (s.started = c.workers ∧ 0 < c.workers) ∧
      ∀ i < c.workers, (s.workers i).isOpen = false ∧ (s.workers i).outbox = []
  | .returned _ => ∀ i < s.started, (s.workers i).isOpen = false

/-- **What is known of a crew after some steps.** -/
structure Inv (c : Crew) (trace : List Move) (s : State) : Prop where
  extent : s.tally.extent = c.slopes.extent
  sums : s.tally.sums = Tally.post Visit.value ((deeds trace).filterMap fun d => d.2.summed?)
    (Tally.new c.slopes.extent).sums
  counts : s.tally.counts = Tally.post (fun _ => 1) ((deeds trace).filterMap fun d => d.2.counted?)
    (Tally.new c.slopes.extent).counts
  workers : ∀ i, WorkerInv c i trace (s.workers i)
  deedsBy : ∀ d ∈ deeds trace, d.1 < c.workers
  heardBy : ∀ d ∈ heard trace, d.1 < c.workers
  finished : s.finished = (heard trace).countP fun d => d.2.isLast
  integrated : s.integrated = (heard trace).countP fun d => !d.2.isLast
  flag : s.flag = true → isSighted trace = true
  aborted : s.aborted = true → isSighted trace = true
  failed : s.failed = none
  started : s.started ≤ c.workers
  place : s.IsPlaced c

theorem inv_start (g : Generations) : Inv c [] (c.start g) where
  extent := rfl
  sums := rfl
  counts := rfl
  workers i := workerInv_start i g
  deedsBy _ h := by cases h
  heardBy _ h := by cases h
  finished := rfl
  integrated := rfl
  flag h := by cases h
  aborted h := by cases h
  failed := rfl
  started := Nat.zero_le _
  place := ⟨rfl, rfl⟩

/-! ## 5. Steps of workers -/

section Works

variable {g : Generations} {flag : Bool} {i : Nat} {w w' : Worker} {t t' : Tally} {m : Move}

theorem Works.extent (h : Works c g flag i w t m w' t') : t'.extent = t.extent := by
  cases h <;> rfl

theorem Works.sums (h : Works c g flag i w t m w' t') :
    t'.sums = Tally.post Visit.value (m.deed?.toList.filterMap fun d => d.2.summed?) t.sums := by
  cases h <;> rfl

theorem Works.counts (h : Works c g flag i w t m w' t') :
    t'.counts
      = Tally.post (fun _ => 1) (m.deed?.toList.filterMap fun d => d.2.counted?) t.counts := by
  cases h <;> rfl

/-- Whatever a worker does is its own deed, and no signal is heard. -/
theorem Works.own (h : Works c g flag i w t m w' t') :
    (∀ d ∈ m.deed?.toList, d.1 = i) ∧ m.heard? = none := by
  cases h <;> simp [Move.deed?, Move.heard?]

theorem Works.own_other (h : Works c g flag i w t m w' t') {j : Nat} (hj : j ≠ i) :
    Contributions.own j m.deed?.toList = [] := by
  rw [Contributions.own, List.filterMap_eq_nil_iff]
  intro d hd
  rw [if_neg]
  rw [h.own.1 d hd]
  exact hj.symm

/-- A worker that has sent its last signal takes no step. -/
theorem Works.isOpen {trace : List Move} (h : Works c g flag i w t m w' t')
    (hi : WorkerInv c i trace w) : w.isOpen = true := by
  cases ho : w.isOpen with
  | true => rfl
  | false =>
    obtain ⟨htodo, hwrapped⟩ := hi.quiet ho
    cases h <;> simp_all

end Works

theorem Inv.work {trace : List Move} {s : State} (h : Inv c trace s) {i : Nat} {m : Move}
    {w : Worker} {t : Tally} (hi : i < s.started)
    (hw : Works c s.generations s.flag i (s.workers i) s.tally m w t) :
    Inv c (trace ++ [m]) { s with workers := Function.update s.workers i w, tally := t } where
  extent := hw.extent.trans h.extent
  sums := by
    rw [deeds_append, List.filterMap_append, Tally.post_append, ← h.sums]
    exact hw.sums
  counts := by
    rw [deeds_append, List.filterMap_append, Tally.post_append, ← h.counts]
    exact hw.counts
  workers j := by
    by_cases hj : j = i
    · subst hj
      simp only [Function.update_self]
      exact (h.workers j).works hw h.flag h.extent
    · simp only [Function.update_of_ne hj]
      exact (h.workers j).other (hw.own_other hj) (by rw [hw.own.2]; rfl)
  deedsBy d hd := by
    rw [deeds_append] at hd
    rcases List.mem_append.mp hd with hd | hd
    · exact h.deedsBy d hd
    · rw [hw.own.1 d hd]
      exact Nat.lt_of_lt_of_le hi h.started
  heardBy d hd := by
    rw [heard_append, hw.own.2, Option.toList_none, List.append_nil] at hd
    exact h.heardBy d hd
  finished := by
    rw [heard_append, hw.own.2, Option.toList_none, List.append_nil]
    exact h.finished
  integrated := by
    rw [heard_append, hw.own.2, Option.toList_none, List.append_nil]
    exact h.integrated
  flag hf := isSighted_mono (h.flag hf) m
  aborted ha := isSighted_mono (h.aborted ha) m
  failed := h.failed
  started := h.started
  place := by
    have hopen := hw.isOpen (h.workers i)
    have hp := h.place
    unfold State.IsPlaced at hp ⊢
    revert hp
    cases s.phase with
    | entering => exact id
    | dispatching => exact id
    | receiving => exact id
    | checking => exact id
    | aborting => exact id
    | leaving =>
      intro ⟨hs, hq⟩
      have := (hq i (hs.1 ▸ hi)).1
      rw [hopen] at this
      cases this
    | returned outcome =>
      intro hq
      have := hq i hi
      rw [hopen] at this
      cases this

/-! ## 6. Steps of the coordinator -/

/-- **Once all last signals have been heard, no worker is at work and no signal is under way.** -/
theorem Inv.all_quiet {trace : List Move} {s : State} (h : Inv c trace s)
    (hn : c.workers ≤ s.finished) :
    ∀ i < c.workers, (s.workers i).isOpen = false ∧ (s.workers i).outbox = [] := by
  rw [h.finished, countP_own h.heardBy Signal.isLast] at hn
  intro i hi
  exact (h.workers i).last.2 (eq_one_of_le_sum (fun j => (h.workers j).last.1) hn i hi)

/-- A step in which nothing is done and nothing is heard keeps what is known, as long as it holds of
    the coordinator. -/
theorem Inv.silent {trace : List Move} {s s' : State} (h : Inv c trace s) {m : Move}
    (hd : m.deed? = none) (hh : m.heard? = none) (htally : s'.tally = s.tally)
    (hworkers : s'.workers = s.workers) (hfinished : s'.finished = s.finished)
    (hintegrated : s'.integrated = s.integrated) (hfailed : s'.failed = s.failed)
    (hflag : s'.flag = true → isSighted (trace ++ [m]) = true)
    (haborted : s'.aborted = true → isSighted (trace ++ [m]) = true)
    (hstarted : s'.started ≤ c.workers) (hplace : s'.IsPlaced c) : Inv c (trace ++ [m]) s' where
  extent := by rw [htally]; exact h.extent
  sums := by
    rw [htally, deeds_append, hd, Option.toList_none, List.append_nil]
    exact h.sums
  counts := by
    rw [htally, deeds_append, hd, Option.toList_none, List.append_nil]
    exact h.counts
  workers i := by
    rw [hworkers]
    exact (h.workers i).other (by rw [hd]; rfl) (by rw [hh]; rfl)
  deedsBy d := by
    rw [deeds_append, hd, Option.toList_none, List.append_nil]
    exact h.deedsBy d
  heardBy d := by
    rw [heard_append, hh, Option.toList_none, List.append_nil]
    exact h.heardBy d
  finished := by
    rw [hfinished, heard_append, hh, Option.toList_none, List.append_nil]
    exact h.finished
  integrated := by
    rw [hintegrated, heard_append, hh, Option.toList_none, List.append_nil]
    exact h.integrated
  flag := hflag
  aborted := haborted
  failed := hfailed.trans h.failed
  started := hstarted
  place := hplace

/-- After a look, the coordinator is where it can rely on what is known there. -/
theorem Inv.afterCheck {trace : List Move} {s s' : State} (h : Inv c trace s)
    (hs : s.started = c.workers ∧ 0 < c.workers) (hstarted : s'.started = s.started)
    (hworkers : s'.workers = s.workers) (hfinished : s'.finished = s.finished)
    (hphase : s'.phase = s.afterCheck c) : s'.IsPlaced c := by
  unfold State.IsPlaced
  rw [hphase, State.afterCheck]
  by_cases hn : s.finished < c.workers
  · rw [if_pos hn]
    exact ⟨hstarted.trans hs.1, hfinished ▸ hn⟩
  · rw [if_neg hn, hworkers]
    exact ⟨⟨hstarted.trans hs.1, hs.2⟩, h.all_quiet (Nat.le_of_not_lt hn)⟩

/-- Hearing a signal counts it. -/
theorem Inv.hear {trace : List Move} {s : State} (h : Inv c trace s) {i : Nat} {signal : Signal}
    {rest : List Signal} (hphase : s.phase = .receiving) (hi : i < c.workers)
    (ho : (s.workers i).outbox = signal :: rest) :
    Inv c (trace ++ [.hear i signal])
      { s.hear i signal with
        workers := Function.update s.workers i { s.workers i with outbox := rest }
        phase := .checking } := by
  have hplace := h.place
  rw [State.IsPlaced, hphase] at hplace
  have manned : s.started = c.workers ∧ 0 < c.workers := ⟨hplace.1, Nat.zero_lt_of_lt hplace.2⟩
  have workers : ∀ j, WorkerInv c j (trace ++ [.hear i signal])
      (Function.update s.workers i { s.workers i with outbox := rest } j) := by
    intro j
    by_cases hj : j = i
    · subst hj
      rw [Function.update_self]
      exact (h.workers j).hear ho
    · rw [Function.update_of_ne hj]
      exact (h.workers j).other rfl (own_singleton_of_ne (Ne.symm hj) signal)
  have heardBy : ∀ d ∈ heard (trace ++ [.hear i signal]), d.1 < c.workers := by
    intro d hd
    rw [heard_append] at hd
    rcases List.mem_append.mp hd with hd | hd
    · exact h.heardBy d hd
    · rw [List.mem_singleton.mp hd]
      exact hi
  have finished : s.finished + (if signal.isLast then 1 else 0)
      = (heard (trace ++ [.hear i signal])).countP fun d => d.2.isLast := by
    rw [heard_append, List.countP_append, ← h.finished]
    simp [Move.heard?, List.countP_singleton]
  have integrated : s.integrated + (if signal.isLast then 0 else 1)
      = (heard (trace ++ [.hear i signal])).countP fun d => !d.2.isLast := by
    rw [heard_append, List.countP_append, ← h.integrated]
    cases hl : signal.isLast <;> simp [Move.heard?, hl]
  have deeds_eq : deeds (trace ++ [.hear i signal]) = deeds trace := by
    rw [deeds_append]
    exact List.append_nil _
  cases signal with
  | headingDone =>
    exact ⟨h.extent, deeds_eq ▸ h.sums, deeds_eq ▸ h.counts, workers, deeds_eq ▸ h.deedsBy,
      heardBy, finished, integrated, fun hf => isSighted_mono (h.flag hf) _,
      fun ha => isSighted_mono (h.aborted ha) _, h.failed, h.started, manned⟩
  | finished completed =>
    exact ⟨h.extent, deeds_eq ▸ h.sums, deeds_eq ▸ h.counts, workers, deeds_eq ▸ h.deedsBy,
      heardBy, finished, integrated, fun hf => isSighted_mono (h.flag hf) _,
      fun ha => isSighted_mono (h.aborted ha) _, h.failed, h.started, manned⟩
  | panicked =>
    refine absurd ?_ (h.workers i).not_panicked
    rw [ho]
    exact List.mem_cons_self

/-- **A step of the coordinator keeps what is known of the crew.** -/
theorem Inv.lead {trace : List Move} {s s' : State} {m : Move} (h : Inv c trace s)
    (hl : Leads c s m s') : Inv c (trace ++ [m]) s' := by
  have hflag : ∀ m, s.flag = true → isSighted (trace ++ [m]) = true :=
    fun m hf => isSighted_mono (h.flag hf) m
  have haborted : ∀ m, s.aborted = true → isSighted (trace ++ [m]) = true :=
    fun m ha => isSighted_mono (h.aborted ha) m
  have hplace := h.place
  unfold State.IsPlaced at hplace
  cases hl with
  | nobody hphase hn =>
    rw [hphase] at hplace
    refine h.silent rfl rfl rfl rfl rfl rfl rfl (hflag _) (haborted _) h.started fun i hi => ?_
    have : i < s.started := hi
    omega
  | turnAway hphase hn hs =>
    rw [hphase] at hplace
    refine h.silent rfl rfl rfl rfl rfl rfl rfl (hflag _) (haborted _) h.started fun i hi => ?_
    have : i < s.started := hi
    omega
  | unmanned reason hphase hn hs ht =>
    rw [hphase] at hplace
    refine h.silent rfl rfl rfl rfl rfl rfl rfl (hflag _) (haborted _) h.started fun i hi => ?_
    have : i < s.started := hi
    omega
  | enter hphase hn hs ht =>
    rw [hphase] at hplace
    exact h.silent rfl rfl rfl rfl rfl rfl rfl (hflag _) (haborted _) h.started
      ⟨hplace.1 ▸ hn, hplace.2⟩
  | dispatch hphase =>
    rw [hphase] at hplace
    refine h.silent rfl rfl rfl rfl rfl rfl rfl (hflag _) (haborted _) hplace.1 ?_
    unfold State.IsPlaced
    by_cases hmore : s.started + 1 < c.workers
    · simp only [if_pos hmore]
      exact ⟨hmore, hplace.2⟩
    · have hall : s.started + 1 = c.workers := by have := hplace.1; omega
      have hnone : s.finished < c.workers := by have := hplace.2; omega
      simp only [if_neg hmore]
      exact ⟨hall, hnone⟩
  | hear i signal rest hphase hi ho => exact h.hear hphase hi ho
  | timeOut hphase =>
    rw [hphase] at hplace
    exact h.silent rfl rfl rfl rfl rfl rfl rfl (hflag _) (haborted _) h.started
      ⟨hplace.1, Nat.zero_lt_of_lt hplace.2⟩
  | disconnect hphase hd =>
    rw [hphase] at hplace
    exact h.silent rfl rfl rfl rfl rfl rfl rfl (hflag _) (haborted _) h.started
      ⟨⟨hplace.1, Nat.zero_lt_of_lt hplace.2⟩, hd⟩
  | goOn hphase hs =>
    rw [hphase] at hplace
    exact h.silent rfl rfl rfl rfl rfl rfl rfl (hflag _) (haborted _) h.started
      (h.afterCheck hplace rfl rfl rfl rfl)
  | notice hphase ha hs =>
    rw [hphase] at hplace
    have seen : isSighted (trace ++ [.notice]) = true := by
      rw [isSighted_append]
      exact Bool.or_true _
    exact h.silent rfl rfl rfl rfl rfl rfl rfl (hflag _) (fun _ => seen) h.started
      ⟨hplace, rfl⟩
  | abort hphase =>
    rw [hphase] at hplace
    exact h.silent rfl rfl rfl rfl rfl rfl rfl (fun _ => haborted _ hplace.2) (haborted _) h.started
      (h.afterCheck hplace.1 rfl rfl rfl rfl)
  | fail i hphase hf =>
    rw [h.failed] at hf
    cases hf
  | giveUp hphase hf hs =>
    rw [hphase] at hplace
    exact h.silent rfl rfl rfl rfl rfl rfl rfl (hflag _) (haborted _) h.started
      fun i hi => (hplace.2 i (hplace.1.1 ▸ hi)).1
  | complete hphase hf ha hs =>
    rw [hphase] at hplace
    exact h.silent rfl rfl rfl rfl rfl rfl rfl (hflag _) (haborted _) h.started
      fun i hi => (hplace.2 i (hplace.1.1 ▸ hi)).1

/-! ## 7. Runs -/

/-- **A step of anybody keeps what is known of the crew.** -/
theorem Inv.step {trace : List Move} {s s' : State} {m : Move} (h : Inv c trace s)
    (hs : Step c s m s') : Inv c (trace ++ [m]) s' := by
  cases hs with
  | work i m w t hi hw => exact h.work hi hw
  | lead s' m hl => exact h.lead hl
  | cancel =>
    exact h.silent rfl rfl rfl rfl rfl rfl rfl (fun hf => isSighted_mono (h.flag hf) _)
      (fun ha => isSighted_mono (h.aborted ha) _) h.started h.place

/-- **It holds after every run.** -/
theorem inv_run {kind : State → Prop} {g : Generations} {trace : List Move} {s : State}
    (h : Run c kind (c.start g) trace s) : Inv c trace s := by
  induction h with
  | rest hk => exact inv_start g
  | step hr hs hk ih => exact ih.step hs

end Relief.Crew
