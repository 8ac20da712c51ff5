import Relief.Depth.Integration
import Relief.Proofs.Depth.Dealing
import Relief.Proofs.Depth.Posting
import Relief.Proofs.Run.Persistence

/-!
# Integration in turn

What the headings of a sweep leave in a tally where they are marched one after the other.

* `headingVisits`: the visits of all rays of a heading, in order;
* `follow_inOrder`: before an observer who withdraws nothing, headings one after the other leave
  all their visits in the tally;
* `holds_planned`, `holds_inBatches`: so does a sweep in its planned order, and so do batches;
* `exists_workerCount`: how many workers integrate them is told wherever it is not asked for none,
  and `workerCount_le`: there are no more of them than headings;
* `Lacks`: the machine does not start the threads of these workers; `shortage?_of_manned`: otherwise
  it does.
-/

namespace Relief

namespace Integration

open Course

/-! ## 1. The visits of a sweep -/

/-- The visits of the ray that is launched at a point, none where it cannot meet the image. -/
def rayVisits (slopes : Slopes) (launch : Launch) (step start : Point) : List Visit :=
  if launch.reaches start step then Ray.visits slopes launch step start else []

/-- The visits of all rays of a heading. -/
def headingVisits (slopes : Slopes) (launch : Launch) (heading : Heading) : List Visit :=
  launch.points.flatMap (rayVisits slopes launch heading.opposite.step)

theorem slot_lt_of_mem_rayVisits {slopes : Slopes} {launch : Launch} {step start : Point}
    {v : Visit} (h : v ∈ rayVisits slopes launch step start) : v.slot < slopes.extent.area := by
  unfold rayVisits at h
  split at h
  · exact Ray.slot_lt_of_mem_visits h
  · simp at h

variable (slopes : Slopes) (launch : Launch)

/-- The visits of a ray are all absorbed. -/
theorem absorb_visits {t : Tally} (ht : t.extent = slopes.extent) (step start : Point) :
    t.absorb (Ray.visits slopes launch step start)
      = ((t.absorb (Ray.visits slopes launch step start)).1, true) :=
  Prod.ext rfl <| Tally.absorb_of_named fun v hv => by
    rw [ht]
    exact Ray.slot_lt_of_mem_visits hv

/-! ## 2. Headings one after the other -/

section Calm

variable {σ : Type} {o : Observer σ} {s : σ} (hs : o.answer s = false)
include hs

/-- Rays that nobody withdraws are all marched, and leave all their visits. -/
theorem follow_marchRays (step : Point) (starts : List Point) {t : Tally} {visits : List Visit}
    (ht : t.Holds slopes.extent visits) :
    ∃ t', (marchRays slopes launch step starts t).follow o s = ((t', .complete), s) ∧
      t'.Holds slopes.extent (visits ++ starts.flatMap (rayVisits slopes launch step)) := by
  induction starts generalizing t visits with
  | nil => exact ⟨t, rfl, by simpa using ht⟩
  | cons start rest ih =>
    simp only [marchRays, follow, hs, Bool.false_eq_true, if_false]
    rw [List.flatMap_cons, ← List.append_assoc]
    by_cases hr : launch.reaches start step = true
    · have hold := ht.absorb fun v (hv : v ∈ Ray.visits slopes launch step start) =>
        Ray.slot_lt_of_mem_visits hv
      rw [if_pos hr, absorb_visits slopes launch ht.extent, rayVisits, if_pos hr]
      exact ih hold
    · rw [if_neg hr, rayVisits, if_neg hr, List.append_nil]
      exact ih ht

/-- **Headings that nobody withdraws are all completed, and leave all their visits.** -/
theorem follow_inOrder (headings : List Heading) {t : Tally} {visits : List Visit}
    (ht : t.Holds slopes.extent visits) :
    ∃ t', (inOrder slopes launch headings t).follow o s
        = ((t', headings.length, .complete), s) ∧
      t'.Holds slopes.extent (visits ++ headings.flatMap (headingVisits slopes launch)) := by
  induction headings generalizing t visits with
  | nil => exact ⟨t, rfl, by simpa using ht⟩
  | cons heading rest ih =>
    obtain ⟨t₁, e₁, h₁⟩ := follow_marchRays slopes launch hs heading.opposite.step launch.points ht
    obtain ⟨t₂, e₂, h₂⟩ := ih h₁
    refine ⟨t₂, ?_, ?_⟩
    · simp only [inOrder, marchHeading, follow_bind, e₁, e₂, follow, List.length_cons]
    · rw [List.flatMap_cons, ← List.append_assoc]
      exact h₂

end Calm

/-! ## 3. Batches -/

/-- A tally after batches of headings, one after the other. -/
def inBatches (batches : List (List Heading)) (t : Tally) : Tally :=
  batches.foldl (fun t batch => (inOrder slopes launch batch t).result.1) t

/-- The tally that a sweep in its planned order leaves in a new one. -/
def planned (sweep : Sweep) : Tally :=
  (inOrder slopes launch sweep.headings (.new slopes.extent)).result.1

theorem holds_planned (sweep : Sweep) :
    (planned slopes launch sweep).Holds slopes.extent
      (sweep.headings.flatMap (headingVisits slopes launch)) := by
  obtain ⟨t, e, ht⟩ := follow_inOrder slopes launch (o := patient) (s := ()) rfl sweep.headings
    (Tally.holds_new slopes.extent)
  rw [planned, result, e]
  exact ht

theorem holds_inBatches (batches : List (List Heading)) {t : Tally} {visits : List Visit}
    (ht : t.Holds slopes.extent visits) :
    (inBatches slopes launch batches t).Holds slopes.extent
      (visits ++ batches.flatten.flatMap (headingVisits slopes launch)) := by
  induction batches generalizing t visits with
  | nil => simpa [inBatches] using ht
  | cons batch rest ih =>
    obtain ⟨t', e, ht'⟩ := follow_inOrder slopes launch (o := patient) (s := ()) rfl batch ht
    rw [List.flatten_cons, List.flatMap_append, ← List.append_assoc]
    have step : inBatches slopes launch (batch :: rest) t = inBatches slopes launch rest t' := by
      simp only [inBatches, List.foldl_cons, result, e]
    rw [step]
    exact ih ht'

/-! ## 4. The coordinator before an observer -/

section Coordinator

variable {σ : Type} (o : Observer σ) {s : σ} (sweep : Sweep)

/-- An integration is conducted between two reports. -/
theorem follow_task_eq (threading : Threading) (processors : Processors) (s : σ) :
    (task slopes sweep launch threading processors).follow o s
      = (((conduct slopes sweep launch threading processors).follow o
            (o.note s (.integrationBegins sweep.length slopes.extent))).1,
          o.note ((conduct slopes sweep launch threading processors).follow o
            (o.note s (.integrationBegins sweep.length slopes.extent))).2 .integrationEnds) :=
  follow_bind o (conduct slopes sweep launch threading processors) _ _

/-- Where there is a worker, a coordinator conducts it. -/
theorem conduct_of_pos {threading : Threading} {processors : Processors} {workers : Nat}
    (count : workerCount threading processors.count sweep.length = .ok workers)
    (positive : 0 < workers) :
    conduct slopes sweep launch threading processors
      = coordinate slopes sweep launch (processors.shortage? workers) workers := by
  rw [conduct, count]
  cases workers with
  | zero => cases positive
  | succ n => rfl

/-- A coordinator who finds the work superseded gives up, whatever threads there are. -/
theorem follow_coordinate_superseded (shortage? : Option String) (workers : Nat)
    (hs : o.answer s = true) :
    (coordinate slopes sweep launch shortage? workers).follow o s = (.ok none, s) :=
  Task.follow_goOn_superseded _ hs

/-- One for whom the machine starts no threads fails. -/
theorem follow_coordinate_short (reason : String) (workers : Nat) (hs : o.answer s = false) :
    (coordinate slopes sweep launch (some reason) workers).follow o s
      = (.error (.noWorkerThreads reason), s) :=
  Task.follow_goOn_calm _ hs

/-- Otherwise the headings are dealt out, the workers work, and the coordinator looks for the last
    time. -/
theorem follow_coordinate_calm (workers : Nat) (hs : o.answer s = false) :
    (coordinate slopes sweep launch none workers).follow o s =
      let telling := tellAll ((sweep.deal workers).mapIdx fun worker share =>
        Event.workerDispatched worker share.length)
      let worked := (workAll slopes launch 0 (sweep.deal workers) (.start slopes.extent)).follow o
        (telling.follow o s).2
      (conclude (statsOf sweep launch workers) worked.1).follow o worked.2 :=
  (Task.follow_goOn_calm _ hs).trans ((follow_bind o _ _ s).trans (follow_bind o _ _ _))

end Coordinator

/-! ## 5. The whole integration -/

/-- What an integration holds to which all headings of a sweep have contributed. -/
structure Complete (sweep : Sweep) (r : Integration) : Prop where
  tally : r.tally.Holds slopes.extent (sweep.headings.flatMap (headingVisits slopes launch))
  planned : r.stats.planned = sweep.length
  integrated : r.stats.integrated = sweep.length

/-- **There are workers wherever it is not asked for none**, and if there are headings, there is at
    least one. -/
theorem exists_workerCount {threading : Threading} (h : threading.threads ≠ some 0)
    (processors headings : Nat) :
    ∃ workers, workerCount threading processors headings = .ok workers ∧
      (workers = 0 ↔ headings = 0) := by
  unfold workerCount
  cases ht : threading.threads with
  | none =>
    refine ⟨_, rfl, ?_⟩
    omega
  | some threads =>
    have asked : threads ≠ 0 := fun e => h (ht.trans (congrArg some e))
    have positive : threads.toNat ≠ 0 := fun e => asked (UInt64.toNat_inj.mp e)
    refine ⟨min threads.toNat headings, if_neg asked, ?_⟩
    omega

/-- Where workers are counted, it is not asked for none. -/
theorem threads_ne_of_workerCount {threading : Threading} {processors headings workers : Nat}
    (count : workerCount threading processors headings = .ok workers) :
    threading.threads ≠ some 0 := by
  intro nobody
  rw [workerCount, nobody] at count
  cases count

/-- There never are more workers than headings. -/
theorem workerCount_le {threading : Threading} {processors headings workers : Nat}
    (h : workerCount threading processors headings = .ok workers) : workers ≤ headings := by
  unfold workerCount at h
  split at h
  · cases h
    exact Nat.min_le_right _ _
  · split at h
    · cases h
    · cases h
      exact Nat.min_le_right _ _

/-- The machine does not start the threads of the workers that an integration asks for. -/
def Lacks (threading : Threading) (processors : Processors) (headings : Nat) (reason : String) :
    Prop :=
  ∃ workers, workerCount threading processors.count headings = .ok workers ∧ 0 < workers ∧
    processors.shortage? workers = some reason

/-- It lacks them for one reason. -/
theorem Lacks.unique {threading : Threading} {processors : Processors} {headings : Nat}
    {reason reason' : String} (h : Lacks threading processors headings reason)
    (h' : Lacks threading processors headings reason') : reason = reason' := by
  obtain ⟨workers, count, -, short⟩ := h
  obtain ⟨workers', count', -, short'⟩ := h'
  obtain rfl : workers = workers' := Except.ok.inj (count.symm.trans count')
  exact Option.some.inj (short.symm.trans short')

theorem not_lacks_plenty (threading : Threading) (count headings : Nat) (reason : String) :
    ¬ Lacks threading (.plenty count) headings reason := by
  rintro ⟨_, -, -, short⟩
  cases short

/-- Where it lacks none, the machine starts them. -/
theorem shortage?_of_manned {threading : Threading} {processors : Processors}
    {headings workers : Nat} (manned : ∀ reason, ¬ Lacks threading processors headings reason)
    (count : workerCount threading processors.count headings = .ok workers)
    (positive : 0 < workers) : processors.shortage? workers = none := by
  cases short : processors.shortage? workers with
  | none => rfl
  | some reason => exact absurd ⟨workers, count, positive, short⟩ (manned reason)

/-- **An integration without the threads of its workers fails** where nobody withdraws it. -/
theorem result_task_of_lacks (slopes : Slopes) (sweep : Sweep) (launch : Launch)
    {threading : Threading} {processors : Processors} {reason : String}
    (h : Lacks threading processors sweep.length reason) :
    (task slopes sweep launch threading processors).result
      = .error (.noWorkerThreads reason) := by
  obtain ⟨workers, count, positive, short⟩ := h
  show ((task slopes sweep launch threading processors).follow patient ()).1 = _
  rw [follow_task_eq, conduct_of_pos slopes launch sweep count positive, short]
  exact congrArg Prod.fst (follow_coordinate_short slopes launch patient sweep reason workers rfl)

end Integration

end Relief
