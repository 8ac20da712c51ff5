import Relief.Proofs.Depth.InTurn
import Relief.Proofs.Run.Heeding
import Relief.Reconstruction

/-!
# The parts of a reconstruction

A reconstruction opens with the slopes of its map, integrates them, and closes with the depth map of
the integration. Opening and closing look only to give up.

* `opening`, `closing`: the stages before the integration, and those after it;
* `task_eq`: **a reconstruction is its opening, the integration and its closing**;
* `heeds_opening`, `heeds_closing`: both heed their looks;
* `result_opening`, `result_closing`: what they come to where nobody withdraws them. The depth map
  depends on the numbers of the tally alone (`Levels.image_congr`), and not on whether one of its
  sums has wrapped on the way.
-/

namespace Relief.Reconstruction

open Relief.Task

/-! ## 1. The three parts -/

/-- The stages before the integration. They end with the slopes of the map, or with the whole
    reconstruction where the map has no pixels. -/
def opening (r : Request) (generation : UInt64) : Task (Reconstruction ⊕ Slopes) :=
  .bind (.tell (.reconstructionBegins r.map.toExtent generation)) fun _ =>
    match r.misfit? with
    | some mask => .fail (.maskExtent mask.toExtent r.map.toExtent)
    | none =>
      .bind .goOn fun _ =>
        if r.map.isEmpty then .done (.inl (ofEmpty r.map.toExtent))
        else
          .bind (.attempt (Extraction.course r.map r.options.convention)) fun slopes =>
            .bind .goOn fun _ => .done (.inr slopes)

/-- The sweep that a request is integrated along. -/
def sweepOf (r : Request) : Sweep :=
  .plan r.map.toExtent r.options.quality

/-- The launch points of a request. -/
def launchOf (r : Request) : Launch :=
  .plan r.map.toExtent r.options.layout

/-- The integration of a request. -/
def integrating (r : Request) (processors : Processors) (slopes : Slopes) : Task Integration :=
  Integration.task slopes (sweepOf r) (launchOf r) r.options.threading processors

/-- The stages after the integration. -/
def closing (r : Request) (integration : Integration) : Task Reconstruction :=
  .bind .goOn fun _ =>
    .bind (.ofCourse (Levels.course integration.tally)) fun depth =>
      .bind .goOn fun _ =>
        .bind (.attempt (r.options.finish.course depth (some (r.mask.getD r.map)))) fun depth =>
          .bind .goOn fun _ =>
            .bind (.tell (.reconstructionCompleted integration.stats)) fun _ =>
              .done ⟨depth, integration.stats⟩

theorem stages_eq (r : Request) (processors : Processors) :
    stages r processors =
      .bind (.attempt (Extraction.course r.map r.options.convention)) fun slopes =>
        .bind .goOn fun _ => .bind (integrating r processors slopes) (closing r) := rfl

/-- What follows the opening. -/
def following (r : Request) (processors : Processors) : Reconstruction ⊕ Slopes → Task Reconstruction
  | .inl whole => .done whole
  | .inr slopes => .bind (integrating r processors slopes) (closing r)

/-- **A reconstruction is its opening, the integration and its closing.** -/
theorem task_eq (r : Request) (generation : UInt64) (processors : Processors) :
    task r generation processors = .bind (opening r generation) (following r processors) := by
  rw [task, opening, Task.bind_assoc]
  congr 1
  funext _
  cases r.misfit? with
  | some mask => rfl
  | none =>
    dsimp only
    rw [Task.bind_assoc]
    congr 1
    funext _
    by_cases h : r.map.isEmpty = true
    · rw [if_pos h, if_pos h]
      rfl
    · rw [if_neg h, if_neg h, Task.bind_assoc, stages_eq]
      congr 1
      funext slopes
      exact (Task.bind_assoc goOn (fun _ => .done (.inr slopes)) (following r processors)).symm

/-! ## 2. Opening and closing heed their looks -/

theorem isQuiet_graph_draw (g : Shading.Graph) (out : Shading.Node) : (g.draw out).IsQuiet := by
  unfold Shading.Graph.draw
  split
  · exact .done _
  · split
    · exact .done _
    · exact .report _ (.report _ (.done _))

theorem isQuiet_draw (b : Shading.Build Shading.Node) (target : Extent) :
    (b.draw target).IsQuiet := by
  refine .report _ ?_
  split
  · exact .done _
  · refine (isQuiet_graph_draw _ _).bind fun drawn => ?_
    cases drawn with
    | error reason => exact .done _
    | ok image => exact .report _ (.done _)

theorem isQuiet_extraction (map : Image) (convention : Convention) :
    (Extraction.course map convention).IsQuiet :=
  .report _ ((isQuiet_draw _ _).bind fun _ => .report _ (.done _))

theorem isQuiet_levels (t : Tally) : (Levels.course t).IsQuiet := by
  refine .report _ ?_
  show (if t.overflowed then _ else _ : Course Image).IsQuiet
  split
  · exact .report _ (.report _ (.done _))
  · exact .report _ (.done _)

theorem isQuiet_finish (f : Finish) (depth : Image) (mask : Option Image) :
    (f.course depth mask).IsQuiet := by
  refine .report _ (Course.IsQuiet.bind ?_ fun _ => .report _ (.done _))
  split
  · exact .done _
  · exact isQuiet_draw _ _

/-- **The opening looks only to give up.** -/
theorem heeds_opening (r : Request) (generation : UInt64) : (opening r generation).Heeds := by
  refine (heeds_tell _).bind fun _ => ?_
  split
  · exact .done _
  · refine heeds_goOn.bind fun _ => ?_
    split
    · exact .done _
    · refine (heeds_attempt (isQuiet_extraction _ _)).bind fun slopes => ?_
      exact heeds_goOn.bind fun _ => .done _

/-- **The closing looks only to give up.** -/
theorem heeds_closing (r : Request) (integration : Integration) :
    (closing r integration).Heeds := by
  refine heeds_goOn.bind fun _ => ?_
  refine (heeds_ofCourse (isQuiet_levels _)).bind fun depth => ?_
  refine heeds_goOn.bind fun _ => ?_
  refine (heeds_attempt (isQuiet_finish _ _ _)).bind fun depth => ?_
  refine heeds_goOn.bind fun _ => ?_
  exact (heeds_tell _).bind fun _ => .done _

/-! ## 3. Their results -/

/-- What the opening of a request ends with. -/
theorem result_opening (r : Request) (generation : UInt64) :
    Course.result (opening r generation) =
      match r.misfit? with
      | some mask => .error (.maskExtent mask.toExtent r.map.toExtent)
      | none =>
        if r.map.isEmpty then .ok (some (.inl (ofEmpty r.map.toExtent)))
        else (Extraction.slopes r.map r.options.convention).map fun slopes => some (.inr slopes) := by
  rw [opening, Task.result_bind]
  show Course.result (match r.misfit? with | some mask => _ | none => _ : Task _) = _
  cases r.misfit? with
  | some mask => rfl
  | none =>
    rw [result_goOn_bind]
    by_cases h : r.map.isEmpty = true
    · rw [if_pos h]
      exact (if_pos h).symm
    · rw [if_neg h, result_attempt_bind, Extraction.result_course]
      show _ = if r.map.isEmpty then _ else _
      rw [if_neg h]
      cases Extraction.slopes r.map r.options.convention <;> rfl

/-- What an integration is closed with. -/
theorem result_closing (r : Request) (integration : Integration) :
    Course.result (closing r integration) =
      (r.options.finish.image (Levels.image integration.tally) (some (r.mask.getD r.map))).map
        fun depth => some ⟨depth, integration.stats⟩ := by
  rw [closing, result_goOn_bind, result_ofCourse_bind, result_goOn_bind, result_attempt_bind,
    Levels.result_course, Finish.result_course]
  cases r.options.finish.image _ _ <;> rfl

end Relief.Reconstruction

namespace Relief.Levels

/-- **Grey levels depend on the numbers of a tally alone.** -/
theorem image_congr {t u : Tally} (extent : t.extent = u.extent) (h : t.Agrees u) :
    image t = image u := by
  obtain ⟨extent, sums, counts, overflowed, size_sums, size_counts⟩ := t
  obtain ⟨extent', sums', counts', overflowed', size_sums', size_counts'⟩ := u
  obtain ⟨rfl, rfl⟩ : sums = sums' ∧ counts = counts' := ⟨h.sums, h.counts⟩
  subst extent
  rfl

end Relief.Levels
