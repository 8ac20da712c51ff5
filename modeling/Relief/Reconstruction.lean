import Relief.Depth.Extraction
import Relief.Depth.Integration
import Relief.Depth.Levels
import Relief.Options

/-!
# Reconstructions

A reconstruction makes a depth map of a normal map: it takes the slopes, integrates them along the
headings of a sweep, turns the tally into grey levels and finishes these. Between the stages it
looks whether it is still wanted.

* `Request`: what is asked for;
* `Reconstruction.task`: the stages, one after the other.
-/

namespace Relief

/-- A normal map, a mask if it is not the normal map itself, and the options. -/
structure Request where
  map : Image
  mask : Option Image := none
  options : Options := {}

/-- A depth map, and the counters of its integration. -/
structure Reconstruction where
  depth : Image
  stats : Stats

/-- The mask of a request, if it does not have the extent of the map. -/
def Request.misfit? (r : Request) : Option Image :=
  r.mask.filter fun mask => mask.toExtent ≠ r.map.toExtent

namespace Reconstruction

/-- The reconstruction of a map without pixels. -/
def ofEmpty (e : Extent) : Reconstruction where
  depth := .tabulate e fun _ _ => .grey Levels.flat
  stats := {}

/-- The stages for a map that has pixels. -/
def stages (r : Request) (processors : Processors) : Task Reconstruction := do
  let extent := r.map.toExtent
  let slopes ← .attempt (Extraction.course r.map r.options.convention)
  Task.goOn
  let sweep := Sweep.plan extent r.options.quality
  let launch := Launch.plan extent r.options.layout
  let integration ← Integration.task slopes sweep launch r.options.threading processors
  Task.goOn
  let depth ← .ofCourse (Levels.course integration.tally)
  Task.goOn
  let mask := r.mask.getD r.map
  let depth ← .attempt (r.options.finish.course depth (some mask))
  Task.goOn
  .tell (.reconstructionCompleted integration.stats)
  return ⟨depth, integration.stats⟩

/-- The reconstruction that a request asks for, by work that was started in a generation. -/
def task (r : Request) (generation : UInt64) (processors : Processors) : Task Reconstruction :=
  .bind (.tell (.reconstructionBegins r.map.toExtent generation)) fun _ =>
    match r.misfit? with
    | some mask => .fail (.maskExtent mask.toExtent r.map.toExtent)
    | none =>
      .bind .goOn fun _ =>
        if r.map.isEmpty then .done (ofEmpty r.map.toExtent) else stages r processors

end Reconstruction

end Relief
