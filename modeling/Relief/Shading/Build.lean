import Relief.Run.Course
import Relief.Shading.Render

/-!
# Writing and drawing expressions

`Build` is the monad in which expressions are written: each call records an instruction in the graph
at hand. `Build.image` draws the node that an expression ends in, and `Build.draw` is the course of
doing so, with the events that it reports. Both have the same result (`result_draw`).
-/

namespace Relief.Shading

/-- Writing an expression: recording its calls in a graph. -/
abbrev Build := StateT Graph (Except Failure)

namespace Build

/-- Records a call. -/
def call (c : Call) : Build Node := fun g =>
  match g.record c with
  | .error f => .error f
  | .ok (g, node) => .ok (node, g)

/-- A number. -/
def float (x : Float32) : Build Node :=
  call (.float x)

/-- A binary operator. -/
def binary (op : BinaryOp) (a b : Node) : Build Node :=
  call (.apply (.binary op) [a, b])

/-- A built-in function. -/
def builtin (f : Builtin) (args : List Node) : Build Node :=
  call (.apply (.builtin f) args)

/-- A lane of a vector. -/
def lane (a : Node) (index : Nat) : Build Node :=
  call (.apply (.lane index) [a])

/-- The image of the node that an expression ends in, on a target of its own. -/
def image (b : Build Node) (target : Extent) : Except Failure Image :=
  match b (.empty 0 target) with
  | .error f => .error f
  | .ok (out, g) => g.render out

end Build

/-! ## 1. Drawing as a course -/

/-- Executes a program, and reports it. -/
def Program.run (p : Program) (inputs : List Image) : Course (Except Failure Image) :=
  .report (.executionBegins p.target) (.done (p.execute inputs))

/-- Draws a node of a graph, and reports it. -/
def Graph.draw (g : Graph) (out : Node) : Course (Except Failure Image) :=
  match g.compile out with
  | .error f => .done (.error f)
  | .ok p =>
    if p.target.isEmpty then .done (imageOf p.target #[])
    else
      .report (.programRendered p.instructions.length p.inputs.length p.fingerprint)
        (p.run (g.inputsOf p))

/-- Draws the node that an expression ends in on a target of its own, and reports it. The graph is
    given up at the end, unless drawing has failed. -/
def Build.draw (b : Build Node) (target : Extent) : Course (Except Failure Image) :=
  .report (.graphBound target) <|
    match b (.empty 0 target) with
    | .error f => .done (.error f)
    | .ok (out, g) =>
      (g.draw out).bind fun
        | .error f => .done (.error f)
        | .ok image => .report .graphPurged (.done (.ok image))

/-- **Drawing as a course has the result of drawing.** -/
theorem Graph.result_draw (g : Graph) (out : Node) : (g.draw out).result = g.render out := by
  unfold Graph.draw Graph.render
  cases g.compile out with
  | error f => rfl
  | ok p => cases h : p.target.isEmpty <;> simp [Program.run, h]

/-- **Drawing an expression as a course has the result of drawing it.** -/
theorem Build.result_draw (b : Build Node) (target : Extent) :
    (b.draw target).result = b.image target := by
  unfold Build.draw Build.image
  cases b (.empty 0 target) with
  | error f => rfl
  | ok outcome =>
    simp only [Course.result_report, Course.result_bind, Graph.result_draw]
    cases outcome.2.render outcome.1 <;> rfl

end Relief.Shading
