import Relief.Failure
import Relief.Shading.Operator

/-!
# Expression graphs

A graph records instructions for one target, each of them over results of earlier ones. Callers hold
nodes, which name the result of an instruction of one graph.

* `Call`: what a caller may ask for: a constant, the fragment's place, a texture, a construction or
  an operator;
* `Graph.record`: adds the instruction of a call, and answers its node. A call that does not fit
  leaves the graph as it is;
* `Bench`: several graphs side by side. A call that is made on a node is recorded in the graph of
  that node, and no call may use nodes of another graph than the one it is recorded in.
-/

namespace Relief.Shading

/-! ## 1. Instructions -/

/-- What an instruction computes. The operands are the numbers of other instructions. -/
inductive Term where
  | float (x : Float32)
  | integer (i : Int32)
  | boolean (b : Bool)
  /-- The texel under the fragment, of the texture at a place of the list of textures. -/
  | texel (slot : Nat)
  /-- The middle of the fragment. -/
  | position
  /-- Width and height of the target. -/
  | resolution
  | construct (parts : List Nat)
  | apply (op : Operator) (operands : List Nat)

/-- The instructions that a term reads. -/
def Term.operands : Term → List Nat
  | construct parts => parts
  | apply _ operands => operands
  | _ => []

/-- An instruction: its number, the kind of its result, and what it computes. -/
structure Instruction where
  id : Nat
  kind : Kind
  term : Term

/-- An image that can be sampled. Two textures are one if they have the same tag and the same
    image. -/
structure Texture where
  tag : Nat
  image : Image
  deriving DecidableEq

/-- The result of an instruction of a graph. -/
structure Node where
  graph : Nat
  id : Nat
  kind : Kind
  deriving DecidableEq, Repr

/-! ## 2. Graphs -/

/-- The instructions recorded for a target, and the textures that they sample. -/
structure Graph where
  id : Nat
  target : Extent
  instructions : Array Instruction
  textures : Array Texture

/-- What a caller may ask a graph to record. -/
inductive Call where
  | float (x : Float32)
  | integer (i : Int32)
  | boolean (b : Bool)
  | position
  | resolution
  | texture (t : Texture)
  | construct (parts : List Node)
  | apply (op : Operator) (operands : List Node)

/-- The nodes that a call uses. -/
def Call.operands : Call → List Node
  | construct parts => parts
  | apply _ operands => operands
  | _ => []

namespace Graph

/-- A graph in which nothing has been recorded. -/
def empty (id : Nat) (target : Extent) : Graph where
  id
  target
  instructions := #[]
  textures := #[]

/-- Adds an instruction, whose number is the number of instructions before it. The numbers go on
    without end here. They stand for words of 32 bits, which tell the instructions of a graph apart
    as long as there are no more than `2 ^ 32` of them. -/
def push (g : Graph) (kind : Kind) (term : Term) : Graph × Node :=
  let id := g.instructions.size
  ({ g with instructions := g.instructions.push ⟨id, kind, term⟩ }, ⟨g.id, id, kind⟩)

/-- The place of a texture among those of the graph, which are added to if it is not there. -/
def bindTexture (g : Graph) (t : Texture) : Graph × Nat :=
  match g.textures.finIdxOf? t with
  | some slot => (g, slot)
  | none => ({ g with textures := g.textures.push t }, g.textures.size)

/-- The first of some nodes that belongs to another graph. -/
def stray? (g : Graph) (nodes : List Node) : Option Node :=
  nodes.find? fun n => n.graph ≠ g.id

/-- Whether the operator asks for a lane that the vector does not have. -/
def badLane? : Operator → List Node → Option Misuse
  | .lane index, [a] => if index < a.kind.components then none else some (.noSuchLane index a.kind)
  | _, _ => none

/-- The kind and the instruction of a call that fits. -/
def term? (g : Graph) (c : Call) : Except Failure (Kind × Term) :=
  match c with
  | .float x => if x.isFinite then .ok (.f32, .float x) else .error (.misuse (.nonFiniteLiteral x))
  | .integer i => .ok (.i32, .integer i)
  | .boolean b => .ok (.bool, .boolean b)
  | .position => .ok (.vec2, .position)
  | .resolution => .ok (.vec2, .resolution)
  | .texture t =>
    if t.image.toExtent = g.target then .ok (.vec4, .texel (g.bindTexture t).2)
    else .error (.textureExtent t.image.toExtent g.target)
  | .construct parts =>
    match constructed? (parts.map Node.kind) with
    | none => .error (.misuse (.noSuchOperator (parts.map Node.kind)))
    | some kind =>
      match g.stray? parts with
      | some n => .error (.misuse (.foreignNode n.graph g.id))
      | none => .ok (kind, .construct (parts.map Node.id))
  | .apply op operands =>
    match op.result? (operands.map Node.kind) with
    | none => .error (.misuse (.noSuchOperator (operands.map Node.kind)))
    | some kind =>
      match badLane? op operands with
      | some mistake => .error (.misuse mistake)
      | none =>
        match g.stray? operands with
        | some n => .error (.misuse (.foreignNode n.graph g.id))
        | none => .ok (kind, .apply op (operands.map Node.id))

/-- The textures of the graph after a call: a texture that is sampled has a place. -/
def texturesAfter (g : Graph) : Call → Array Texture
  | .texture t => (g.bindTexture t).1.textures
  | _ => g.textures

/-- Records the instruction of a call, and answers its node. -/
def record (g : Graph) (c : Call) : Except Failure (Graph × Node) :=
  match g.term? c with
  | .error f => .error f
  | .ok (kind, term) => .ok ({ g with textures := g.texturesAfter c }.push kind term)

end Graph

/-! ## 3. Several graphs -/

/-- Whether an operator is asked of a graph. All others are asked of their first operand. -/
def Operator.asksGraph : Operator → Bool
  | .builtin f => f = .step || f = .mix || f = .select || f = .atan2
  | _ => false

/-- The graph that records a call made while `graph` is at hand. -/
def Call.home (c : Call) (graph : Nat) : Nat :=
  match c with
  | .apply op (a :: _) => if op.asksGraph then graph else a.graph
  | _ => graph

/-- Graphs side by side; the number of a graph is its place. -/
structure Bench where
  graphs : Array Graph

namespace Bench

/-- Empty graphs for the given targets. -/
def ofTargets (targets : List Extent) : Bench where
  graphs := (targets.mapIdx Graph.empty).toArray

/-- Records a call in the graph that it belongs to. -/
def record (b : Bench) (graph : Nat) (c : Call) : Except Failure (Bench × Node) :=
  let home := c.home graph
  match b.graphs[home]? with
  | none => .error (.misuse (.noSuchGraph home))
  | some g =>
    match g.record c with
    | .error f => .error f
    | .ok (g, node) => .ok (⟨b.graphs.setIfInBounds home g⟩, node)

end Bench

end Relief.Shading
