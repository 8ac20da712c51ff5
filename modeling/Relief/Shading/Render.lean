import Relief.Shading.Program
import Relief.Shading.Value

/-!
# Drawing programs

A program is evaluated once for each pixel of its target, over registers that hold the results of
its instructions. The colour of the output is stored in eight bits for each channel.

* `Program.registersAfter`: the registers after all instructions, for one fragment. What they hold
  before does not matter, since each instruction writes its register before another reads it;
* `Program.row`: the pixels of a row, from left to right over one set of registers;
* `Program.execute`: the image of a program, given the images that it samples;
* `Graph.render`: the image of a node of a graph.
-/

namespace Relief.Shading

/-! ## 1. Colours -/

/-- A number between zero and one as eight bits: the nearest multiple of `1/255`, a half going up.
    Other numbers are held in that range, and what is not a number is zero. -/
def quantize (v : Float32) : UInt8 :=
  if v.isNaN then 0
  else
    let held := if v < 0 then 0 else if 1 < v then 1 else v
    (Single.round (held * 255)).toUInt8

/-- Eight bits as a number between zero and one. -/
def unquantize (channel : UInt8) : Float32 :=
  channel.toFloat32 / 255

/-- The pixel of four lanes. -/
def pixelOf (r g b a : Float32) : Pixel :=
  ⟨quantize r, quantize g, quantize b, quantize a⟩

/-- The pixel that shows a value: a scalar is a grey level, a truth value black or white, lanes
    that are missing are zero and alpha is one. A matrix cannot be shown. -/
def Value.pixel? : Value → Option Pixel
  | .float x => some (pixelOf x x x 1)
  | .integer i =>
    let x := Single.ofInt i.toInt
    some (pixelOf x x x 1)
  | .boolean b =>
    let x := if b then 1 else 0
    some (pixelOf x x x 1)
  | .vec2 x y => some (pixelOf x y 0 1)
  | .vec3 v => some (pixelOf v.x v.y v.z 1)
  | .vec4 x y z w => some (pixelOf x y z w)
  | .mat3 _ => none

/-- The lanes of a texel. -/
def texelValue (p : Pixel) : Value :=
  .vec4 (unquantize p.red) (unquantize p.green) (unquantize p.blue) (unquantize p.alpha)

/-! ## 2. One fragment -/

/-- What an instruction can see of its fragment: its place, the target, and the texels there. -/
structure Site where
  x : UInt32
  y : UInt32
  target : Extent
  texels : List Pixel

/-- The values of instructions, in the order of the program. -/
abbrev Registers := Array Value

/-- The register of each instruction, by the number of the instruction. -/
def slotsFrom : (next : Nat) → List Instruction → Array (Option Nat) → Array (Option Nat)
  | _, [], slots => slots
  | next, i :: rest, slots => slotsFrom (next + 1) rest (slots.setIfInBounds i.id (some next))

/-- The registers of a program's instructions. -/
def Program.slots (p : Program) : Array (Option Nat) :=
  let size := match p.instructions.getLast? with
    | some i => i.id + 1
    | none => 0
  slotsFrom 0 p.instructions (Array.replicate size none)

/-- The value in the register of an instruction. -/
def read? (slots : Array (Option Nat)) (registers : Registers) (id : Nat) : Option Value :=
  slots[id]?.join.bind fun slot => registers[slot]?

/-- The value of an instruction. -/
def Instruction.value? (i : Instruction) (slots : Array (Option Nat)) (registers : Registers)
    (site : Site) : Option Value :=
  match i.term with
  | .float x => some (.float x)
  | .integer n => some (.integer n)
  | .boolean b => some (.boolean b)
  | .texel binding => site.texels[binding]?.map texelValue
  | .position => some (.vec2 (site.x.toFloat32 + 0.5) (site.y.toFloat32 + 0.5))
  | .resolution => some (.vec2 site.target.width.toFloat32 site.target.height.toFloat32)
  | .construct parts => (parts.mapM (read? slots registers)).bind (construct? i.kind)
  | .apply op operands => (operands.mapM (read? slots registers)).bind op.evaluate?

/-- The registers after some instructions, the first of which writes the register `next`. -/
def registersFrom (slots : Array (Option Nat)) (site : Site) :
    (next : Nat) → List Instruction → Registers → Except Failure Registers
  | _, [], registers => .ok registers
  | next, i :: rest, registers =>
    match i.value? slots registers site with
    | none => .error (.illFormedInstruction i.id)
    | some v => registersFrom slots site (next + 1) rest (registers.setIfInBounds next v)

/-- The registers of a program after all of its instructions. -/
def Program.registersAfter (p : Program) (slots : Array (Option Nat)) (site : Site)
    (registers : Registers) : Except Failure Registers :=
  registersFrom slots site 0 p.instructions registers

/-- The pixel of a fragment, and the registers as they are left behind. -/
def Program.shade (p : Program) (slots : Array (Option Nat)) (site : Site)
    (registers : Registers) : Except Failure (Pixel × Registers) :=
  match p.registersAfter slots site registers with
  | .error f => .error f
  | .ok registers =>
    match (read? slots registers p.output).bind Value.pixel? with
    | none => .error (.illFormedInstruction p.output)
    | some pixel => .ok (pixel, registers)

/-! ## 3. Rows and images -/

/-- What a fragment can see of the images that a program samples. -/
def siteAt (target : Extent) (inputs : List Image) (x y : UInt32) : Site where
  x
  y
  target
  texels := inputs.map fun img => (img.pixel? x y).getD ⟨0, 0, 0, 0⟩

/-- The pixels of a row from column `x` on, `count` of them. -/
def Program.row (p : Program) (slots : Array (Option Nat)) (inputs : List Image) (y : UInt32) :
    (count : Nat) → (x : UInt32) → Registers → Except Failure (List Pixel)
  | 0, _, _ => .ok []
  | count + 1, x, registers =>
    match p.shade slots (siteAt p.target inputs x y) registers with
    | .error f => .error f
    | .ok (pixel, registers) =>
      match p.row slots inputs y count (x + 1) registers with
      | .error f => .error f
      | .ok rest => .ok (pixel :: rest)

/-- The pixels of all rows. Each row starts over with registers of the right kinds. -/
def Program.rows (p : Program) (inputs : List Image) : Except Failure (List (List Pixel)) :=
  let slots := p.slots
  let registers := (p.instructions.map fun i => Value.zero i.kind).toArray
  (List.range p.target.height.toNat).mapM fun y =>
    p.row slots inputs y.toUInt32 p.target.width.toNat 0 registers

/-- The image with the given pixels. -/
def imageOf (target : Extent) (pixels : Array Pixel) : Except Failure Image :=
  match Image.ofPixels? target pixels with
  | .ok image => .ok image
  | .error reason => .error (.unfitImage reason)

/-- Draws a program, sampling the given images. Memory for the whole image is taken before the first
    pixel is drawn. -/
def Program.execute (p : Program) (inputs : List Image) : Except Failure Image :=
  if inputs.length ≠ p.inputs.length then .error (.inputCount p.inputs.length inputs.length)
  else
    match inputs.find? fun img => img.toExtent ≠ p.target with
    | some img => .error (.inputExtent img.toExtent p.target)
    | none =>
      if p.target.isEmpty then imageOf p.target #[]
      else if p.target.isHoldable then
        match p.rows inputs with
        | .error f => .error f
        | .ok rows => imageOf p.target rows.flatten.toArray
      else .error (.unfitImage .unholdable)

/-- The images that a program of a graph samples, in the order in which they are bound. -/
def Graph.inputsOf (g : Graph) (p : Program) : List Image :=
  p.inputs.filterMap fun slot => g.textures[slot]?.map Texture.image

/-- Draws a node of a graph. Nothing is executed for a target without pixels. -/
def Graph.render (g : Graph) (out : Node) : Except Failure Image :=
  match g.compile out with
  | .error f => .error f
  | .ok p => if p.target.isEmpty then imageOf p.target #[] else p.execute (g.inputsOf p)

end Relief.Shading
