import Relief.Depth.Slopes
import Relief.Shading.Build

/-!
# Slopes from a normal map

A normal map holds the direction in which a surface faces at each pixel, one coordinate to a
channel. The slope along an axis is the quotient of that axis' channel by the blue one. The surface
is known where none of the three is zero.

* `Extraction.field`: the expression, written for a convention;
* `Extraction.slopes`: the slope field of a normal map, and `Extraction.course`, which reports what
  is done for it;
* `Extraction.program`: the program alone, for maps of an extent.
-/

namespace Relief.Extraction

open Shading

/-- The green channel as it would be if green pointed up. -/
def upward (convention : Convention) (map : Node) : Build Node :=
  match convention with
  | .openGl => Build.lane map 1
  | .directX => do
    let one ← Build.float 1
    let green ← Build.lane map 1
    Build.binary .sub one green

/-- The slopes across and down, and the least of the three channels, over a texture. -/
def field (map : Texture) (convention : Convention) : Build Node := do
  let texel ← Build.call (.texture map)
  let red ← Build.lane texel 0
  let green ← upward convention texel
  let blue ← Build.lane texel 2
  let least ← Build.builtin .min [red, green]
  let known ← Build.builtin .min [blue, least]
  let across ← Build.binary .div red blue
  let down ← Build.binary .div green blue
  let solid ← Build.float 1
  Build.call (.construct [across, down, known, solid])

/-- The expression over a normal map. -/
def fieldOf (map : Image) (convention : Convention) : Build Node :=
  field ⟨0, map⟩ convention

/-- The slope field of a normal map. -/
def slopes (map : Image) (convention : Convention) : Except Failure Slopes :=
  ((fieldOf map convention).image map.toExtent).map Slopes.mk

/-- Takes the slope field of a normal map, and reports it. -/
def course (map : Image) (convention : Convention) : Course (Except Failure Slopes) :=
  .report (.extractionBegins map.toExtent convention) <|
    ((fieldOf map convention).draw map.toExtent).bind fun drawn =>
      .report .extractionEnds (.done (drawn.map Slopes.mk))

/-- **The course takes the slope field of the map.** -/
theorem result_course (map : Image) (convention : Convention) :
    (course map convention).result = slopes map convention := by
  simp [course, slopes, Build.result_draw]

/-- The program that takes slopes from maps of an extent. -/
def program (e : Extent) (convention : Convention) : Except Failure Program :=
  match Image.filled? e ⟨128, 128, 255, 255⟩ with
  | .error reason => .error (.unfitImage reason)
  | .ok map =>
    match fieldOf map convention (.empty 0 e) with
    | .error f => .error f
    | .ok (out, g) => g.compile out

/-- Prepares the program that takes slopes from maps of an extent, and reports it. -/
def programCourse (e : Extent) (convention : Convention) : Course (Except Failure Program) :=
  match program e convention with
  | .error f => .done (.error f)
  | .ok p => .report (.graphBound e) (.report .graphPurged (.done (.ok p)))

end Relief.Extraction
