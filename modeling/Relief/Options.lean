import Relief.Depth.Finish
import Relief.Depth.Launch
import Relief.Json.Number
import Relief.Json.Reader
import Relief.Json.Record
import Relief.Json.Writer
import Relief.Run.Settings

/-!
# Options of a reconstruction

What a reconstruction can be told, and how that is read and written as JSON.

* `Options`: the settings, each with a default;
* `Options.read?`: the options that a text sets, the others keeping their defaults;
* `Options.text`: the text that sets all of them.
-/

namespace Relief

/-- The settings of a reconstruction. -/
structure Options where
  /-- The fraction of the headings that an image can tell apart. -/
  quality : Float32 := 0.25
  /-- The strength of the term against perspective. -/
  perspective : Float32 := 0
  layout : Layout := .circular
  /-- Whether masked pixels are black. -/
  blackens : Bool := true
  /-- Whether masked pixels are transparent. -/
  clears : Bool := false
  convention : Convention := .openGl
  threading : Threading := {}
  deriving Inhabited

/-- The corrections that the options ask for. -/
def Options.finish (o : Options) : Finish where
  perspective := o.perspective
  blackens := o.blackens
  clears := o.clears

/-! ## 1. Names -/

/-- The name of a layout. -/
def Layout.name : Layout → String
  | circular => "circular"
  | rectangular => "rectangular"

/-- All layouts. -/
def Layout.all : List Layout :=
  [circular, rectangular]

/-- The name of a convention. -/
def Convention.name : Convention → String
  | openGl => "open_gl"
  | directX => "direct_x"

/-- All conventions. -/
def Convention.all : List Convention :=
  [openGl, directX]

/-- What draws images: this library itself. -/
inductive Backend where
  | cpu
  deriving DecidableEq, Inhabited, Repr

/-- The name of a backend. -/
def Backend.name : Backend → String
  | cpu => "cpu"

/-- All backends. -/
def Backend.all : List Backend :=
  [cpu]

/-! ## 2. Fields -/

/-- The fields of the worker settings. -/
def Threading.fields : List (Field Threading) := [
  { name := "threads"
    get := fun t => match t.threads with
      | some n => .ofWord n
      | none => .null
    set? := fun t j => (Json.optional? Json.word? j).map fun threads => { t with threads } },
  { name := "poll_interval_ms"
    get := fun t => .ofWord t.pollInterval
    set? := fun t j => j.word?.map fun pollInterval => { t with pollInterval } }]

/-- The worker settings that a value says. -/
def Threading.ofJson? (j : Json) : Option Threading :=
  Record.read? fields {} j

/-- The fields of the options. -/
def Options.fields : List (Field Options) := [
  { name := "quality"
    get := fun o => .ofSingle o.quality
    set? := fun o j => j.single?.map fun quality => { o with quality } },
  { name := "perspective_factor"
    get := fun o => .ofSingle o.perspective
    set? := fun o j => j.single?.map fun perspective => { o with perspective } },
  { name := "frame"
    get := fun o => Choice.write Layout.name o.layout
    set? := fun o j => (Choice.read? Layout.all Layout.name j).map fun layout =>
      { o with layout } },
  { name := "mask"
    get := fun o => .boolean o.blackens
    set? := fun o j => j.boolean?.map fun blackens => { o with blackens } },
  { name := "alpha_from_mask"
    get := fun o => .boolean o.clears
    set? := fun o j => j.boolean?.map fun clears => { o with clears } },
  { name := "convention"
    get := fun o => Choice.write Convention.name o.convention
    set? := fun o j => (Choice.read? Convention.all Convention.name j).map fun convention =>
      { o with convention } },
  { name := "threading"
    get := fun o => Record.write Threading.fields o.threading
    set? := fun o j => (Threading.ofJson? j).map fun threading => { o with threading } }]

/-! ## 3. Texts -/

/-- The options that a value says. -/
def Options.ofJson? (j : Json) : Option Options :=
  Record.read? fields {} j

/-- The options that a text says. -/
def Options.read? (text : String) : Option Options :=
  (Json.read? text).bind ofJson?

/-- The options that a text says. -/
def Options.read (text : String) : Except Failure Options :=
  match read? text with
  | some o => .ok o
  | none => .error .unreadableOptions

/-- The text that sets all options. -/
def Options.text (o : Options) : String :=
  (Record.write fields o).text

/-- Whether two values of the options are alike, where a number that is none is like nothing. -/
def Options.isLike (o p : Options) : Bool :=
  o.quality == p.quality && o.perspective == p.perspective && o.layout == p.layout
    && o.blackens == p.blackens && o.clears == p.clears && o.convention == p.convention
    && o.threading == p.threading

end Relief
