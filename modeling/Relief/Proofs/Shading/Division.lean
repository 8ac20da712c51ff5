import Mathlib.Algebra.BigOperators.Ring.List
import Mathlib.Algebra.Ring.Nat
import Relief.Proofs.Shading.Drawing

/-!
# Drawing by tasks

The rows of an image can be drawn by several tasks, each over registers of its own, and all of them
into the same bytes. A division says who draws which rows and in which order, and what a task finds
in its registers when it begins a pixel. Anybody may take the next step at any time.

* `Division`, `Division.Step`: the tasks, and the steps of any of them;
* `Division.Gives`: what may become of drawing, refusals and failures included;
* `Division.next_cases`: a task has drawn all of its rows, or moves on; it never fails;
* `Division.Keeps`: **a pixel that no task is still to draw is stored where it belongs**;
* `Division.Reached.steps_add_stepsLeft`: every step brings the end nearer by one;
* `Division.gives_iff`: **every division gives the image of the program**, and nothing else;
* `execution_is_local`: this, and what a pixel depends on, for the programs of recorded graphs.

No two tasks share a row or a register, and none reads a byte. So a step is a whole pixel, with its
four bytes.
-/

namespace Relief.Shading

/-! ## 1. Divisions and their tasks -/

/-- How the rows of a program's target are divided among tasks. -/
structure Division (p : Program) where
  /-- The rows of each task, in the order in which it draws them. -/
  shares : List (List Nat)
  shares_perm : shares.flatten.Perm (List.range p.target.height.toNat)
  /-- What the registers hold when pixel `x` of row `y` is begun, after what was `left` in them. -/
  found : (y x : Nat) → (left : Registers) → Registers
  holds_found : ∀ (y x : Nat) (left : Registers), p.Holds left → p.Holds (found y x left)

/-- A task: the rows that it is still to draw, its column in the first of them, and its
    registers. -/
structure Task where
  rows : List Nat
  column : Nat
  registers : Registers

/-- Where drawing has got to: the tasks, and the bytes of the image. -/
structure Drawing where
  tasks : List Task
  bytes : Array UInt8

/-- Whether all tasks have drawn all of their rows. -/
def Drawing.IsDone (s : Drawing) : Prop :=
  ∀ t ∈ s.tasks, t.rows = []

/-- The number of bytes of a row. -/
def Program.rowBytes (p : Program) : Nat :=
  p.target.width.toNat * 4

namespace Division

variable {p : Program} (d : Division p) (inputs : List Image)

/-- Before the first step all bytes are zero, and so are all registers. -/
def start : Drawing where
  tasks := d.shares.map fun rows =>
    { rows, column := 0, registers := (p.instructions.map fun i => Value.zero i.kind).toArray }
  bytes := Array.replicate (p.rowBytes * p.target.height.toNat) 0

/-- What a task does next: it draws a pixel, or turns to its next row. There is nothing to do for
    one that has drawn all of its rows. -/
def next? (t : Task) (bytes : Array UInt8) : Option (Except Failure (Task × Array UInt8)) :=
  match t.rows with
  | [] => none
  | y :: rest =>
    if t.column < p.target.width.toNat then
      match p.shade p.slots (siteAt p.target inputs t.column.toUInt32 y.toUInt32)
          (d.found y t.column t.registers) with
      | .error f => some (.error f)
      | .ok (pixel, registers) =>
        some (.ok ({ t with column := t.column + 1, registers },
          pixel.store bytes (y * p.rowBytes + t.column * 4)))
    else some (.ok ({ t with rows := rest, column := 0 }, bytes))

/-- A step of any of the tasks. -/
inductive Step : Drawing → Except Failure Drawing → Prop where
  | go (before after : List Task) (t t' : Task) (bytes bytes' : Array UInt8)
      (h : d.next? inputs t bytes = some (.ok (t', bytes'))) :
      Step ⟨before ++ t :: after, bytes⟩ (.ok ⟨before ++ t' :: after, bytes'⟩)
  | fail (before after : List Task) (t : Task) (bytes : Array UInt8) (f : Failure)
      (h : d.next? inputs t bytes = some (.error f)) :
      Step ⟨before ++ t :: after, bytes⟩ (.error f)

/-- What so many steps from the start may lead to. -/
inductive Reached : (steps : Nat) → Drawing → Prop where
  | start : Reached 0 d.start
  | step {steps : Nat} {s s' : Drawing} (h : Reached steps s) (hs : d.Step inputs s (.ok s')) :
      Reached (steps + 1) s'

/-- The image with the given bytes. -/
def imageOfBytes (target : Extent) (bytes : Array UInt8) : Except Failure Image :=
  (Image.ofBytes? target bytes).mapError Failure.unfitImage

/-- The ways in which the tasks may end: with all rows drawn, or with the first failure. -/
def Ends (outcome : Except Failure Image) : Prop :=
  ∃ steps s, d.Reached inputs steps s ∧
    (s.IsDone ∧ outcome = imageOfBytes p.target s.bytes ∨
      ∃ f, d.Step inputs s (.error f) ∧ outcome = .error f)

/-- **What may become of drawing a program by tasks.** They are not started if the images do not
    fit, for a target without pixels, or where memory cannot hold the bytes. -/
def Gives (outcome : Except Failure Image) : Prop :=
  if inputs.length ≠ p.inputs.length then
    outcome = .error (.inputCount p.inputs.length inputs.length)
  else
    match inputs.find? fun image => image.toExtent ≠ p.target with
    | some image => outcome = .error (.inputExtent image.toExtent p.target)
    | none =>
      if p.target.isEmpty then outcome = imageOfBytes p.target #[]
      else if p.target.isHoldable then d.Ends inputs outcome
      else outcome = .error (.unfitImage .unholdable)

end Division

/-! ## 2. Pixels that are still to be drawn -/

/-- Whether a task is still to draw a pixel: it is in that row and has not passed the column, or is
    to come to the row later. -/
def Task.IsToDraw (t : Task) (x y : Nat) : Prop :=
  match t.rows with
  | [] => False
  | first :: rest => y = first ∧ t.column ≤ x ∨ y ∈ rest

/-- A task at the beginning of a row is to draw that row and all later ones. -/
theorem isToDraw_of_mem {rows : List Nat} {y : Nat} (h : y ∈ rows) (x : Nat)
    (registers : Registers) : Task.IsToDraw ⟨rows, 0, registers⟩ x y := by
  cases rows with
  | nil => cases h
  | cons first rest =>
    rcases List.mem_cons.mp h with rfl | later
    · exact .inl ⟨rfl, Nat.zero_le x⟩
    · exact .inr later

/-- The steps that a task is still to take. -/
def Task.stepsLeft (t : Task) (width : Nat) : Nat :=
  match t.rows with
  | [] => 0
  | _ :: rest => (width - t.column) + 1 + rest.length * (width + 1)

/-- One step for each pixel, and one for each row. -/
theorem stepsLeft_of_column_zero (rows : List Nat) (registers : Registers) (width : Nat) :
    Task.stepsLeft ⟨rows, 0, registers⟩ width = rows.length * (width + 1) := by
  cases rows with
  | nil => exact (Nat.zero_mul _).symm
  | cons first rest => exact (Nat.add_comm _ _).trans (Nat.succ_mul _ _).symm

/-- The steps that all tasks are still to take. -/
def Drawing.stepsLeft (s : Drawing) (width : Nat) : Nat :=
  (s.tasks.map fun t => t.stepsLeft width).sum

/-- All is drawn when no step is left. -/
theorem stepsLeft_eq_zero_iff (s : Drawing) (width : Nat) : s.stepsLeft width = 0 ↔ s.IsDone := by
  rw [Drawing.stepsLeft, List.sum_eq_zero_iff_forall_eq_nat, Drawing.IsDone, List.forall_mem_map]
  refine forall₂_congr fun t _ => ?_
  unfold Task.stepsLeft
  split
  · simp only [*]
  · rename_i e
    simp only [e, reduceCtorEq, iff_false]
    omega

/-! ## 3. Pixels that are stored -/

namespace Program

variable {p : Program} {inputs : List Image} {bytes : Array UInt8} {x y : Nat}

/-- The pixel of a place is stored there. -/
def Stores (p : Program) (inputs : List Image) (bytes : Array UInt8) (x y : Nat) : Prop :=
  ∃ pixel, p.colour? (siteAt p.target inputs x.toUInt32 y.toUInt32) = some pixel ∧
    ∀ c < 4, bytes[(y * p.target.width.toNat + x) * 4 + c]? = pixel.bytes[c]?

/-- The offset of a pixel in its row, behind the rows before it. -/
theorem offset_eq (p : Program) (x y : Nat) :
    y * p.rowBytes + x * 4 = (y * p.target.width.toNat + x) * 4 := by
  rw [rowBytes, Nat.add_mul, Nat.mul_assoc]

/-- A pixel that is stored in its place is there. -/
theorem stores_store {pixel : Pixel} (size : bytes.size = 4 * p.target.area)
    (hx : x < p.target.width.toNat) (hy : y < p.target.height.toNat)
    (colour : p.colour? (siteAt p.target inputs x.toUInt32 y.toUInt32) = some pixel) :
    p.Stores inputs (pixel.store bytes (y * p.rowBytes + x * 4)) x y := by
  have inside : y * p.target.width.toNat + x < p.target.area := place_lt hx hy
  refine ⟨pixel, colour, fun c hc => ?_⟩
  rw [p.offset_eq, pixel.getElem?_store (by omega) hc]

/-- What is stored in one place stays when another pixel is stored. -/
theorem Stores.store (h : p.Stores inputs bytes x y) (hx : x < p.target.width.toNat) {x' y' : Nat}
    (hx' : x' < p.target.width.toNat) (ne : ¬ (x = x' ∧ y = y')) (other : Pixel) :
    p.Stores inputs (other.store bytes (y' * p.rowBytes + x' * 4)) x y := by
  obtain ⟨pixel, colour, channels⟩ := h
  have apart : y * p.target.width.toNat + x ≠ y' * p.target.width.toNat + x' :=
    fun same => ne (place_injective hx hx' same)
  refine ⟨pixel, colour, fun c hc => ?_⟩
  rw [p.offset_eq, other.getElem?_store_of_outside _ (by omega), channels c hc]

end Program

/-! ## 4. What a step does -/

namespace Division

/-- What a step of one task makes of the task and of the bytes. -/
structure Moves (p : Program) (inputs : List Image) (t t' : Task) (bytes bytes' : Array UInt8) :
    Prop where
  holds : p.Holds t'.registers
  rows : ∀ y ∈ t'.rows, y ∈ t.rows
  size : bytes'.size = bytes.size
  nearer : t'.stepsLeft p.target.width.toNat + 1 = t.stepsLeft p.target.width.toNat
  passes : ∀ x y, x < p.target.width.toNat → t.IsToDraw x y →
    t'.IsToDraw x y ∨ p.Stores inputs bytes' x y
  stays : ∀ x y, x < p.target.width.toNat → p.Stores inputs bytes x y → p.Stores inputs bytes' x y

variable {p : Program} (d : Division p) {inputs : List Image} {bytes : Array UInt8}

/-- A pixel is drawn. -/
theorem moves_draw {y column : Nat} {rest : List Nat} {registers after : Registers} {pixel : Pixel}
    (size : bytes.size = 4 * p.target.area) (hx : column < p.target.width.toNat)
    (hy : y < p.target.height.toNat)
    (colour : p.colour? (siteAt p.target inputs column.toUInt32 y.toUInt32) = some pixel)
    (holds : p.Holds after) :
    Moves p inputs ⟨y :: rest, column, registers⟩ ⟨y :: rest, column + 1, after⟩ bytes
      (pixel.store bytes (y * p.rowBytes + column * 4)) where
  holds
  rows _ mem := mem
  size := pixel.size_store _ _
  nearer := by
    simp only [Task.stepsLeft]
    omega
  passes x' y' _ toDraw := by
    rcases toDraw with ⟨rfl, le⟩ | later
    · rcases Nat.eq_or_lt_of_le le with rfl | lt
      · exact .inr (p.stores_store size hx hy colour)
      · exact .inl (.inl ⟨rfl, lt⟩)
    · exact .inl (.inr later)
  stays x' y' hx' stored := by
    by_cases here : x' = column ∧ y' = y
    · obtain ⟨rfl, rfl⟩ := here
      exact p.stores_store size hx hy colour
    · exact stored.store hx' hx here pixel

/-- A task turns to its next row. -/
theorem moves_turn {y column : Nat} {rest : List Nat} {registers : Registers}
    (hx : p.target.width.toNat ≤ column) (holds : p.Holds registers) :
    Moves p inputs ⟨y :: rest, column, registers⟩ ⟨rest, 0, registers⟩ bytes bytes where
  holds
  rows _ mem := List.mem_cons_of_mem y mem
  size := rfl
  nearer := by
    rw [stepsLeft_of_column_zero]
    simp only [Task.stepsLeft]
    omega
  passes x' y' hx' toDraw := by
    rcases toDraw with ⟨_, le⟩ | later
    · exact absurd (Nat.lt_of_lt_of_le hx' hx) (Nat.not_lt.mpr le)
    · exact .inl (isToDraw_of_mem later x' registers)
  stays _ _ _ stored := stored

/-- **A task has drawn all of its rows, or moves.** It never fails. -/
theorem next_cases (h : p.Sound) (hi : inputs.length = p.inputs.length) {t : Task}
    (holds : p.Holds t.registers) (inside : ∀ y ∈ t.rows, y < p.target.height.toNat)
    (size : bytes.size = 4 * p.target.area) :
    (t.rows = [] ∧ d.next? inputs t bytes = none) ∨
    ∃ t' bytes', d.next? inputs t bytes = some (.ok (t', bytes')) ∧
      Moves p inputs t t' bytes bytes' := by
  obtain ⟨rows, column, registers⟩ := t
  cases rows with
  | nil => exact .inl ⟨rfl, rfl⟩
  | cons y rest =>
    right
    by_cases hx : column < p.target.width.toNat
    · obtain ⟨pixel, after, colour, drawn, kept⟩ :=
        h.shade_eq ((length_texels p.target inputs column.toUInt32 y.toUInt32).trans hi)
          (d.holds_found y column registers holds).size
      refine ⟨_, _, ?_, moves_draw size hx (inside y List.mem_cons_self) colour kept⟩
      simp only [next?, if_pos hx, drawn]
    · refine ⟨_, _, ?_, moves_turn (Nat.le_of_not_lt hx) holds⟩
      simp only [next?, if_neg hx]

/-- What holds at every time. -/
structure Keeps (p : Program) (inputs : List Image) (s : Drawing) : Prop where
  size : s.bytes.size = 4 * p.target.area
  holds : ∀ t ∈ s.tasks, p.Holds t.registers
  rows : ∀ t ∈ s.tasks, ∀ y ∈ t.rows, y < p.target.height.toNat
  /-- What no task is still to draw is stored. -/
  drawn : ∀ x y, x < p.target.width.toNat → y < p.target.height.toNat →
    (∃ t ∈ s.tasks, t.IsToDraw x y) ∨ p.Stores inputs s.bytes x y

/-- Nothing is stored at the start, and every row is still to be drawn. -/
theorem keeps_start : Keeps p inputs d.start where
  size := by
    rw [start, Array.size_replicate, Program.rowBytes, Extent.area, Nat.mul_right_comm,
      Nat.mul_comm]
  holds t ht := by
    obtain ⟨rows, _, rfl⟩ := List.mem_map.mp ht
    exact p.holds_zero
  rows t ht y hy := by
    obtain ⟨rows, hrows, rfl⟩ := List.mem_map.mp ht
    exact List.mem_range.mp (d.shares_perm.mem_iff.mp (List.mem_flatten.mpr ⟨rows, hrows, hy⟩))
  drawn x y _ hy := by
    obtain ⟨rows, hrows, mem⟩ :=
      List.mem_flatten.mp (d.shares_perm.mem_iff.mpr (List.mem_range.mpr hy))
    exact .inl ⟨_, List.mem_map_of_mem hrows, isToDraw_of_mem mem x _⟩

/-- One step for each pixel of the target, and one for each row. -/
theorem stepsLeft_start :
    d.start.stepsLeft p.target.width.toNat
      = p.target.height.toNat * (p.target.width.toNat + 1) := by
  have all := d.shares_perm.length_eq
  rw [List.length_range, List.length_flatten] at all
  simp only [Drawing.stepsLeft, start, List.map_map, Function.comp_def, stepsLeft_of_column_zero]
  rw [List.sum_map_mul_right, all]

namespace Keeps

variable {d} {s : Drawing} (k : Keeps p inputs s) (h : p.Sound)
variable (hi : inputs.length = p.inputs.length)
include k h hi

/-- No step fails. -/
theorem not_fail (f : Failure) : ¬ d.Step inputs s (.error f) := by
  intro hs
  cases hs with
  | fail before after t bytes _ hn =>
    have mem : t ∈ before ++ t :: after := List.mem_append_right _ List.mem_cons_self
    rcases d.next_cases h hi (k.holds t mem) (k.rows t mem) k.size with ⟨_, e⟩ | ⟨_, _, e, _⟩
    all_goals
      rw [e] at hn
      cases hn

/-- As long as rows are left, somebody can take a step. -/
theorem exists_step (hd : ¬ s.IsDone) : ∃ s', d.Step inputs s (.ok s') := by
  obtain ⟨tasks, bytes⟩ := s
  simp only [Drawing.IsDone, not_forall] at hd
  obtain ⟨t, mem, busy⟩ := hd
  obtain ⟨before, after, rfl⟩ := List.append_of_mem mem
  rcases d.next_cases h hi (k.holds t mem) (k.rows t mem) k.size with ⟨idle, _⟩ | ⟨_, _, e, _⟩
  · exact absurd idle busy
  · exact ⟨_, .go before after t _ bytes _ e⟩

/-- A step is the move of one task. -/
theorem exists_moves {s' : Drawing} (hs : d.Step inputs s (.ok s')) :
    ∃ before after t t', s.tasks = before ++ t :: after ∧ s'.tasks = before ++ t' :: after ∧
      Moves p inputs t t' s.bytes s'.bytes := by
  cases hs with
  | go before after t t' bytes bytes' hn =>
    have mem : t ∈ before ++ t :: after := List.mem_append_right _ List.mem_cons_self
    refine ⟨before, after, t, t', rfl, rfl, ?_⟩
    rcases d.next_cases h hi (k.holds t mem) (k.rows t mem) k.size with ⟨_, e⟩ | ⟨_, _, e, moves⟩
    · rw [e] at hn
      cases hn
    · rw [e] at hn
      cases hn
      exact moves

/-- **Every step keeps what holds.** -/
theorem step {s' : Drawing} (hs : d.Step inputs s (.ok s')) : Keeps p inputs s' := by
  obtain ⟨before, after, t, t', old, new, moves⟩ := k.exists_moves h hi hs
  have mem : t ∈ s.tasks := old ▸ List.mem_append_right _ List.mem_cons_self
  have mem' : t' ∈ s'.tasks := new ▸ List.mem_append_right _ List.mem_cons_self
  have others : ∀ u, u ∈ s'.tasks → u = t' ∨ u ∈ s.tasks := by
    intro u hu
    rw [new, List.mem_append, List.mem_cons] at hu
    rw [old, List.mem_append, List.mem_cons]
    tauto
  refine ⟨moves.size.trans k.size, fun u hu => ?_, fun u hu => ?_, fun x y hx hy => ?_⟩
  · rcases others u hu with rfl | same
    · exact moves.holds
    · exact k.holds u same
  · rcases others u hu with rfl | same
    · exact fun y hy => k.rows t mem y (moves.rows y hy)
    · exact k.rows u same
  · rcases k.drawn x y hx hy with ⟨u, hu, toDraw⟩ | stored
    · rw [old, List.mem_append, List.mem_cons] at hu
      by_cases moved : u = t
      · subst moved
        exact (moves.passes x y hx toDraw).imp_left fun now => ⟨t', mem', now⟩
      · have same : u ∈ s'.tasks := by
          rw [new, List.mem_append, List.mem_cons]
          tauto
        exact .inl ⟨u, same, toDraw⟩
    · exact .inr (moves.stays x y hx stored)

/-- **Every step brings the end nearer by one.** -/
theorem stepsLeft_step {s' : Drawing} (hs : d.Step inputs s (.ok s')) :
    s'.stepsLeft p.target.width.toNat + 1 = s.stepsLeft p.target.width.toNat := by
  obtain ⟨before, after, t, t', old, new, moves⟩ := k.exists_moves h hi hs
  have nearer := moves.nearer
  simp only [Drawing.stepsLeft, old, new, List.map_append, List.map_cons, List.sum_append,
    List.sum_cons]
  omega

end Keeps

/-! ## 5. To the end -/

namespace Reached

variable {d} {steps : Nat} {s : Drawing} (r : d.Reached inputs steps s) (h : p.Sound)
variable (hi : inputs.length = p.inputs.length)
include r h hi

/-- What every step keeps holds of all that is reached. -/
theorem keeps : Keeps p inputs s := by
  induction r with
  | start => exact d.keeps_start
  | step _ hs ih => exact ih.step h hi hs

/-- **The steps taken and those left are always as many.** -/
theorem steps_add_stepsLeft :
    steps + s.stepsLeft p.target.width.toNat
      = p.target.height.toNat * (p.target.width.toNat + 1) := by
  induction r with
  | start => rw [Nat.zero_add, d.stepsLeft_start]
  | step r hs ih =>
    have nearer := (r.keeps h hi).stepsLeft_step h hi hs
    omega

/-- From everywhere the end can be reached. -/
theorem exists_done : ∃ total last, d.Reached inputs total last ∧ last.IsDone := by
  induction hl : s.stepsLeft p.target.width.toNat generalizing steps s with
  | zero => exact ⟨steps, s, r, (stepsLeft_eq_zero_iff s _).mp hl⟩
  | succ n ih =>
    have busy : ¬ s.IsDone := fun done => by
      rw [(stepsLeft_eq_zero_iff s _).mpr done] at hl
      cases hl
    have k := r.keeps h hi
    obtain ⟨s', hs⟩ := k.exists_step h hi busy
    refine ih (r.step hs) ?_
    have nearer := k.stepsLeft_step h hi hs
    omega

end Reached

/-- **When all rows are drawn, the bytes are those of the image of the program.** -/
theorem Keeps.imageOfBytes {s : Drawing} (k : Keeps p inputs s) (h : p.Sound) (hd : s.IsDone)
    {image : Image} (drawn : p.execute inputs = .ok image) :
    imageOfBytes p.target s.bytes = .ok image := by
  have holdable := ((h.execute_eq_ok_iff inputs).mp ⟨image, drawn⟩).2
  obtain ⟨extent, pixels⟩ := h.execute_pixels drawn
  have made : Image.ofBytes? image.toExtent s.bytes = .ok image := by
    refine Image.ofBytes?_eq_ok (extent ▸ Extent.count_lt holdable) (extent ▸ k.size)
      fun x y hx hy => ?_
    rw [extent] at hx hy
    have hx' := UInt32.lt_iff_toNat_lt.mp hx
    have hy' := UInt32.lt_iff_toNat_lt.mp hy
    rcases k.drawn x.toNat y.toNat hx' hy' with ⟨t, ht, later⟩ | ⟨pixel, value, channels⟩
    · rw [Task.IsToDraw, hd t ht] at later
      exact later.elim
    · have back : ∀ w : UInt32, w.toNat.toUInt32 = w := fun _ => UInt32.ofNat_toNat
      rw [back, back] at value
      exact ⟨pixel, (pixels x y hx hy).trans value, extent ▸ channels⟩
  rw [Division.imageOfBytes, ← extent, made]
  rfl

/-- **The tasks end with the image of the program, and with nothing else.** -/
theorem ends_iff (h : p.Sound) (fits : p.Accepts inputs) (hh : p.target.isHoldable = true)
    (outcome : Except Failure Image) :
    d.Ends inputs outcome ↔ outcome = p.execute inputs := by
  obtain ⟨image, drawn⟩ := (h.execute_eq_ok_iff inputs).mpr ⟨fits, hh⟩
  constructor
  · rintro ⟨steps, s, r, ⟨done, rfl⟩ | ⟨f, hs, rfl⟩⟩
    · rw [(r.keeps h fits.1).imageOfBytes h done drawn, drawn]
    · exact absurd hs ((r.keeps h fits.1).not_fail h fits.1 f)
  · rintro rfl
    obtain ⟨total, last, r, done⟩ := (Reached.start (d := d)).exists_done h fits.1
    refine ⟨total, last, r, .inl ⟨done, ?_⟩⟩
    rw [(r.keeps h fits.1).imageOfBytes h done drawn, drawn]

/-- Without bytes there are no pixels. -/
theorem imageOfBytes_of_isEmpty {target : Extent} (he : target.isEmpty = true) :
    Division.imageOfBytes target #[] = imageOf target #[] := by
  have area := area_of_isEmpty he
  simp only [Division.imageOfBytes, imageOf, Image.ofBytes?, Image.ofPixels?, Extent.byteCount?,
    area]
  rfl

/-- **What becomes of drawing a program by tasks is what becomes of drawing it row by row.** -/
theorem gives_iff (h : p.Sound) (inputs : List Image) (outcome : Except Failure Image) :
    d.Gives inputs outcome ↔ outcome = p.execute inputs := by
  unfold Gives
  split
  · rename_i hn
    rw [Program.execute_of_length_ne hn]
  · rename_i hn
    have length := Classical.not_not.mp hn
    split
    · rename_i image found
      rw [Program.execute, if_neg hn, found]
    · rename_i alike
      have fits : p.Accepts inputs := by
        refine ⟨length, fun image hi => ?_⟩
        have := List.find?_eq_none.mp alike image hi
        simpa using this
      split
      · rename_i hempty
        rw [Program.execute_of_fits fits.1 fits.2, if_pos hempty, imageOfBytes_of_isEmpty hempty]
      · split
        · rename_i holdable
          exact d.ends_iff h fits holdable outcome
        · rename_i holdable
          rw [Program.execute_of_unholdable fits.1 fits.2 (Bool.eq_false_iff.mpr holdable)]

end Division

/-! ## 6. Programs of recorded graphs -/

/-- **Drawing is local, and does not depend on who draws which rows.** A program of a recorded graph
    draws an image exactly if as many images are bound as it samples, all of the extent of its
    target, and memory can hold that. Four bytes of the image, at the offset of a pixel, are the
    channels of a colour that the program has for the column, the row and the texels that the bound
    images have there. And this image, or else the same refusal, is what drawing comes to however
    the rows are divided among tasks, in whatever order these take their steps, and whatever values
    of the kinds of the instructions their registers hold when a pixel is begun. No step fails, as
    long as rows are left somebody can take one, and after one for each pixel and one for each row
    all rows are drawn. -/
theorem execution_is_local {id : Nat} {target : Extent} {g : Graph} {nodes : List Node}
    (h : Recorded id target g nodes) {out : Node} (hout : out ∈ nodes) {p : Program}
    (hp : g.compile out = .ok p) (inputs : List Image) :
    p.target = target ∧
    ((∃ image, p.execute inputs = .ok image) ↔ p.Accepts inputs ∧ target.isHoldable = true) ∧
    (∀ image, p.execute inputs = .ok image →
      image.toExtent = target ∧ image.bytes.length = 4 * target.area ∧
      ∀ x y, x < target.width → y < target.height →
        ∃ texels pixel, (inputs.map fun input => input.pixel? x y) = texels.map some ∧
          p.colour? ⟨x, y, target, texels⟩ = some pixel ∧
          ∀ c < 4, image.bytes[(y.toNat * target.width.toNat + x.toNat) * 4 + c]?
            = pixel.bytes[c]?) ∧
    ∀ d : Division p,
      (∀ outcome, d.Gives inputs outcome ↔ outcome = p.execute inputs) ∧
      (p.Accepts inputs → ∀ steps s, d.Reached inputs steps s →
        (∀ f, ¬ d.Step inputs s (.error f)) ∧
        (s.IsDone ∨ ∃ s', d.Step inputs s (.ok s')) ∧
        steps ≤ target.height.toNat * (target.width.toNat + 1) ∧
        (s.IsDone ↔ steps = target.height.toNat * (target.width.toNat + 1))) := by
  obtain ⟨rfl, rfl⟩ := h.owner
  obtain ⟨sound, extent⟩ := h.sound.of_compile hout hp
  rw [← extent]
  refine ⟨rfl, sound.execute_eq_ok_iff inputs, fun image drawn => ?_, fun d => ⟨?_, ?_⟩⟩
  · obtain ⟨size, pixels⟩ := sound.execute_pixels drawn
    obtain ⟨⟨length, extents⟩, _⟩ := (sound.execute_eq_ok_iff inputs).mp ⟨image, drawn⟩
    refine ⟨size, size ▸ image.length_bytes, fun x y hx hy => ?_⟩
    obtain ⟨pixel, _, colour, _⟩ :=
      sound.shade_eq ((length_texels p.target inputs x y).trans length) p.holds_zero.size
    refine ⟨(siteAt p.target inputs x y).texels, pixel, ?_, colour, fun c hc => ?_⟩
    · rw [siteAt, List.map_map]
      refine List.map_congr_left fun input hi => ?_
      have here := extents input hi
      obtain ⟨texel, found⟩ := input.exists_pixel (here ▸ hx) (here ▸ hy)
      simp only [Function.comp_apply, found, Option.getD_some]
    · have stored := image.getElem?_bytes (size ▸ hx) (size ▸ hy) hc
      rw [pixels x y hx hy, colour, size] at stored
      exact stored
  · exact d.gives_iff sound inputs
  · intro fits steps s r
    have k := r.keeps sound fits.1
    have count := r.steps_add_stepsLeft sound fits.1
    refine ⟨k.not_fail sound fits.1, ?_, by omega, ?_⟩
    · exact Classical.or_iff_not_imp_left.mpr (k.exists_step sound fits.1)
    · rw [← stepsLeft_eq_zero_iff s p.target.width.toNat]
      omega

/-- A texture of two columns and two rows. -/
def heather : Texture :=
  ⟨0, ⟨⟨2, 2⟩, #[⟨51, 20, 30, 255⟩, ⟨0, 0, 0, 0⟩, ⟨10, 20, 30, 255⟩, ⟨255, 255, 255, 255⟩], rfl⟩⟩

/-- The lower row may be drawn first, by a task of its own, with a third task that has no rows, and
    with registers that always hold the same values when a pixel is begun. -/
theorem heather_is_local :
    ∃ g p, Recorded 0 ⟨2, 2⟩ g [⟨0, 0, .vec4⟩] ∧ g.compile ⟨0, 0, .vec4⟩ = .ok p ∧
      ∃ d : Division p, d.shares = [[1], [], [0]] ∧
        (∀ y x left, d.found y x left = #[.vec4 7 7 7 7]) ∧
        ∃ image, p.execute [heather.image] = .ok image ∧
          ∀ outcome, d.Gives [heather.image] outcome ↔ outcome = .ok image := by
  have recorded : Recorded 0 ⟨2, 2⟩ _ [⟨0, 0, .vec4⟩] :=
    .record .empty (.texture heather) (by simp [Call.operands])
      (Graph.record_texture rfl (by simp [Graph.empty]))
  obtain ⟨_, drawn, _, divided⟩ :=
    execution_is_local recorded List.mem_cons_self rfl [heather.image]
  obtain ⟨image, made⟩ := drawn.mpr ⟨⟨rfl, by simp; rfl⟩, rfl⟩
  refine ⟨_, _, recorded, rfl, ⟨[[1], [], [0]], by decide, fun _ _ _ => #[.vec4 7 7 7 7],
    fun _ _ _ _ => rfl⟩, rfl, fun _ _ _ => rfl, image, made, fun outcome => ?_⟩
  rw [← made]
  exact (divided _).1 outcome

end Relief.Shading
