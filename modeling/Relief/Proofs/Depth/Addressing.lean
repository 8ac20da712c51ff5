import Relief.Proofs.Depth.Once
import Relief.Proofs.Depth.Stopping
import Relief.Proofs.Shading.Bytes

/-!
# Rays in machine words

A ray knows where it is by two signed words, and names a pixel by unsigned words that it computes
from them. `Ray.march` takes whole numbers for all of these. Here they are words, which saturate, wrap
or are cut off where a number does not fit; and none of them does.

* `Ray.Place`, `Ray.accesses`: where a ray is, in words, and what it adds there;
* `Place.exact`: **a place in the image names its pixel**: its column, its row, its slot and the
  offset of its first byte are the numbers that they should be;
* `Trail.placed`: the coordinates of all points that a ray passes fit in words;
* `Ray.visits_eq`: so a ray in words makes the same visits;
* `Crew.Run.no_panic`: no worker is ever to add to a slot that the tally does not have;
* `rays_stay_in_range`: all of it, for every field that memory can hold and for every frame.
-/

namespace Relief

open Int (away)

/-! ## 1. Words -/

/-- An unsigned word of 32 bits as a signed one of 64. -/
def signed (n : UInt32) : Int64 :=
  n.toUInt64.toInt64

theorem toInt_signed (n : UInt32) : (signed n).toInt = n.toNat := by
  have := n.toNat_lt
  show n.toUInt64.toBitVec.toInt = n.toNat
  rw [BitVec.toInt_eq_toNat_of_lt]
  · exact congrArg Nat.cast n.toNat_toUInt64
  · show 2 * n.toUInt64.toNat < 2 ^ 64
    rw [n.toNat_toUInt64]
    omega

theorem toNat_toUInt64 {a : Int64} (h : 0 ≤ a.toInt) : (a.toUInt64.toNat : ℤ) = a.toInt := by
  have nonneg : 0 ≤ a := Int64.le_iff_toInt_le.mpr h
  rw [Int64.toNat_toUInt64_of_le nonneg]
  exact Int.toNat_of_nonneg h

/-- The whole part of a number as a signed word, saturating at the ends; zero for what is no
    number. -/
def Double.toWord (x : Float) : Int64 :=
  .ofInt (Double.toInt (-2 ^ 63) (2 ^ 63 - 1) x)

theorem Double.toInt_toWord {x : Float} (h : (truncate x).natAbs < 2 ^ 63) :
    (toWord x).toInt = truncate x := by
  have held : Double.toInt (-2 ^ 63) (2 ^ 63 - 1) x = truncate x := by
    rw [Double.toInt]
    omega
  rw [toWord, held]
  exact Int64.toInt_ofInt_of_le (by omega) (by omega)

namespace Ray

/-! ## 2. Places -/

/-- The cell that a ray is in, named by signed words. -/
structure Place where
  x : Int64
  y : Int64
  deriving DecidableEq

namespace Place

/-- The cell that a point with whole coordinates is the middle of. -/
def ofPoint (p : Point) : Place :=
  ⟨Double.toWord p.x, Double.toWord p.y⟩

/-- The same cell, named by whole numbers. -/
def cell (p : Place) : Cell :=
  ⟨p.x.toInt, p.y.toInt⟩

theorem cell_injective : Function.Injective cell := by
  rintro ⟨x, y⟩ ⟨x', y'⟩ h
  obtain rfl : x = x' := Int64.toInt_inj.mp (congrArg Cell.x h)
  obtain rfl : y = y' := Int64.toInt_inj.mp (congrArg Cell.y h)
  rfl

/-- Whether the cell is a pixel of an image. -/
def isWithin (p : Place) (e : Extent) : Bool :=
  0 ≤ p.x && p.x < signed e.width && (0 ≤ p.y && p.y < signed e.height)

/-- The column of the pixel, cut off to 32 bits. -/
def column (p : Place) : UInt32 :=
  p.x.toUInt64.toUInt32

/-- The row of the pixel. -/
def row (p : Place) : UInt32 :=
  p.y.toUInt64.toUInt32

/-- The slot of the pixel in a tally, computed in signed words that wrap. -/
def slot (p : Place) (e : Extent) : UInt64 :=
  (p.y * signed e.width + p.x).toUInt64

/-- The offset of its first byte in an image, computed in unsigned words that wrap. -/
def offset (p : Place) (e : Extent) : UInt64 :=
  (p.row.toUInt64 * e.width.toUInt64 + p.column.toUInt64) * 4

variable {p : Place} {e : Extent}

theorem isWithin_iff : p.isWithin e = true ↔
    (0 ≤ p.x.toInt ∧ p.x.toInt < e.width.toNat) ∧ 0 ≤ p.y.toInt ∧ p.y.toInt < e.height.toNat := by
  simp only [isWithin, Bool.and_eq_true, decide_eq_true_eq, Int64.le_iff_toInt_le,
    Int64.lt_iff_toInt_lt, toInt_signed]
  rfl

/-- What is computed for a place in an image, compared with the numbers that it stands for. -/
structure Exact (p : Place) (e : Extent) : Prop where
  column : (p.column.toNat : ℤ) = p.x.toInt
  row : (p.row.toNat : ℤ) = p.y.toInt
  column_lt : p.column < e.width
  row_lt : p.row < e.height
  product : (p.y * signed e.width).toInt = p.y.toInt * e.width.toNat
  sum : (p.y * signed e.width + p.x).toInt = p.y.toInt * e.width.toNat + p.x.toInt
  slot : (p.slot e).toNat = p.row.toNat * e.width.toNat + p.column.toNat
  slot_lt : (p.slot e).toNat < e.area
  offset : (p.offset e).toNat = 4 * (p.slot e).toNat
  last : (p.offset e).toNat + 3 < 4 * e.area

/-- The whole number of a coordinate that is cut off to 32 bits. -/
theorem toNat_cut {a : Int64} {n : UInt32} (low : 0 ≤ a.toInt) (high : a.toInt < n.toNat) :
    (a.toUInt64.toUInt32.toNat : ℤ) = a.toInt := by
  have := n.toNat_lt
  have same := toNat_toUInt64 low
  rw [UInt64.toNat_toUInt32, Nat.mod_eq_of_lt (by omega), same]

/-- **A place in an image names its pixel**, if memory can hold the image: nothing wraps, and nothing
    is cut off. -/
theorem exact (within : p.isWithin e = true) (hh : e.isHoldable = true) : p.Exact e := by
  obtain ⟨⟨lowX, highX⟩, lowY, highY⟩ := isWithin_iff.mp within
  have small : 4 * (e.width.toNat * e.height.toNat) < 2 ^ 63 := of_decide_eq_true hh
  have column : (p.column.toNat : ℤ) = p.x.toInt := toNat_cut lowX highX
  have row : (p.row.toNat : ℤ) = p.y.toInt := toNat_cut lowY highY
  have slot_lt : p.row.toNat * e.width.toNat + p.column.toNat < e.width.toNat * e.height.toNat := by
    have rows : (p.row.toNat + 1) * e.width.toNat ≤ e.height.toNat * e.width.toNat :=
      Nat.mul_le_mul_right _ (by omega)
    rw [Nat.add_mul, Nat.one_mul, Nat.mul_comm e.height.toNat] at rows
    omega
  have whole : (p.row.toNat * e.width.toNat : ℕ) = p.y.toInt * e.width.toNat := by
    rw [Nat.cast_mul, row]
  have product : (p.y * signed e.width).toInt = p.y.toInt * e.width.toNat := by
    rw [Int64.toInt_mul, toInt_signed, ← whole]
    exact Int.bmod_eq_of_le (by omega) (by omega)
  have sum : (p.y * signed e.width + p.x).toInt = p.y.toInt * e.width.toNat + p.x.toInt := by
    rw [Int64.toInt_add, product, ← whole]
    exact Int.bmod_eq_of_le (by omega) (by omega)
  have slot : (p.slot e).toNat = p.row.toNat * e.width.toNat + p.column.toNat := by
    have same := toNat_toUInt64 (a := p.y * signed e.width + p.x) (by omega)
    rw [sum, ← whole, ← column] at same
    exact_mod_cast same
  have column_lt : p.column < e.width := UInt32.lt_iff_toNat_lt.mpr (by omega)
  have row_lt : p.row < e.height := UInt32.lt_iff_toNat_lt.mpr (by omega)
  have offset : (p.offset e).toNat = 4 * (p.slot e).toNat := by
    rw [slot, Nat.mul_comm 4]
    exact Extent.toNat_offset column_lt row_lt (Extent.count_lt hh)
  refine ⟨column, row, column_lt, row_lt, product, sum, slot, slot.trans_lt slot_lt, offset, ?_⟩
  rw [offset, slot, Extent.area]
  omega

/-- So it has the slot of its cell, -/
theorem slot?_of_isWithin (within : p.isWithin e = true) (hh : e.isHoldable = true) :
    e.slot? p.cell.x p.cell.y = some (p.slot e).toNat := by
  obtain ⟨⟨lowX, highX⟩, lowY, highY⟩ := isWithin_iff.mp within
  have names := exact within hh
  have column := names.column
  have row := names.row
  have here : p.x.toInt.toNat = p.column.toNat ∧ p.y.toInt.toNat = p.row.toNat := by omega
  rw [Extent.slot?, if_pos ⟨lowX, highX, lowY, highY⟩, names.slot]
  show some (p.y.toInt.toNat * _ + p.x.toInt.toNat) = _
  rw [here.1, here.2]

/-- and beside the image there is none. -/
theorem slot?_of_not_isWithin (beside : ¬ p.isWithin e = true) :
    e.slot? p.cell.x p.cell.y = none := by
  rw [isWithin_iff] at beside
  exact if_neg fun ⟨lowX, highX, lowY, highY⟩ => beside ⟨⟨lowX, highX⟩, lowY, highY⟩

end Place

/-! ## 3. Rays in words -/

/-- What a ray adds, and where. -/
structure Access where
  place : Place
  value : Int32
  deriving DecidableEq

/-- The visit that it makes with it. -/
def Access.visit (e : Extent) (a : Access) : Visit :=
  ⟨(a.place.slot e).toNat, a.value⟩

/-- How much the surface rises along a step, by the slope in a column and a row. -/
def rise (slopes : Slopes) (step : Point) (column row : UInt32) : Float :=
  match slopes.slope? column row with
  | none => 0
  | some (across, down) => step.x * Single.toDouble across + step.y * Single.toDouble down

/-- The accesses of a ray that is at `position`, has last been at the place `last`, and has the given
    running integral; `fuel` steps at most. -/
def accesses (slopes : Slopes) (launch : Launch) (step : Point) :
    (fuel : ℕ) → (position : Point) → (last : Option Place) → (integral : Float) → List Access
  | 0, _, _, _ => []
  | fuel + 1, position, last, integral =>
    let rounded := position.round
    if launch.contains rounded then
      let place := Place.ofPoint rounded
      let next := position.advance step
      if last = some place then accesses slopes launch step fuel next last integral
      else if place.isWithin slopes.extent then
        let integral := integral - rise slopes step place.column place.row
        ⟨place, quantize integral⟩ :: accesses slopes launch step fuel next (some place) integral
      else accesses slopes launch step fuel next (some place) integral
    else []

/-- A slope in single precision is the same in double precision. -/
theorem toDouble_decodeSingle (c : UInt8) :
    Single.toDouble (Slopes.decodeSingle c) = Slopes.decode c := by
  revert c
  exact forall_byte (by decide +kernel)

/-- **The slope that a ray reads is that of the pixel whose slot it adds to.** -/
theorem rise_eq {slopes : Slopes} {place : Place} (within : place.isWithin slopes.extent = true)
    (hh : slopes.extent.isHoldable = true) (step : Point) :
    ∃ p, slopes.image.pixels[(place.slot slopes.extent).toNat]? = some p ∧
      slopes.image.pixel? place.column place.row = some p ∧
      rise slopes step place.column place.row = Slopes.climb p step.x step.y := by
  have names := Place.exact within hh
  have bound : (place.slot slopes.extent).toNat < slopes.image.pixels.size := by
    rw [slopes.image.size_pixels]
    exact names.slot_lt
  have read := Array.getElem?_eq_getElem bound
  have pixel : slopes.image.pixel? place.column place.row
      = some slopes.image.pixels[(place.slot slopes.extent).toNat] := by
    rw [Image.pixel?, if_pos ⟨names.column_lt, names.row_lt⟩, ← read, names.slot]
    rfl
  refine ⟨_, read, pixel, ?_⟩
  rw [rise, Slopes.slope?, pixel, Slopes.climb]
  dsimp only
  cases Slopes.isKnown slopes.image.pixels[(place.slot slopes.extent).toNat] with
  | false => rfl
  | true =>
    simp only [if_true]
    rw [toDouble_decodeSingle, toDouble_decodeSingle]

end Ray

namespace Trail

open Double

section Generic

variable {N : Type} [Numbers N] [Add N] [Sub N] [Mul N] [Div N] [Neg N]
variable [OfNat N 1] [OfNat N 2]
variable {layout : Layout} {e : Extent} {step : Spot N}

/-- **What every step within the region keeps holds of all points that a ray passes.** -/
theorem forall_passed {P : ℕ → Spot N → Prop}
    (next : ∀ n p, P (n + 1) p → contains layout e (p.advance step).round = true →
      P n (p.advance step)) {n : ℕ} {p : Spot N} (h : P n p) :
    ∀ q ∈ passed layout e step n p, ∃ m, P m q := by
  induction n generalizing p with
  | zero => exact fun q hq => absurd hq List.not_mem_nil
  | succ n ih =>
    intro q hq
    rw [passed] at hq
    split at hq
    · rcases List.mem_cons.mp hq with rfl | hq
      · exact ⟨n + 1, h⟩
      · cases n with
        | zero => exact absurd hq List.not_mem_nil
        | succ n =>
          by_cases inside : contains layout e (p.advance step).round = true
          · exact ih (next (n + 1) p h inside) q hq
          · rw [passed, if_neg inside] at hq
            exact absurd hq List.not_mem_nil
    · exact absurd hq List.not_mem_nil

end Generic

/-- The cell of a point is the same in words, and the words are the coordinates of its middle. -/
structure IsPlaced (p : Spot Float) : Prop where
  cell : (Ray.Place.ofPoint p.round.toPoint).cell = p.round.cell
  across : Is p.round.x (Ray.Place.ofPoint p.round.toPoint).x.toInt
  along : Is p.round.y (Ray.Place.ofPoint p.round.toPoint).y.toInt

variable {layout : Layout} {e : Extent}

/-- A coordinate that a ray keeps fits in a word. -/
theorem Coordinate.toWord {step q : ℚ} {left : ℕ} {x : Float} (h : Coordinate layout step left x q) :
    (toWord (Double.round x)).toInt = truncate (Double.round x) ∧
      Is (Double.round x) (toWord (Double.round x)).toInt := by
  have small := h.natAbs_away_lt
  have word : (Double.toWord (Double.round x)).toInt = truncate (Double.round x) := by
    refine toInt_toWord ?_
    rw [h.cell]
    omega
  refine ⟨word, ?_⟩
  rw [word, h.cell]
  exact h.value.round

theorem isPlaced {p : Spot Float} {σ τ : ℚ} {m n : ℕ}
    (x : ∃ q, Coordinate layout σ m p.x q) (y : ∃ q, Coordinate layout τ n p.y q) : IsPlaced p := by
  obtain ⟨_, x⟩ := x
  obtain ⟨_, y⟩ := y
  obtain ⟨sameX, across⟩ := x.toWord
  obtain ⟨sameY, along⟩ := y.toWord
  exact ⟨(Ray.Cell.mk.injEq ..).mpr ⟨sameX, sameY⟩, across, along⟩

/-- **The coordinates of all points that a ray passes fit in words.** -/
theorem placed {start : Spot Float} (h : start ∈ points layout e) (heading : Heading) :
    ∀ p ∈ passed layout e heading.step.toSpot (maxSteps Float layout e) start, IsPlaced p := by
  rcases starts h with nowhere | ⟨x, y⟩
  · have outside : contains layout e start.round = false := contains_nan (.inl nowhere)
    intro p hp
    cases hn : maxSteps Float layout e with
    | zero =>
      rw [hn] at hp
      exact absurd hp List.not_mem_nil
    | succ n =>
      rw [hn, passed, outside] at hp
      exact absurd hp List.not_mem_nil
  have first (σ : ℚ) (x : Float) (h : Starts layout x) :
      ∃ q, Coordinate layout σ (maxSteps Float layout e) x q := h.coordinate σ
  rcases heading.step_bounded with nowhere | ⟨⟨σ, hσ, across⟩, τ, hτ, down⟩
  · -- the step is no number, so that only the first point is in the region
    have next (n : ℕ) (p : Spot Float) (_ : IsPlaced p)
        (inside : contains layout e (p.advance heading.step.toSpot).round = true) :
        IsPlaced (p.advance heading.step.toSpot) := by
      have lost : p.x + heading.step.x = nan := by rw [nowhere, add_nan]
      rw [contains_nan (.inl lost)] at inside
      cases inside
    intro p hp
    obtain ⟨-, placed⟩ := forall_passed (P := fun _ p => IsPlaced p) next
      (isPlaced (first 0 _ x) (first 0 _ y)) p hp
    exact placed
  · have next (n : ℕ) (p : Spot Float) (kept : (∃ q, Coordinate layout σ (n + 1) p.x q) ∧
        ∃ q, Coordinate layout τ (n + 1) p.y q)
        (_ : contains layout e (p.advance heading.step.toSpot).round = true) :
        (∃ q, Coordinate layout σ n (p.advance heading.step.toSpot).x q) ∧
          ∃ q, Coordinate layout τ n (p.advance heading.step.toSpot).y q := by
      obtain ⟨⟨_, x⟩, _, y⟩ := kept
      exact ⟨⟨_, (x.advance hσ across).1⟩, _, (y.advance hτ down).1⟩
    intro p hp
    obtain ⟨m, x, y⟩ := forall_passed (P := fun n p => (∃ q, Coordinate layout σ n p.x q) ∧
      ∃ q, Coordinate layout τ n p.y q) next ⟨first σ _ x, first τ _ y⟩ p hp
    exact isPlaced x y

/-- So they do for the launch points of a plan. -/
theorem placed_of_mem_plan {start : Point} (h : start ∈ (Launch.plan e layout).points)
    (heading : Heading) :
    ∀ p ∈ passed layout e heading.step.toSpot (maxSteps Float layout e) start.toSpot,
      IsPlaced p := by
  rw [points_double] at h
  obtain ⟨launched, hl, rfl⟩ := List.mem_map.mp h
  exact placed hl heading

end Trail

namespace Ray

open Trail

variable {slopes : Slopes} {e : Extent} {layout : Layout} {step : Point}

theorem isLast_cell (p : Place) (last : Option Place) :
    p.cell.isLast (last.map Place.cell) = decide (last = some p) := by
  cases last with
  | none => rfl
  | some q =>
    have same : (q.cell.x = p.cell.x ∧ q.cell.y = p.cell.y) ↔ some q = some p := by
      rw [Option.some_inj, ← Place.cell_injective.eq_iff, Cell.mk.injEq]
    show (decide (q.cell.x = p.cell.x) && decide (q.cell.y = p.cell.y)) = _
    rw [← Bool.decide_and]
    exact decide_eq_decide.mpr same

/-- **A ray in words makes the visits of the ray in whole numbers**, where all points that it passes
    have their cells in words, and it is only in the image that it adds anything. -/
theorem march_eq (hh : slopes.extent.isHoldable = true) {fuel : ℕ} {position : Point}
    (last : Option Place) (integral : Float)
    (placed : ∀ p ∈ passed layout e step.toSpot fuel position.toSpot, IsPlaced p) :
    (accesses slopes (.plan e layout) step fuel position last integral).map
        (Access.visit slopes.extent)
      = march slopes (.plan e layout) step fuel position (last.map Place.cell) integral ∧
    ∀ a ∈ accesses slopes (.plan e layout) step fuel position last integral,
      a.place.isWithin slopes.extent = true := by
  induction fuel generalizing position last integral with
  | zero => exact ⟨rfl, fun a ha => absurd ha List.not_mem_nil⟩
  | succ fuel ih =>
    rw [accesses, march, contains_double]
    dsimp only
    by_cases inside : contains layout e position.toSpot.round = true
    · have here : contains layout e position.round.toSpot = true := inside
      have passes : passed layout e step.toSpot (fuel + 1) position.toSpot
          = position.toSpot :: passed layout e step.toSpot fuel (position.advance step).toSpot := by
        rw [passed, if_pos inside]
        rfl
      rw [passes] at placed
      have same : (Place.ofPoint position.round).cell = Cell.ofPoint position.round :=
        (placed _ List.mem_cons_self).cell
      have next (last : Option Place) (integral : Float) :=
        ih last integral fun p hp => placed p (List.mem_cons_of_mem _ hp)
      rw [if_pos here, if_pos here, ← same, isLast_cell]
      generalize Place.ofPoint position.round = place
      by_cases still : last = some place
      · rw [if_pos still, if_pos (decide_eq_true still)]
        exact next last integral
      have moved : ¬ decide (last = some place) = true := fun h => still (of_decide_eq_true h)
      rw [if_neg still, if_neg moved]
      by_cases within : place.isWithin slopes.extent = true
      · obtain ⟨p, read, -, rises⟩ := rise_eq within hh step
        rw [if_pos within, Place.slot?_of_isWithin within hh, rises]
        dsimp only
        rw [read]
        obtain ⟨visits, adds⟩ :=
          next (some place) (integral - Slopes.climb p step.x step.y)
        refine ⟨congrArg (List.cons _) visits, fun a ha => ?_⟩
        rcases List.mem_cons.mp ha with rfl | ha
        · exact within
        · exact adds a ha
      · rw [if_neg within, Place.slot?_of_not_isWithin within]
        exact next (some place) integral
    · have outside : ¬ contains layout e position.round.toSpot = true := inside
      rw [if_neg outside, if_neg outside]
      exact ⟨rfl, fun a ha => absurd ha List.not_mem_nil⟩

/-- **A planned ray in words makes the visits of the ray in whole numbers.** -/
theorem visits_eq (hh : slopes.extent.isHoldable = true) {start : Point}
    (h : start ∈ (Launch.plan e layout).points) (heading : Heading) :
    (accesses slopes (.plan e layout) heading.step (Launch.plan e layout).maxSteps start none 0).map
        (Access.visit slopes.extent)
      = visits slopes (.plan e layout) heading.step start ∧
    ∀ a ∈ accesses slopes (.plan e layout) heading.step (Launch.plan e layout).maxSteps start none 0,
      a.place.isWithin slopes.extent = true := by
  rw [visits, maxSteps_double]
  exact march_eq hh none 0 (placed_of_mem_plan h heading)

end Ray

/-! ## 4. Crews -/

/-- **No worker is to add to a slot that the tally does not have.** -/
theorem Crew.Run.no_panic {c : Crew} {kind : Crew.State → Prop} {g : Generations}
    {trace : List Crew.Move} {s : Crew.State} (h : Crew.Run c kind (c.start g) trace s) (i : ℕ) :
    Crew.Move.panic i ∉ trace := by
  induction h with
  | rest => exact List.not_mem_nil
  | @step s' s'' trace m hrun hs hk ih =>
    intro hm
    rcases List.mem_append.mp hm with hm | hm
    · exact ih hm
    obtain rfl := List.mem_singleton.mp hm
    have inv := Crew.inv_run hrun
    cases hs with
    | work j m w t hj hw =>
      cases hw with
      | panic v rest htodo hv =>
        rw [inv.extent] at hv
        exact hv ((inv.workers i).slot_lt htodo)
    | lead s'' m hl => cases hl

/-! ## 5. The whole integration -/

/-- **Rays stay in range, and add to the pixel whose slope they have read.** For every field that memory
    can hold, and a frame for an image of any size: the coordinates of all points that a ray passes fit
    in signed words exactly. What it adds, it adds at a place in the field, where the column, the row,
    the slot and the offset in bytes are computed without a wrap, and it reads the slope of the pixel at
    that slot. So no ray strays from a tally of the size of the field, whenever it is withdrawn, and no
    worker of a crew panics. -/
theorem rays_stay_in_range (slopes : Slopes) (hh : slopes.extent.isHoldable = true) (e : Extent)
    (layout : Layout) :
    let launch := Launch.plan e layout
    (slopes.extent.width.toUInt64 * slopes.extent.height.toUInt64).toNat = slopes.extent.area ∧
    (∀ heading : Heading, ∀ start ∈ launch.points,
      let accesses := Ray.accesses slopes launch heading.step launch.maxSteps start none 0
      (∀ p ∈ Trail.passed layout e heading.step.toSpot launch.maxSteps start.toSpot,
        Trail.IsPlaced p) ∧
      accesses.map (Ray.Access.visit slopes.extent) = Ray.visits slopes launch heading.step start ∧
      ∀ a ∈ accesses, a.place.Exact slopes.extent ∧
        ∃ p, slopes.image.pixels[(a.place.slot slopes.extent).toNat]? = some p ∧
          slopes.image.pixel? a.place.column a.place.row = some p ∧
          Ray.rise slopes heading.step a.place.column a.place.row
            = Slopes.climb p heading.step.x heading.step.y) ∧
    (∀ (headings : List Heading) (t : Tally) (answer : ℕ → Bool) (n : ℕ),
      t.extent = slopes.extent →
        ((Integration.inOrder slopes launch headings t).answered answer n).1.2.2 ≠ .strayed) ∧
    ∀ (sweep : Sweep) (workers : ℕ) (token : Token) (shortage? : Option String)
        (kind : Crew.State → Prop) (g : Generations) (trace : List Crew.Move) (s : Crew.State),
      let c : Crew := { slopes, sweep, launch, workers, token, shortage? }
      Crew.Run c kind (c.start g) trace s →
        (∀ i, Crew.Move.panic i ∉ trace) ∧ ∀ i, s.phase ≠ .returned (.failed i) := by
  intro launch
  refine ⟨?_, fun heading start launched => ?_, fun headings t answer n ht => ?_, ?_⟩
  · have small : 4 * (slopes.extent.width.toNat * slopes.extent.height.toNat) < 2 ^ 63 :=
      of_decide_eq_true hh
    rw [UInt64.toNat_mul, UInt32.toNat_toUInt64, UInt32.toNat_toUInt64]
    exact Nat.mod_eq_of_lt (by omega)
  · intro accesses
    obtain ⟨visits, within⟩ := Ray.visits_eq hh launched heading
    refine ⟨?_, visits, fun a ha => ?_⟩
    · rw [Trail.maxSteps_double]
      exact Trail.placed_of_mem_plan launched heading
    · exact ⟨Ray.Place.exact (within a ha) hh, Ray.rise_eq (within a ha) hh heading.step⟩
  · exact Integration.inOrder_ne_strayed slopes launch (Nat.le_of_eq (by rw [ht])) headings answer n
  · intro sweep workers token shortage? kind g trace s c run
    exact ⟨run.no_panic, fun i => run.not_failed⟩

/-- A ray along a row of two pixels, which comes from the frame of a greater image. -/
theorem ridge_is_crossed :
    Crew.ridge.extent.isHoldable = true ∧
      ∃ a b, Ray.accesses Crew.ridge (.plan ⟨5, 3⟩ .rectangular) (Heading.mk 0).step
          (Launch.plan ⟨5, 3⟩ .rectangular).maxSteps ⟨-1, 0⟩ none 0 = [a, b] ∧
        a.place.column = 0 ∧ b.place.column = 1 ∧ (b.place.slot Crew.ridge.extent).toNat = 1 ∧
        b.place.Exact Crew.ridge.extent := by
  have held : Crew.ridge.extent.isHoldable = true := by decide
  have launched : (⟨-1, 0⟩ : Point) ∈ (Launch.plan ⟨5, 3⟩ .rectangular).points := by
    exact List.mem_cons_self
  have crossed : Ray.accesses Crew.ridge (.plan ⟨5, 3⟩ .rectangular) (Heading.mk 0).step
      (Launch.plan ⟨5, 3⟩ .rectangular).maxSteps ⟨-1, 0⟩ none 0
        = [⟨⟨0, 0⟩, -73⟩, ⟨⟨1, 0⟩, -73⟩] := by decide +kernel
  obtain ⟨-, rays, -⟩ := rays_stay_in_range Crew.ridge held ⟨5, 3⟩ .rectangular
  obtain ⟨-, -, adds⟩ := rays ⟨0⟩ _ launched
  rw [crossed] at adds
  exact ⟨held, _, _, crossed, by decide, by decide, by decide,
    (adds _ (List.mem_cons_of_mem _ List.mem_cons_self)).1⟩

end Relief
