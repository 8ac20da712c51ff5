import Relief.Proofs.Depth.Coverage
import Relief.Proofs.Number.Circle
import Relief.Proofs.Number.Stride

/-!
# Strides of rays

A ray marches in steps of length one, and each of them should come to a neighbour of the cell before
it. It does so from the border. From the circle a step along an axis may pass over a column or a row,
where it ends halfway between two cells, and it may do nothing else.

* `Trail.passed`: the points that a ray passes, of which `cells_eq_destutter` makes its trail;
* `isChain_passed`: what every step of a ray keeps;
* `Strides`: how a step goes on along an axis;
* `Coordinate`: what every step keeps of a coordinate in double precision;
* `steps_reach_neighbours`: **every step of a ray strides** to a neighbour, or over one at a half;
* `column_is_passed_over`: a step that passes over a column.
-/

namespace Relief

open Int (away IsHalfway)
open Double

/-- Two cells with a corner in common. -/
def Ray.Cell.Touches (c d : Ray.Cell) : Prop :=
  |d.x - c.x| ≤ 1 ∧ |d.y - c.y| ≤ 1

instance (c d : Ray.Cell) : Decidable (c.Touches d) :=
  inferInstanceAs (Decidable (_ ∧ _))

namespace Trail

/-! ## 1. The points that a ray passes -/

section Generic

variable {N : Type} [Numbers N] [Add N] [Sub N] [Mul N] [Div N] [Neg N]
variable [OfNat N 1] [OfNat N 2] [OfNat N 4]
variable {layout : Layout} {e : Extent} {step : Spot N}

/-- The points that a ray at `position` still passes, before it ends or leaves the region. -/
def passed (layout : Layout) (e : Extent) (step : Spot N) :
    (fuel : Nat) → (position : Spot N) → List (Spot N)
  | 0, _ => []
  | fuel + 1, position =>
    if contains layout e position.round then
      position :: passed layout e step fuel (position.advance step)
    else []

omit [OfNat N 4] in
theorem march_eq_fresh (fuel : Nat) (position : Spot N) (last : Option Ray.Cell) :
    march layout e step fuel position last
      = fresh last ((passed layout e step fuel position).map (·.round.cell)) := by
  induction fuel generalizing position last with
  | zero => rfl
  | succ fuel ih =>
    rw [march, passed]
    by_cases inside : contains layout e position.round = true
    · rw [if_pos inside, if_pos inside, List.map_cons, fresh, ← ih, ← ih]
    · rw [if_neg inside, if_neg inside]
      rfl

/-- **The trail of a ray** is made of the cells of the points that it passes, without repetitions
    of the cell before. -/
theorem cells_eq_destutter (start : Spot N) :
    cells layout e step start
      = ((passed layout e step (maxSteps N layout e) start).map (·.round.cell)).destutter (· ≠ ·) := by
  rw [cells, march_eq_fresh, fresh_none]

omit [OfNat N 4] in
/-- **What every step within the region keeps**, by induction on the steps. -/
theorem isChain_passed {P : ℕ → Spot N → Prop} {R : Spot N → Spot N → Prop}
    (next : ∀ n p, P (n + 1) p → contains layout e (p.advance step).round = true →
      P n (p.advance step) ∧ R p (p.advance step)) {n : ℕ} {p : Spot N} (h : P n p) :
    (passed layout e step n p).IsChain R := by
  induction n generalizing p with
  | zero => exact List.isChain_nil
  | succ n ih =>
    rw [passed]
    split
    · cases n with
      | zero => exact List.isChain_singleton p
      | succ n =>
        by_cases inside : contains layout e (p.advance step).round = true
        · obtain ⟨kept, related⟩ := next (n + 1) p h inside
          have rest := ih kept
          rw [passed, if_pos inside] at rest ⊢
          exact List.isChain_cons_cons.mpr ⟨related, rest⟩
        · rw [passed, if_neg inside]
          exact List.isChain_singleton p
    · exact List.isChain_nil

end Generic

/-! ## 2. What is not in the region -/

section Double

variable {layout : Layout} {e : Extent} {p : Spot Float}

theorem round_nan : Double.round nan = nan := by
  decide +kernel

/-- What is no number is in no region. -/
theorem contains_nan (h : p.x = nan ∨ p.y = nan) : contains layout e p.round = false := by
  have across : p.round.x = Double.round p.x := rfl
  have down : p.round.y = Double.round p.y := rfl
  cases layout with
  | rectangular =>
    show (((decide (-1 ≤ p.round.x) && decide (-1 ≤ p.round.y)) && _) && _) = false
    rcases h with h | h
    · rw [across, h, round_nan, decide_eq_false (not_le_nan _)]
      rfl
    · rw [down, h, round_nan, decide_eq_false (not_le_nan _), Bool.and_false]
      rfl
  | circular =>
    have far : p.round.distance (center e) = nan := by
      show (((p.round.x - (center e).x) * (p.round.x - (center e).x)
        + (p.round.y - (center e).y) * (p.round.y - (center e).y)).sqrt : Float) = nan
      rcases h with h | h
      · rw [across, h, round_nan, nan_sub, nan_mul, nan_add, sqrt_nan]
      · rw [down, h, round_nan, nan_sub, nan_mul, add_nan, sqrt_nan]
    show decide (p.round.distance (center e) ≤ _) = false
    rw [far]
    exact decide_eq_false (not_nan_le _)

/-- A ray whose step is no number passes one point at most. -/
theorem isChain_of_nan {heading : Heading} (nowhere : heading.step = ⟨nan, nan⟩) (fuel : ℕ)
    (p : Spot Float) {R : Spot Float → Spot Float → Prop} :
    (passed layout e heading.step.toSpot fuel p).IsChain R := by
  refine isChain_passed (P := fun _ _ => True) (fun n p _ inside => ?_) trivial
  have lost : p.x + heading.step.x = nan := by rw [nowhere, add_nan]
  rw [contains_nan (.inl lost)] at inside
  cases inside

/-! ## 3. Strides along an axis -/

/-- How a step goes on along an axis: to a neighbour, or, from the circle, over one cell to a half,
    if it is one long. -/
def Strides (layout : Layout) (step finish : Float) (m n : ℤ) : Prop :=
  |n - m| ≤ 1 ∨
    layout = .circular ∧ |n - m| = 2 ∧ (step = 1 ∨ step = -1) ∧ ∃ q, Is finish q ∧ IsHalfway q

/-- What a ray with so many steps left keeps of one of its coordinates. -/
structure Coordinate (layout : Layout) (step : ℚ) (left : ℕ) (x : Float) (q : ℚ) : Prop where
  value : Is x q
  bound : |q| ≤ ((2 ^ 40 - left : ℤ) : ℚ)
  whole : layout = .rectangular → |step| = 1 → ∃ n : ℤ, q = n

section

variable {s x : Float} {step q : ℚ} {left : ℕ}

theorem Coordinate.left_le (h : Coordinate layout step left x q) : left ≤ 2 ^ 40 := by
  have := Int.cast_nonneg_iff.mp ((abs_nonneg q).trans h.bound)
  omega

/-- The cells of a ray are far below the greatest words. -/
theorem Coordinate.natAbs_away_lt (h : Coordinate layout step left x q) :
    (away q).natAbs < 2 ^ 41 := by
  obtain ⟨low, high⟩ := abs_le.mp h.bound
  have below := Int.away_le q
  have above := Int.le_away q
  have left := Nat.cast_nonneg (α := ℚ) left
  push_cast at low high
  have least : ((-2 ^ 41 : ℤ) : ℚ) < away q := by
    push_cast
    linarith
  have most : (away q : ℚ) < ((2 ^ 41 : ℤ) : ℚ) := by
    push_cast
    linarith
  have := Int.cast_lt.mp least
  have := Int.cast_lt.mp most
  omega

theorem Coordinate.cell (h : Coordinate layout step left x q) :
    truncate (Double.round x) = away q :=
  h.value.round.truncate (h.natAbs_away_lt.trans (by norm_num))

/-- **One step strides**, and keeps what is kept. -/
theorem Coordinate.advance (h : Coordinate layout step (left + 1) x q) (hs : Is s step)
    (short : |step| ≤ 1) :
    Coordinate layout step left (x + s) (rounded (q + step)) ∧
      Strides layout s (x + s) (truncate (Double.round x)) (truncate (Double.round (x + s))) := by
  have room := h.left_le
  have fits : Fits ((2 ^ 40 - left : ℤ) : ℚ) := fits_intCast (by omega)
  have bound : |q + step| ≤ ((2 ^ 40 - left : ℤ) : ℚ) := by
    have old := h.bound
    push_cast at old ⊢
    exact (abs_add_le q step).trans (by linarith)
  have sum : Is (x + s) (rounded (q + step)) :=
    h.value.add_rounded hs (fits.abs_le_greatest bound)
  have next : Coordinate layout step left (x + s) (rounded (q + step)) := by
    refine ⟨sum, abs_rounded_le_of_fits fits bound, fun rectangular one => ?_⟩
    obtain ⟨n, whole⟩ := h.whole rectangular one
    obtain ⟨m, goes⟩ : ∃ m : ℤ, step = m := by
      rcases (abs_eq zero_le_one).mp one with rfl | rfl
      · exact ⟨1, Int.cast_one.symm⟩
      · exact ⟨-1, by rw [Int.cast_neg, Int.cast_one]⟩
    have still : q + step = ((n + m : ℤ) : ℚ) := by rw [whole, goes, Int.cast_add]
    refine ⟨n + m, ?_⟩
    rw [still] at bound ⊢
    refine rounded_of_fits (fits_intCast ?_)
    have := abs_le.mp (Int.cast_le.mp (Int.cast_abs (R := ℚ) ▸ bound))
    omega
  refine ⟨next, ?_⟩
  rw [h.cell, next.cell]
  have small : |q| ≤ 2 ^ 50 := by
    have old := h.bound
    have := Nat.cast_nonneg (α := ℚ) left
    push_cast at old
    linarith
  rcases stride h.value.fits hs.fits short small with near | leap
  · exact .inl near
  · cases layout with
    | circular =>
      have one : s = 1 ∨ s = -1 := by
        rcases (abs_eq zero_le_one).mp leap.step with rfl | rfl
        · exact .inl (hs.unique is_one one_ne_zero)
        · exact .inr (hs.unique is_neg_one (by norm_num))
      exact .inr ⟨rfl, leap.two, one, _, sum, leap.halfway⟩
    | rectangular =>
      obtain ⟨n, whole⟩ := next.whole rfl leap.step
      exact absurd (whole ▸ leap.halfway) (Int.not_isHalfway_intCast n)

end

/-! ## 4. Where rays start -/

theorem is_radius (e : Extent) : Is (radius e) (reach e) := by
  unfold radius reach
  by_cases taller : e.width < e.height
  · rw [if_pos taller, max_eq_right (UInt32.lt_iff_toNat_lt.mp taller).le]
    exact is_word e.height
  · rw [if_neg taller, max_eq_left (not_lt.mp fun h => taller (UInt32.lt_iff_toNat_lt.mpr h))]
    exact is_word e.width

theorem reach_lt (e : Extent) : reach e < 2 ^ 32 :=
  max_lt e.width.toNat_lt e.height.toNat_lt

theorem is_two : Is 2 ((2 : ℕ) : ℚ) :=
  is_literal (n := 2) (by decide +kernel) (by decide)

theorem maxSteps_circular_double (e : Extent) :
    maxSteps Float .circular e = 2 * reach e + 8 := by
  have := reach_lt e
  have sum : Is (radius e + 2) ((reach e + 2 : ℕ) : ℚ) := by
    have fits : Fits ((reach e : ℚ) + (2 : ℕ)) := by
      exact_mod_cast fits_intCast (n := (reach e : ℤ) + 2) (by omega)
    have exact := (is_radius e).add is_two fits
    exact_mod_cast exact
  have span : Is (2 * (radius e + 2)) ((2 * (reach e + 2) : ℕ) : ℚ) := by
    have fits : Fits (((2 : ℕ) : ℚ) * (reach e + 2 : ℕ)) := by
      exact_mod_cast fits_intCast (n := 2 * ((reach e : ℤ) + 2)) (by omega)
    have exact := is_two.mul sum fits
    exact_mod_cast exact
  show ceilNat (2 * (radius e + 2)) + 4 = _
  rw [span.ceilNat (by omega)]
  ring

theorem maxSteps_le (layout : Layout) (e : Extent) : maxSteps Float layout e ≤ 2 ^ 34 := by
  cases layout with
  | circular =>
    have := reach_lt e
    rw [maxSteps_circular_double]
    omega
  | rectangular =>
    have := e.width.toNat_lt
    have := e.height.toNat_lt
    rw [maxSteps_rectangular_double]
    omega

/-- Where a ray may start along an axis. -/
def Starts (layout : Layout) (x : Float) : Prop :=
  ∃ q, Is x q ∧ |q| ≤ 2 ^ 34 ∧ (layout = .rectangular → ∃ n : ℤ, q = n)

theorem starts_whole {x : Float} {n : ℤ} (h : Is x n) (small : n.natAbs ≤ 2 ^ 34) :
    Starts layout x := by
  refine ⟨n, h, ?_, fun _ => ⟨n, rfl⟩⟩
  have size : ((n.natAbs : ℕ) : ℚ) ≤ ((2 ^ 34 : ℕ) : ℚ) := Nat.cast_le.mpr small
  rw [Nat.cast_natAbs, Int.cast_abs] at size
  push_cast at size
  exact size

theorem starts_border {start : Spot Float} (h : start ∈ border e) :
    Starts .rectangular start.x ∧ Starts .rectangular start.y := by
  have before : Starts .rectangular (-1) :=
    starts_whole (n := -1) (by exact_mod_cast is_neg_one) (by decide)
  have word (n : UInt32) : Starts .rectangular n.toFloat := by
    have := n.toNat_lt
    exact starts_whole (n := n.toNat) (by exact_mod_cast is_word n) (by omega)
  have count {n : UInt32} {k : ℕ} (hk : k ∈ List.range n.toNat) :
      Starts .rectangular k.toUInt64.toFloat := by
    have := n.toNat_lt
    have := List.mem_range.mp hk
    exact starts_whole (n := k) (by exact_mod_cast is_count (n := k) (by omega)) (by omega)
  rcases List.mem_append.mp h with h | h
  · obtain ⟨y, hy, h⟩ := List.mem_flatMap.mp h
    rcases List.mem_pair.mp h with rfl | rfl
    · exact ⟨before, count hy⟩
    · exact ⟨word _, count hy⟩
  · obtain ⟨x, hx, h⟩ := List.mem_flatMap.mp h
    rcases List.mem_pair.mp h with rfl | rfl
    · exact ⟨count hx, before⟩
    · exact ⟨count hx, word _⟩

/-- A point of the circle is as far from its middle as the radius at most. -/
theorem starts_circle {n : UInt32} {c : Float} (hn : n.toNat ≤ reach e) (hc : IsBounded c) :
    Starts .circular (n.toFloat / 2 + c * radius e) := by
  obtain ⟨γ, hγ, short⟩ := hc
  have := reach_lt e
  have fits : Fits ((reach e : ℕ) : ℚ) := (is_radius e).fits
  have away : |γ * reach e| ≤ reach e := by
    rw [abs_mul, Nat.abs_cast]
    exact mul_le_of_le_one_left (Nat.cast_nonneg _) short
  have along := hγ.mul_rounded (is_radius e) (fits.abs_le_greatest away)
  have half : Is (n.toFloat / 2) ((n.toNat : ℚ) / (2 : ℕ)) := by
    refine (is_word n).div is_two (by norm_num) ?_
    have value : ((n.toNat : ℚ) / (2 : ℕ)) = ((n.toNat : ℤ) : ℚ) * 2 ^ (-1 : ℤ) := by
      push_cast
      rw [zpow_neg_one]
      ring
    rw [value]
    exact fits_of_lt (by omega) (by norm_num) (by norm_num)
  have bound : |(n.toNat : ℚ) / (2 : ℕ) + rounded (γ * reach e)| ≤ ((2 ^ 34 : ℤ) : ℚ) := by
    have middle : |(n.toNat : ℚ) / (2 : ℕ)| ≤ reach e := by
      have large : (n.toNat : ℚ) ≤ reach e := Nat.cast_le.mpr hn
      have positive := Nat.cast_nonneg (α := ℚ) n.toNat
      rw [abs_of_nonneg (by positivity)]
      push_cast
      linarith
    have small : (reach e : ℚ) ≤ 2 ^ 32 := by exact_mod_cast (reach_lt e).le
    have off := abs_rounded_le_of_fits fits away
    push_cast
    exact (abs_add_le _ _).trans (by linarith)
  have whole : Fits ((2 ^ 34 : ℤ) : ℚ) := fits_intCast (by norm_num)
  refine ⟨_, half.add_rounded along (whole.abs_le_greatest bound), ?_, nofun⟩
  have kept := abs_rounded_le_of_fits whole bound
  push_cast at kept
  exact kept

/-- **Where rays start**: within `2 ^ 34` of zero, and on whole numbers along the border. -/
theorem starts {start : Spot Float} (h : start ∈ points layout e) :
    start.x = nan ∨ (Starts layout start.x ∧ Starts layout start.y) := by
  cases layout with
  | rectangular => exact .inr (starts_border h)
  | circular =>
    obtain ⟨i, -, rfl⟩ := List.mem_map.mp h
    dsimp only
    generalize turn : (Numbers.turn : Float) * _ / _ = t
    rcases sinCos_bounded t with nowhere | ⟨s, c⟩
    · left
      show _ + (sinCos t).2 * _ = nan
      rw [nowhere, nan_mul, add_nan]
    · exact .inr ⟨starts_circle (le_max_left _ _) c, starts_circle (le_max_right _ _) s⟩

/-! ## 5. Rays -/

theorem Starts.coordinate {x : Float} (h : Starts layout x) (step : ℚ) :
    ∃ q, Coordinate layout step (maxSteps Float layout e) x q := by
  obtain ⟨q, value, bound, whole⟩ := h
  refine ⟨q, value, bound.trans ?_, fun rectangular _ => whole rectangular⟩
  have small : (maxSteps Float layout e : ℚ) ≤ 2 ^ 34 := by exact_mod_cast maxSteps_le layout e
  push_cast
  linarith

theorem isChain_strides {start : Spot Float} (h : start ∈ points layout e) (heading : Heading) :
    (passed layout e heading.step.toSpot (maxSteps Float layout e) start).IsChain fun p q =>
      Strides layout heading.step.x q.x p.round.cell.x q.round.cell.x ∧
        Strides layout heading.step.y q.y p.round.cell.y q.round.cell.y := by
  rcases heading.step_bounded with nowhere | ⟨⟨σ, hσ, across⟩, τ, hτ, down⟩
  · exact isChain_of_nan nowhere _ start
  rcases starts h with nowhere | ⟨x, y⟩
  · have outside : contains layout e start.round = false := contains_nan (.inl nowhere)
    cases maxSteps Float layout e with
    | zero => exact List.isChain_nil
    | succ n =>
      rw [passed, outside]
      exact List.isChain_nil
  · refine isChain_passed (P := fun n p => (∃ q, Coordinate layout σ n p.x q) ∧
      ∃ q, Coordinate layout τ n p.y q) (fun n p kept _ => ?_) ⟨x.coordinate σ, y.coordinate τ⟩
    obtain ⟨⟨q, x⟩, q', y⟩ := kept
    obtain ⟨x', stridesX⟩ := x.advance hσ across
    obtain ⟨y', stridesY⟩ := y.advance hτ down
    exact ⟨⟨⟨_, x'⟩, _, y'⟩, stridesX, stridesY⟩

end Double

/-- How a step goes on along an axis in exact arithmetic: to a neighbour, or over zero, to the mirror
    image of where it was. -/
def Crosses (step start : ℝ) (m n : ℤ) : Prop :=
  |n - m| ≤ 1 ∨ |step| = 1 ∧ start + step = -start

theorem crosses {step : ℝ} (short : |step| ≤ 1) (start : ℝ) :
    Crosses step start (away start) (away (start + step)) := by
  refine (Int.away_add short).imp_right fun ⟨one, half⟩ => ⟨one, ?_⟩
  linarith

theorem isChain_crosses (layout : Layout) (e : Extent) {step : Spot ℝ} (across : |step.x| ≤ 1)
    (down : |step.y| ≤ 1) (start : Spot ℝ) :
    (passed layout e step (maxSteps ℝ layout e) start).IsChain fun p q =>
      Crosses step.x p.x p.round.cell.x q.round.cell.x ∧
        Crosses step.y p.y p.round.cell.y q.round.cell.y := by
  refine isChain_passed (P := fun _ _ => True) (fun n p _ _ => ⟨trivial, ?_⟩) trivial
  rw [Spot.cell_round, Spot.cell_round]
  exact ⟨crosses across p.x, crosses down p.y⟩

/-- **Rays step to neighbours, but for halves.** The trail of a ray is made of the cells of the points
    that it passes, and each step of it goes on by one at most along each axis. Only from the circle,
    and only with a step that is one long along the axis, it may go on by two, and it ends halfway
    between two cells then. So rays from the border, and rays that go along no axis, pass over
    nothing. In exact arithmetic all that a step can pass over is the column or the row of zero. -/
theorem steps_reach_neighbours (layout : Layout) (e : Extent) (heading : Heading) {start : Point}
    (h : start ∈ (Launch.plan e layout).points) :
    let step := heading.step
    let way := passed layout e step.toSpot (maxSteps Float layout e) start.toSpot
    cells layout e step.toSpot start.toSpot = (way.map (·.round.cell)).destutter (· ≠ ·) ∧
    (way.IsChain fun p q => Strides layout step.x q.x p.round.cell.x q.round.cell.x ∧
      Strides layout step.y q.y p.round.cell.y q.round.cell.y) ∧
    (layout = .rectangular ∨ (step.x ≠ 1 ∧ step.x ≠ -1) ∧ step.y ≠ 1 ∧ step.y ≠ -1 →
      (way.map (·.round.cell)).IsChain Ray.Cell.Touches) ∧
    ∀ step start : Spot ℝ, |step.x| ≤ 1 → |step.y| ≤ 1 →
      (passed layout e step (maxSteps ℝ layout e) start).IsChain fun p q =>
        Crosses step.x p.x p.round.cell.x q.round.cell.x ∧
          Crosses step.y p.y p.round.cell.y q.round.cell.y := by
  intro step way
  have launched : start.toSpot ∈ (points layout e : List (Spot Float)) := by
    rw [points_double] at h
    obtain ⟨p, hp, rfl⟩ := List.mem_map.mp h
    exact hp
  have strides := isChain_strides launched heading
  refine ⟨cells_eq_destutter _, strides, fun calm => ?_, fun step start across down =>
    isChain_crosses layout e across down start⟩
  refine List.isChain_map_of_isChain _ (fun p q hpq => ?_) strides
  have near {s x : Float} {m n : ℤ} (h : Strides layout s x m n)
      (calm : layout = .rectangular ∨ s ≠ 1 ∧ s ≠ -1) : |n - m| ≤ 1 := by
    rcases h with near | ⟨circular, -, one, -⟩
    · exact near
    · rcases calm with rectangular | ⟨right, left⟩
      · rw [circular] at rectangular
        cases rectangular
      · exact (one.elim right left).elim
  exact ⟨near hpq.1 (calm.imp_right And.left), near hpq.2 (calm.imp_right And.right)⟩

/-- From the border, the ray through the third of a column of four pixels passes over nothing. -/
theorem row_is_stepped_through :
    beside ⟨1, 4⟩ 2 ∈ (Launch.plan ⟨1, 4⟩ .rectangular).points ∧
      ((passed .rectangular ⟨1, 4⟩ (Heading.ofDegrees 180).step.toSpot
        (maxSteps Float .rectangular ⟨1, 4⟩) (beside ⟨1, 4⟩ 2).toSpot).map
          (·.round.cell)).IsChain Ray.Cell.Touches := by
  have launched := beside_mem (e := ⟨1, 4⟩) (y := 2) (by decide)
  obtain ⟨-, -, touches, -⟩ :=
    steps_reach_neighbours .rectangular ⟨1, 4⟩ (.ofDegrees 180) launched
  exact ⟨launched, touches (.inl rfl)⟩

/-- From the first point of the circle around a column of four pixels, the ray to the left passes
    over the column: it comes from `0.5` to `-0.5`, from the cell right of it to the one left of it. -/
theorem column_is_passed_over :
    ¬ ∀ (layout : Layout) (e : Extent) (heading : Heading) (start : Point),
      0 < e.width → 0 < e.height → start ∈ (Launch.plan e layout).points →
      ((passed layout e heading.step.toSpot (maxSteps Float layout e) start.toSpot).map
        (·.round.cell)).IsChain Ray.Cell.Touches := by
  intro touches
  have chain := touches .circular ⟨1, 4⟩ (.ofDegrees 180) _ (by decide) (by decide)
    (List.head_mem (l := (Launch.plan ⟨1, 4⟩ .circular).points) (by decide +kernel))
  exact absurd chain (by decide +kernel)

end Trail

end Relief
