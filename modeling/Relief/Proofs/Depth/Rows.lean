import Mathlib.Algebra.Order.BigOperators.Group.Finset
import Mathlib.Order.Interval.Finset.SuccPred
import Relief.Proofs.Depth.Coverage
import Relief.Proofs.Depth.Once
import Relief.Proofs.Depth.Opposite
import Relief.Proofs.Depth.Overflow

/-!
# Rows

Rays along the rows of an image, launched along its border. Their running integrals are never
rounded, so what they leave in a tally is known exactly.

* `Slopes.across`: the exact slope across a pixel;
* `Way`: the two ways along a row, `Way.carried`: the running integral that a ray has when it has
  come over a pixel;
* `Ray.march_row`: **a ray along a row visits its pixels with these integrals**;
* `Integration.headingVisits_way`: the rays of a heading along the rows visit as one ray for each
  row does; `Integration.filter_headingVisits`: so one of them visits a pixel, and that once;
* `Integration.rows_are_summed`: **the two headings along the rows leave the sums of the slopes
  before and behind each pixel**.
-/

namespace Relief

open Double
open Int (away away_mono away_intCast)

/-! ## 1. Exact slopes -/

namespace Slopes

variable {slopes : Slopes} {x y : ℤ}

/-- The slope across a pixel, zero where it is unknown and outside the field. -/
def across (slopes : Slopes) (x y : ℤ) : ℚ :=
  match slopes.extent.slot? x y with
  | none => 0
  | some slot =>
    match slopes.image.pixels[slot]? with
    | none => 0
    | some p => if p.blue = 0 then 0 else (p.red.toNat : ℚ) - 255 / 2

theorem across_outside (h : slopes.extent.slot? x y = none) : slopes.across x y = 0 := by
  rw [across, h]

theorem across_pixel {slot : ℕ} {p : Pixel} (h : slopes.extent.slot? x y = some slot)
    (hp : slopes.image.pixels[slot]? = some p) :
    slopes.across x y = if p.blue = 0 then 0 else (p.red.toNat : ℚ) - 255 / 2 := by
  rw [across, h]
  dsimp only
  rw [hp]

/-- Slopes are whole numbers of halves, 255 of them at most. -/
theorem exists_across (slopes : Slopes) (x y : ℤ) :
    ∃ n : ℤ, slopes.across x y = n / 2 ∧ |n| ≤ 255 := by
  have zero : ∃ n : ℤ, (0 : ℚ) = n / 2 ∧ |n| ≤ 255 := ⟨0, by norm_num, by norm_num⟩
  unfold across
  split
  · exact zero
  · split
    · exact zero
    · rename_i p _
      split
      · exact zero
      · have := p.red.toNat_lt
        refine ⟨2 * p.red.toNat - 255, ?_, abs_le.mpr ⟨by omega, by omega⟩⟩
        push_cast
        ring

/-- So are sums of slopes. -/
theorem exists_sum_across (slopes : Slopes) (pixels : Finset ℤ) (y : ℤ) :
    ∃ n : ℤ, ∑ x ∈ pixels, slopes.across x y = n / 2 ∧ |n| ≤ 255 * pixels.card := by
  choose halves value bound using fun x => exists_across slopes x y
  refine ⟨∑ x ∈ pixels, halves x, ?_, ?_⟩
  · rw [Finset.sum_congr rfl fun x _ => value x, ← Finset.sum_div, Int.cast_sum]
  · calc |∑ x ∈ pixels, halves x| ≤ ∑ x ∈ pixels, |halves x| := Finset.abs_sum_le_sum_abs _ _
      _ ≤ pixels.card • 255 := Finset.sum_le_card_nsmul _ _ _ fun x _ => bound x
      _ = 255 * pixels.card := by rw [nsmul_eq_mul, mul_comm]

end Slopes

/-- A whole number of halves, far from the ends of the range of the words. -/
def IsHalves (q : ℚ) : Prop :=
  ∃ n : ℤ, q = n / 2 ∧ |n| ≤ 2 ^ 31 - 2

namespace IsHalves

variable {q : ℚ}

theorem fits (h : IsHalves q) : Fits q := by
  obtain ⟨n, rfl, bound⟩ := h
  rw [abs_le] at bound
  have half : (n : ℚ) / 2 = n * 2 ^ (-1 : ℤ) := by rw [zpow_neg_one, div_eq_mul_inv]
  rw [half]
  exact fits_of_lt (by omega) (by norm_num) (by norm_num)

theorem away_bounded (h : IsHalves q) : |away q| ≤ 2 ^ 30 - 1 := by
  obtain ⟨n, rfl, bound⟩ := h
  have small : |(n : ℚ) / 2| ≤ ((2 ^ 30 - 1 : ℤ) : ℚ) := by
    rw [abs_div, abs_two, div_le_iff₀ two_pos, ← Int.cast_abs]
    exact_mod_cast bound
  obtain ⟨low, high⟩ := abs_le.mp small
  have low := away_mono low
  have high := away_mono high
  rw [← Int.cast_neg, away_intCast] at low
  rw [away_intCast] at high
  exact abs_le.mpr ⟨low, high⟩

/-- **Such an integral is tallied as the whole number that is nearest.** -/
theorem quantize (h : IsHalves q) {integral : Float} (exact : Is integral q) :
    Ray.quantize integral = .ofInt (away q) := by
  have bound := abs_le.mp h.away_bounded
  unfold Ray.quantize Double.toInt
  rw [exact.round.truncate (by omega)]
  congr 1
  omega

theorem toInt_away (h : IsHalves q) : (Int32.ofInt (away q)).toInt = away q := by
  have bound := abs_le.mp h.away_bounded
  exact Int32.toInt_ofInt_of_le (by omega) (by omega)

end IsHalves

/-! ## 2. Two ways along a row -/

/-- The ways along a row. -/
inductive Way where
  | left
  | right

namespace Way

/-- By how much the column changes. -/
def sign : Way → ℤ
  | left => -1
  | right => 1

def step : Way → Point
  | left => ⟨-1, 0⟩
  | right => ⟨1, 0⟩

/-- The heading whose rays go this way: it points to where they come from. -/
def heading : Way → Heading
  | left => .ofDegrees 0
  | right => .ofDegrees 180

/-- The column beside the image in which rays of this way start. -/
def first (e : Extent) : Way → ℤ
  | left => e.width.toNat
  | right => -1

theorem step_heading (way : Way) : way.heading.opposite.step = way.step := by
  cases way with
  | left => exact Heading.step_opposite_zero
  | right => exact Point.eq_mk (by decide +kernel) (by decide +kernel)

theorem is_step (way : Way) : Is way.step.x way.sign := by
  cases way with
  | left =>
    show Is (-1) ((-1 : ℤ) : ℚ)
    exact_mod_cast Trail.is_neg_one
  | right =>
    show Is 1 ((1 : ℤ) : ℚ)
    exact_mod_cast is_one

theorem step_y (way : Way) : way.step.y = 0 := by
  cases way <;> rfl

theorem sign_eq (way : Way) : way.sign = -1 ∨ way.sign = 1 := by
  cases way with
  | left => exact .inl rfl
  | right => exact .inr rfl

/-- The columns that a ray comes to from one on, up to a number of them. -/
def columns (way : Way) (x : ℤ) (n : ℕ) : List ℤ :=
  List.iterate (· + way.sign) x n

theorem mem_columns {way : Way} {x z : ℤ} {n : ℕ} :
    z ∈ way.columns x n ↔ ∃ k < n, z = x + k * way.sign := by
  unfold columns
  simp only [List.mem_iterate, add_right_iterate, nsmul_eq_mul]

theorem nodup_columns (way : Way) (x : ℤ) (n : ℕ) : (way.columns x n).Nodup := by
  unfold columns
  rw [← List.range_map_iterate]
  refine List.nodup_range.map fun a b same => ?_
  simp only [add_right_iterate, nsmul_eq_mul, add_right_inj] at same
  rcases way.sign_eq with sign | sign <;> rw [sign] at same <;> omega

/-- From the column where it starts, a ray comes to all others. -/
theorem mem_columns_first {e : Extent} {way : Way} {z : ℤ} :
    z ∈ way.columns (way.first e) (e.width.toNat + 2) ↔ -1 ≤ z ∧ z ≤ e.width.toNat := by
  rw [mem_columns]
  constructor
  · rintro ⟨k, hk, rfl⟩
    cases way <;> simp only [first, sign] <;> omega
  · rintro ⟨low, high⟩
    cases way with
    | left => exact ⟨(e.width.toNat - z).toNat, by omega, by simp only [first, sign]; omega⟩
    | right => exact ⟨(z + 1).toNat, by omega, by simp only [first, sign]; omega⟩

/-- **The running integral of a ray that has come over a pixel**: what the surface rises from the
    pixel to where the ray comes from. -/
noncomputable def carried (slopes : Slopes) (y : ℤ) (z : ℤ) : Way → ℚ
  | left => ∑ x ∈ Finset.Ico z slopes.extent.width.toNat, slopes.across x y
  | right => -∑ x ∈ Finset.Icc 0 z, slopes.across x y

section Carried

variable {slopes : Slopes} {y z : ℤ}

/-- Outside the columns of the image nothing is climbed. -/
theorem across_beside (h : z < 0 ∨ slopes.extent.width.toNat ≤ z) : slopes.across z y = 0 := by
  refine Slopes.across_outside ?_
  unfold Extent.slot?
  rw [if_neg (by omega)]

/-- **Over each pixel, it changes by what is climbed there.** -/
theorem carried_step (way : Way) (hz : -1 ≤ z ∧ z ≤ slopes.extent.width.toNat) :
    way.carried slopes y z
      = way.carried slopes y (z - way.sign) - way.sign * slopes.across z y := by
  cases way with
  | left =>
    show ∑ x ∈ Finset.Ico z _, _ = ∑ x ∈ Finset.Ico (z - -1) _, _ - ((-1 : ℤ) : ℚ) * _
    rw [sub_neg_eq_add, Int.cast_neg, Int.cast_one, neg_one_mul, sub_neg_eq_add,
      add_comm (Finset.sum _ _)]
    rcases lt_or_eq_of_le hz.2 with inside | rfl
    · rw [← Finset.insert_Ico_add_one_left_eq_Ico inside, Finset.sum_insert]
      exact fun mem => by
        have := (Finset.mem_Ico.mp mem).1
        omega
    · rw [Finset.Ico_self, Finset.Ico_eq_empty (by omega), across_beside (.inr le_rfl), zero_add]
  | right =>
    show -∑ x ∈ Finset.Icc 0 z, _ = -∑ x ∈ Finset.Icc 0 (z - 1), _ - ((1 : ℤ) : ℚ) * _
    rw [Int.cast_one, one_mul, ← neg_add']
    congr 1
    rcases lt_or_ge z 0 with beside | inside
    · rw [Finset.Icc_eq_empty (by omega), Finset.Icc_eq_empty (by omega),
        across_beside (.inl beside), add_zero]
    · rw [← Finset.insert_Icc_sub_one_right_eq_Icc inside, Finset.sum_insert, add_comm]
      exact fun mem => by
        have := (Finset.mem_Icc.mp mem).2
        omega

/-- Before the first pixel, it is zero. -/
theorem carried_first (slopes : Slopes) (way : Way) :
    way.carried slopes y (way.first slopes.extent - way.sign) = 0 := by
  cases way with
  | left =>
    show ∑ x ∈ Finset.Ico ((slopes.extent.width.toNat : ℤ) - -1) _, _ = (0 : ℚ)
    rw [Finset.Ico_eq_empty (by omega), Finset.sum_empty]
  | right =>
    show -∑ x ∈ Finset.Icc (0 : ℤ) (-1 - 1), _ = (0 : ℚ)
    rw [Finset.Icc_eq_empty (by omega), Finset.sum_empty, neg_zero]

/-- It never needs rounding. -/
theorem isHalves_carried (small : 255 * (slopes.extent.width.toNat + 2) ≤ 2 ^ 31) (way : Way)
    (hz : -1 ≤ z ∧ z ≤ slopes.extent.width.toNat) : IsHalves (way.carried slopes y z) := by
  cases way with
  | left =>
    obtain ⟨n, sum, bound⟩ :=
      slopes.exists_sum_across (Finset.Ico z slopes.extent.width.toNat) y
    rw [Int.card_Ico] at bound
    exact ⟨n, sum, by omega⟩
  | right =>
    obtain ⟨n, sum, bound⟩ := slopes.exists_sum_across (Finset.Icc 0 z) y
    rw [Int.card_Icc] at bound
    refine ⟨-n, ?_, by rw [abs_neg]; omega⟩
    show -∑ x ∈ Finset.Icc 0 z, _ = ((-n : ℤ) : ℚ) / 2
    rw [sum, Int.cast_neg, neg_div]

end Carried

end Way

/-! ## 3. A ray along a row -/

namespace Trail

variable {e : Extent} {p : Spot Float} {x y : ℤ}

/-- Only the columns of the image and those beside it are in the region. -/
theorem At.not_contains (h : At p x y) (hx : x < -1 ∨ e.width.toNat < x) :
    Trail.contains .rectangular e p = false := by
  have beside : ¬ ((-1 : Float) ≤ p.x ∧ p.x ≤ e.width.toFloat) := fun ⟨left, right⟩ => by
    have left := (is_neg_one.le_iff h.x).mp left
    have right := (h.x.le_iff (is_word e.width)).mp right
    have : (-1 : ℤ) ≤ x := by exact_mod_cast left
    have : x ≤ e.width.toNat := by exact_mod_cast right
    omega
  show (((decide _ && decide _) && decide _) && decide _) = false
  rw [← Bool.not_eq_true]
  simp only [Bool.and_eq_true, decide_eq_true_eq]
  exact fun ⟨⟨⟨left, _⟩, right⟩, _⟩ => beside ⟨left, right⟩

end Trail

namespace Ray

open Trail (At)

variable {slopes : Slopes}

/-- The visit of a ray with the running integral `carried z` over column `z`, if that is one of the
    image. -/
def visit? (slopes : Slopes) (carried : ℤ → ℚ) (y z : ℤ) : Option Visit :=
  (slopes.extent.slot? z y).map fun slot => ⟨slot, .ofInt (away (carried z))⟩

theorem is_climb (way : Way) {y z : ℤ} {slot : ℕ} {p : Pixel}
    (hs : slopes.extent.slot? z y = some slot) (hp : slopes.image.pixels[slot]? = some p) :
    Is (Slopes.climb p way.step.x way.step.y) (way.sign * slopes.across z y) := by
  unfold Slopes.climb Slopes.isKnown
  rw [Slopes.across_pixel hs hp, way.step_y]
  by_cases unknown : p.blue = 0
  · rw [if_neg (by rw [unknown]; decide), if_pos unknown, mul_zero]
    exact is_zero
  · rw [if_pos (bne_iff_ne.mpr unknown), if_neg unknown]
    have halves : IsHalves (way.sign * ((p.red.toNat : ℚ) - 255 / 2)) := by
      have := p.red.toNat_lt
      refine ⟨way.sign * (2 * p.red.toNat - 255), by push_cast; ring, ?_⟩
      rcases way.sign_eq with sign | sign <;> rw [sign, abs_le] <;> omega
    have across := way.is_step.mul (Slopes.is_decode p.red) halves.fits
    have down : Is (0 * Slopes.decode p.green) 0 := by
      have product := is_zero.mul (Slopes.is_decode p.green) (by rw [zero_mul]; exact .inl rfl)
      rwa [zero_mul] at product
    have sum := across.add down (by rw [add_zero]; exact halves.fits)
    rwa [add_zero] at sum

section March

variable (way : Way) {carried : ℤ → ℚ} {x : ℤ} {y : ℕ} (hy : y < slopes.extent.height.toNat)
  {position : Point} {last : Option Cell} {integral : Float}

/-- What a ray has come over a column with, if it does so without rounding. -/
structure Passes (slopes : Slopes) (way : Way) (carried : ℤ → ℚ) (y z : ℤ) : Prop where
  low : -1 ≤ z
  high : z ≤ slopes.extent.width.toNat
  halves : IsHalves (carried z)
  step : carried z = carried (z - way.sign) - way.sign * slopes.across z y

/-- Beyond the columns beside the image, a ray ends. -/
theorem march_out (here : At position.toSpot x y)
    (out : x < -1 ∨ slopes.extent.width.toNat < x) (fuel : ℕ) :
    march slopes (.plan slopes.extent .rectangular) way.step fuel position last integral = [] := by
  cases fuel with
  | zero => rfl
  | succ fuel =>
    have outside : (Launch.plan slopes.extent .rectangular).contains position.round = false := by
      rw [Trail.contains_double]
      exact here.round.not_contains out
    rw [march]
    dsimp only
    rw [outside, if_neg Bool.false_ne_true]

include hy in
/-- **Over one column**, a ray has a visit if that is one of the image, and goes on with the
    integral that it carries from there. -/
theorem march_column (here : At position.toSpot x y) (new : last ≠ some ⟨x, y⟩)
    (exact : Is integral (carried (x - way.sign))) (passes : Passes slopes way carried y x)
    (fuel : ℕ) :
    ∃ integral', Is integral' (carried x) ∧
      march slopes (.plan slopes.extent .rectangular) way.step (fuel + 1) position last integral
        = (visit? slopes carried y x).toList ++ march slopes (.plan slopes.extent .rectangular)
            way.step fuel (position.advance way.step) (some ⟨x, y⟩) integral' := by
  have := slopes.extent.width.toNat_lt
  have := slopes.extent.height.toNat_lt
  obtain ⟨low, high, halves, step⟩ := passes
  have inside : (Launch.plan slopes.extent .rectangular).contains position.round = true := by
    rw [Trail.contains_double]
    exact At.contains (e := slopes.extent) here.round ⟨low, high⟩ (by omega)
  have cell : Cell.ofPoint position.round = ⟨x, y⟩ := here.round.cell (by omega) (by omega)
  have fresh : ¬ (⟨x, y⟩ : Cell).isLast last = true := fun same => new (Cell.isLast_iff.mp same)
  rw [march]
  dsimp only
  rw [if_pos inside, cell, if_neg fresh]
  cases hs : slopes.extent.slot? x y with
  | none =>
    refine ⟨integral, ?_, by rw [visit?, hs]; rfl⟩
    rwa [step, Slopes.across_outside hs, mul_zero, sub_zero]
  | some slot =>
    have inside : slot < slopes.image.pixels.size := by
      rw [slopes.image.size_pixels]
      exact Extent.slot?_lt hs
    have hp := Array.getElem?_eq_getElem inside
    have climbed := exact.sub (is_climb way hs hp) (by rw [← step]; exact halves.fits)
    rw [← step] at climbed
    refine ⟨_, climbed, ?_⟩
    dsimp only
    rw [hp, visit?, hs]
    dsimp only
    rw [halves.quantize climbed]
    rfl

variable (carried) in
include hy in
/-- **A ray along a row visits the pixels that it comes to**, with the running integrals that it
    carries, and ends where it leaves the region. -/
theorem march_row (n : ℕ) (here : At position.toSpot x y) (new : last ≠ some ⟨x, y⟩)
    (exact : Is integral (carried (x - way.sign)))
    (row : ∀ z ∈ way.columns x n, Passes slopes way carried y z)
    (out : x + n * way.sign < -1 ∨ slopes.extent.width.toNat < x + n * way.sign)
    {fuel : ℕ} (enough : n ≤ fuel) :
    march slopes (.plan slopes.extent .rectangular) way.step fuel position last integral
      = (way.columns x n).filterMap (visit? slopes carried y) := by
  have := slopes.extent.width.toNat_lt
  have := slopes.extent.height.toNat_lt
  have sign := way.sign_eq
  induction n generalizing x position last integral fuel with
  | zero => exact march_out way here (by omega) fuel
  | succ n ih =>
    obtain ⟨fuel, rfl⟩ := Nat.exists_eq_succ_of_ne_zero (Nat.ne_zero_of_lt enough)
    obtain ⟨passes, later⟩ := List.forall_mem_cons.mp row
    obtain ⟨integral', exact', first⟩ := march_column way hy here new exact passes fuel
    have low := passes.low
    have high := passes.high
    have moved : some (⟨x, y⟩ : Cell) ≠ some ⟨x + way.sign, y⟩ := by
      intro same
      injection same with same
      injection same with same
      omega
    have ends : x + way.sign + n * way.sign < -1 ∨
        slopes.extent.width.toNat < x + way.sign + n * way.sign := by
      have far : x + way.sign + n * way.sign = x + (n + 1 : ℕ) * way.sign := by push_cast; ring
      rwa [far]
    have next : At (position.advance way.step).toSpot (x + way.sign) y :=
      here.advance way.is_step way.step_y (by omega) (by omega)
    have rest := ih next moved (by rwa [add_sub_cancel_right]) later ends
      (Nat.le_of_succ_le_succ enough)
    have split : way.columns x (n + 1) = x :: way.columns (x + way.sign) n := rfl
    rw [first, rest, split, List.filterMap_cons]
    cases visit? slopes carried y x <;> rfl

end March

end Ray

/-! ## 4. All rays of a heading -/

/-- Where only one entry of a list makes something, the whole list makes that. -/
theorem flatMap_eq_of_unique {α β : Type} {f : α → List β} {l : List α} {a : α} (nodup : l.Nodup)
    (mem : a ∈ l) (elsewhere : ∀ b ∈ l, b ≠ a → f b = []) : l.flatMap f = f a := by
  obtain ⟨before, after, rfl⟩ := List.append_of_mem mem
  obtain ⟨-, others, apart⟩ := List.nodup_append.mp nodup
  have fore : before.flatMap f = [] := List.flatMap_eq_nil_iff.mpr fun b hb =>
    elsewhere b (List.mem_append_left _ hb) (apart b hb a List.mem_cons_self)
  have aft : after.flatMap f = [] := List.flatMap_eq_nil_iff.mpr fun b hb =>
    elsewhere b (List.mem_append_right _ (List.mem_cons_of_mem _ hb)) fun same =>
      (List.nodup_cons.mp others).1 (same ▸ hb)
  rw [List.flatMap_append, List.flatMap_cons, fore, aft, List.append_nil, List.nil_append]

namespace Way

open Trail (At)

/-- The column beside the image in which rays that started at the other end would leave. -/
def final (e : Extent) : Way → ℤ
  | left => -1
  | right => e.width.toNat

/-- The launch point of a row from which rays go this way over the image. -/
def start (e : Extent) (y : ℕ) : Way → Point
  | left => ⟨e.width.toFloat, y.toUInt64.toFloat⟩
  | right => ⟨-1, y.toUInt64.toFloat⟩

/-- The launch point at the other end of the row. -/
def finish (e : Extent) (y : ℕ) : Way → Point
  | left => ⟨-1, y.toUInt64.toFloat⟩
  | right => ⟨e.width.toFloat, y.toUInt64.toFloat⟩

variable {e : Extent} {y : ℕ}

theorem at_start (way : Way) (hy : y < e.height.toNat) :
    At (way.start e y).toSpot (way.first e) y := by
  have := e.height.toNat_lt
  have row : Is y.toUInt64.toFloat ((y : ℤ) : ℚ) := by exact_mod_cast is_count (n := y) (by omega)
  cases way with
  | left => exact ⟨by exact_mod_cast is_word e.width, row⟩
  | right => exact ⟨by exact_mod_cast Trail.is_neg_one, row⟩

theorem at_finish (way : Way) (hy : y < e.height.toNat) :
    At (way.finish e y).toSpot (way.final e) y := by
  have := e.height.toNat_lt
  have row : Is y.toUInt64.toFloat ((y : ℤ) : ℚ) := by exact_mod_cast is_count (n := y) (by omega)
  cases way with
  | left => exact ⟨by exact_mod_cast Trail.is_neg_one, row⟩
  | right => exact ⟨by exact_mod_cast is_word e.width, row⟩

/-- **A ray along the rows can meet the image where it starts in one of them.** -/
theorem reaches_iff (way : Way) {point : Point} {n : ℤ} (row : Is point.y n) :
    (Launch.plan e .rectangular).reaches point way.step = true ↔ 0 ≤ n ∧ n < e.height.toNat := by
  have moves : (way.step.x != 0) = true := by cases way <;> decide +kernel
  have level : (way.step.y != 0) = false := by cases way <;> decide +kernel
  have rounded := row.round
  rw [away_intCast] at rounded
  show ((way.step.x != 0 || _) && (way.step.y != 0 || Launch.isInside point.y e.height)) = true ↔ _
  rw [moves, level, Bool.true_or, Bool.true_and, Bool.false_or, Launch.isInside, Bool.and_eq_true,
    decide_eq_true_iff, decide_eq_true_iff, is_zero.le_iff rounded,
    rounded.lt_iff (is_word e.height)]
  norm_cast

end Way

namespace Integration

open Ray

variable {slopes : Slopes}
  (small : 255 * (slopes.extent.width.toNat + slopes.extent.height.toNat + 8) < 2 ^ 31)

/-- The visits of the ray that goes one way over a row. -/
noncomputable def rowVisits (slopes : Slopes) (way : Way) (y : ℕ) : List Visit :=
  (way.columns (way.first slopes.extent) (slopes.extent.width.toNat + 2)).filterMap
    (visit? slopes (way.carried slopes y ·) y)

include small in
/-- The ray from the one end of a row goes over it, -/
theorem rayVisits_start (way : Way) {y : ℕ} (hy : y < slopes.extent.height.toNat) :
    rayVisits slopes (.plan slopes.extent .rectangular) way.step (way.start slopes.extent y)
      = rowVisits slopes way y := by
  have here := way.at_start hy
  have fuel : (Launch.plan slopes.extent .rectangular).maxSteps
      = slopes.extent.width.toNat + slopes.extent.height.toNat + 8 := by
    rw [Trail.maxSteps_double, Trail.maxSteps_rectangular_double]
  rw [rayVisits, if_pos ((way.reaches_iff here.y).mpr (by omega)), visits]
  refine march_row way _ hy _ here (Option.some_ne_none _).symm ?_ (fun z hz => ?_) ?_ (by omega)
  · rw [way.carried_first]
    exact is_zero
  · obtain ⟨low, high⟩ := Way.mem_columns_first.mp hz
    exact ⟨low, high, way.isHalves_carried (by omega) ⟨low, high⟩, way.carried_step ⟨low, high⟩⟩
  · cases way <;> simp only [Way.first, Way.sign] <;> omega

/-- and that from the other end leaves at once. -/
theorem rayVisits_finish (way : Way) {y : ℕ} (hy : y < slopes.extent.height.toNat) :
    rayVisits slopes (.plan slopes.extent .rectangular) way.step (way.finish slopes.extent y)
      = [] := by
  have here := way.at_finish hy
  have beside : way.final slopes.extent < 0 ∨
      slopes.extent.width.toNat ≤ way.final slopes.extent := by
    cases way <;> simp only [Way.final] <;> omega
  have outside : slopes.extent.slot? (way.final slopes.extent) y = none := by
    unfold Extent.slot?
    rw [if_neg (by omega)]
  rw [rayVisits, if_pos ((way.reaches_iff here.y).mpr (by omega)), visits]
  refine (march_row way (fun _ => 0) hy 1 here (Option.some_ne_none _).symm is_zero
    (fun z hz => ?_) ?_ ?_).trans ?_
  · obtain rfl := List.mem_singleton.mp hz
    refine ⟨?_, ?_, ⟨0, by norm_num, by norm_num⟩, ?_⟩
    · cases way <;> simp only [Way.final] <;> omega
    · cases way <;> simp only [Way.final] <;> omega
    · rw [Slopes.across_outside outside, mul_zero, sub_zero]
  · cases way <;> simp only [Way.final, Way.sign] <;> omega
  · rw [Trail.maxSteps_double, Trail.maxSteps_rectangular_double]
    omega
  · show ([way.final slopes.extent].filterMap (visit? slopes (fun _ => 0) y)) = []
    rw [List.filterMap_cons, visit?, outside]
    rfl

/-- Rays that start above or below the image do not meet it. -/
theorem rayVisits_beside (way : Way) {point : Point} {n : ℤ} (row : Is point.y n)
    (beside : n < 0 ∨ slopes.extent.height.toNat ≤ n) :
    rayVisits slopes (.plan slopes.extent .rectangular) way.step point = [] := by
  rw [rayVisits, if_neg]
  rw [way.reaches_iff row]
  omega

include small in
/-- From the two launch points of a row, it is visited once. -/
theorem rayVisits_row (way : Way) {y : ℕ} (hy : y < slopes.extent.height.toNat) :
    [(⟨-1, y.toUInt64.toFloat⟩ : Point), ⟨slopes.extent.width.toFloat, y.toUInt64.toFloat⟩].flatMap
        (rayVisits slopes (.plan slopes.extent .rectangular) way.step)
      = rowVisits slopes way y := by
  have start := rayVisits_start small way hy
  have finish := rayVisits_finish way hy
  rw [List.flatMap_cons, List.flatMap_singleton]
  cases way with
  | left =>
    rw [Way.start] at start
    rw [Way.finish] at finish
    rw [start, finish, List.nil_append]
  | right =>
    rw [Way.start] at start
    rw [Way.finish] at finish
    rw [start, finish, List.append_nil]

/-- From the two launch points of a column, nothing is. -/
theorem rayVisits_column (way : Way) (x : ℕ) :
    [(⟨x.toUInt64.toFloat, -1⟩ : Point), ⟨x.toUInt64.toFloat, slopes.extent.height.toFloat⟩].flatMap
      (rayVisits slopes (.plan slopes.extent .rectangular) way.step) = [] := by
  have above : Is (-1) ((-1 : ℤ) : ℚ) := by exact_mod_cast Trail.is_neg_one
  have below : Is slopes.extent.height.toFloat ((slopes.extent.height.toNat : ℤ) : ℚ) := by
    exact_mod_cast is_word slopes.extent.height
  rw [List.flatMap_cons, List.flatMap_singleton, rayVisits_beside way above (by omega),
    rayVisits_beside way below (by omega)]
  rfl

include small in
/-- **The rays of a heading along the rows** visit as one ray for each row does. -/
theorem headingVisits_way (way : Way) :
    headingVisits slopes (.plan slopes.extent .rectangular) way.heading
      = (List.range slopes.extent.height.toNat).flatMap (rowVisits slopes way) := by
  rw [headingVisits, way.step_heading]
  show (Launch.border slopes.extent).flatMap _ = _
  unfold Launch.border
  rw [List.flatMap_append, List.flatMap_assoc, List.flatMap_assoc,
    List.flatMap_eq_nil_iff.mpr fun x _ => rayVisits_column way x, List.append_nil]
  exact List.flatMap_congr fun y hy => rayVisits_row small way (List.mem_range.mp hy)

include small in
/-- **Of all rays of a heading, one visits a pixel**, and that once. -/
theorem filter_headingVisits (way : Way) {x y : ℕ} (hx : x < slopes.extent.width.toNat)
    (hy : y < slopes.extent.height.toNat) :
    (headingVisits slopes (.plan slopes.extent .rectangular) way.heading).filter
        (·.slot == y * slopes.extent.width.toNat + x)
      = [⟨y * slopes.extent.width.toNat + x, .ofInt (away (way.carried slopes y x))⟩] := by
  have here := Extent.slot?_natCast hx hy
  let columns := way.columns (way.first slopes.extent) (slopes.extent.width.toNat + 2)
  -- what there is of the pixel among the visits to a column of a row
  let found (y' : ℕ) (z : ℤ) : List Visit :=
    (visit? slopes (way.carried slopes y' ·) y' z).toList.filter
      (·.slot == y * slopes.extent.width.toNat + x)
  have nothing {y' : ℕ} {z : ℤ} (other : (⟨z, y'⟩ : Cell) ≠ ⟨x, y⟩) : found y' z = [] := by
    refine List.filter_eq_nil_iff.mpr fun v hv same => other ?_
    obtain ⟨slot, hs, rfl⟩ := Option.map_eq_some_iff.mp (Option.mem_toList.mp hv)
    rw [← beq_iff_eq.mp same] at here
    exact Trail.slot?_injective hs here
  have row (y' : ℕ) : (rowVisits slopes way y').filter
      (·.slot == y * slopes.extent.width.toNat + x) = columns.flatMap (found y') := by
    rw [rowVisits, List.filterMap_eq_flatMap_toList, List.filter_flatMap]
  have mem : (x : ℤ) ∈ columns := Way.mem_columns_first.mpr (by omega)
  rw [headingVisits_way small, List.filter_flatMap, List.flatMap_congr fun y' _ => row y',
    flatMap_eq_of_unique List.nodup_range (List.mem_range.mpr hy) fun y' _ other => ?_,
    flatMap_eq_of_unique (way.nodup_columns _ _) mem fun z _ other => ?_]
  · show ((visit? slopes (way.carried slopes y ·) y x).toList.filter _) = _
    rw [visit?, here]
    exact List.filter_cons_of_pos (beq_self_eq_true _)
  · exact nothing fun same => other (congrArg Cell.x same)
  · refine List.flatMap_eq_nil_iff.mpr fun z _ => nothing fun same => other ?_
    exact Int.ofNat_inj.mp (congrArg Cell.y same)

end Integration

/-! ## 5. What they leave -/

/-- What visits add up to in a slot is what those of that slot do. -/
theorem Tally.balance_filter (slot : ℕ) (visits : List Visit) :
    balance slot (visits.filter (·.slot == slot)) = balance slot visits := by
  induction visits with
  | nil => rfl
  | cons v rest ih =>
    have first : balance slot (v :: rest) = v.amount slot + balance slot rest := rfl
    rw [first, List.filter_cons]
    by_cases here : v.slot = slot
    · rw [if_pos (beq_iff_eq.mpr here), ← ih]
      rfl
    · rw [if_neg (by rwa [beq_iff_eq]), ih, Visit.amount, if_neg here, zero_add]

namespace Integration

/-- **What the rays of both ways leave in a pixel.** -/
theorem visits_of_pixel {slopes : Slopes}
    (small : 255 * (slopes.extent.width.toNat + slopes.extent.height.toNat + 8) < 2 ^ 31) {x y : ℕ}
    (hx : x < slopes.extent.width.toNat) (hy : y < slopes.extent.height.toNat) :
    let slot := y * slopes.extent.width.toNat + x
    let visits := [Way.left.heading, Way.right.heading].flatMap
      (headingVisits slopes (.plan slopes.extent .rectangular))
    visits.countP (·.slot == slot) = 2 ∧
      Tally.balance slot visits
        = away (Way.left.carried slopes y x) + away (Way.right.carried slopes y x) := by
  intro slot visits
  have two : visits.filter (·.slot == slot)
      = [⟨slot, .ofInt (away (Way.left.carried slopes y x))⟩,
        ⟨slot, .ofInt (away (Way.right.carried slopes y x))⟩] := by
    rw [List.filter_flatMap, List.flatMap_cons, List.flatMap_singleton,
      filter_headingVisits small .left hx hy, filter_headingVisits small .right hx hy,
      List.singleton_append]
  have halves (way : Way) : IsHalves (way.carried slopes y x) :=
    way.isHalves_carried (by omega) (by omega)
  rw [List.countP_eq_length_filter, ← Tally.balance_filter, two]
  refine ⟨rfl, ?_⟩
  simp only [Tally.balance, List.map_cons, List.map_nil, List.sum_cons, List.sum_nil, add_zero,
    Visit.amount, if_true, (halves _).toInt_away]

/-- **What a tally that holds these visits has of a pixel.** -/
theorem holds_pixel {slopes : Slopes}
    (small : 255 * (slopes.extent.width.toNat + slopes.extent.height.toNat + 8) < 2 ^ 31) {t : Tally}
    (held : t.Holds slopes.extent ([Way.left.heading, Way.right.heading].flatMap
      (headingVisits slopes (.plan slopes.extent .rectangular)))) {x y : ℕ}
    (hx : x < slopes.extent.width.toNat) (hy : y < slopes.extent.height.toNat) :
    t.counts[y * slopes.extent.width.toNat + x]? = some 2 ∧
      ∃ sum, t.sums[y * slopes.extent.width.toNat + x]? = some sum ∧
        sum.toInt = away (Way.left.carried slopes y x) + away (Way.right.carried slopes y x) := by
  have hs := Extent.slot?_lt (Extent.slot?_natCast hx hy)
  obtain ⟨twice, total⟩ := visits_of_pixel small hx hy
  have halves (way : Way) : IsHalves (way.carried slopes y x) :=
    way.isHalves_carried (by omega) (by omega)
  have bound (way : Way) := abs_le.mp (halves way).away_bounded
  have left := bound .left
  have right := bound .right
  have stored := Tally.sum_post hs ([Way.left.heading, Way.right.heading].flatMap
    (headingVisits slopes (.plan slopes.extent .rectangular)))
  rw [← held.sums, total] at stored
  refine ⟨?_, _, stored, Tally.toInt_ofInt (Tally.leavesRange_eq_false.mpr ⟨?_, ?_⟩)⟩
  · rw [held.count hs, twice]
    rfl
  · omega
  · omega

/-- **The two headings along the rows leave sums of slopes.** On a frame along the border of the
    field, into a fresh tally, both are completed; and every pixel is then visited twice, with the
    sum of the slopes across the pixels of its row from it on, and with that of the slopes up to it,
    taken negatively. Both are exact until they are tallied, a half going away from zero. -/
theorem rows_are_summed (slopes : Slopes)
    (small : 255 * (slopes.extent.width.toNat + slopes.extent.height.toNat + 8) < 2 ^ 31) :
    ∃ t, (inOrder slopes (.plan slopes.extent .rectangular) [.ofDegrees 0, .ofDegrees 180]
        (.new slopes.extent)).result = (t, 2, .complete) ∧
      t.extent = slopes.extent ∧
      ∀ x y : ℕ, x < slopes.extent.width.toNat → y < slopes.extent.height.toNat →
        let slot := y * slopes.extent.width.toNat + x
        let behind := ∑ i ∈ Finset.Ico (x : ℤ) slopes.extent.width.toNat, slopes.across i y
        let before := ∑ i ∈ Finset.Icc (0 : ℤ) x, slopes.across i y
        t.counts[slot]? = some 2 ∧
        ∃ sum, t.sums[slot]? = some sum ∧ sum.toInt = away behind + away (-before) := by
  obtain ⟨t, done, held⟩ := follow_inOrder slopes (.plan slopes.extent .rectangular)
    (o := Course.patient) (s := ()) rfl [Way.left.heading, Way.right.heading]
    (Tally.holds_new slopes.extent)
  rw [List.nil_append] at held
  exact ⟨t, congrArg Prod.fst done, held.extent, fun x y hx hy => holds_pixel small held hx hy⟩

/-- A row of four pixels that rises by 2.5 over each. -/
def scanline : Slopes where
  image :=
    { width := 4
      height := 1
      pixels := Array.replicate 4 ⟨130, 127, 255, 255⟩
      size_pixels := rfl }

/-- Behind the second pixel it rises by 7.5, that pixel included, and before it by 5. -/
theorem scanline_is_summed :
    255 * (scanline.extent.width.toNat + scanline.extent.height.toNat + 8) < 2 ^ 31 ∧
    ∃ t, (inOrder scanline (.plan scanline.extent .rectangular) [.ofDegrees 0, .ofDegrees 180]
        (.new scanline.extent)).result = (t, 2, .complete) ∧
      t.counts[1]? = some 2 ∧ ∃ sum, t.sums[1]? = some sum ∧ sum.toInt = 8 - 5 := by
  have small : 255 * (scanline.extent.width.toNat + scanline.extent.height.toNat + 8) < 2 ^ 31 := by
    decide
  obtain ⟨t, done, -, pixel⟩ := rows_are_summed scanline small
  obtain ⟨twice, sum, here, value⟩ := pixel 1 0 (by decide) (by decide)
  refine ⟨small, t, done, twice, sum, here, value.trans ?_⟩
  decide +kernel

end Integration

end Relief
