import Relief.Depth.Levels
import Relief.Proofs.Depth.Once
import Relief.Proofs.Number.Stride

/-!
# Levelling

What becomes of the numbers of a tally when they are spread over the grey levels. Three operations
are rounded on the way from a scaled sum to its level, and each of them keeps the order.

* `Double.rounded_sub_pos`: **different doubles have a difference that is not rounded to zero**;
* `Levels.mostVisits_spec`: the most visits are those of some pixel, and no pixel has more;
* `Levels.is_scale`: a scaled sum is two roundings away from the exact one;
* `Levels.Range.Spans`: a range whose ends are two of some numbers, with the others in between;
  `Levels.spans_of`: that of some numbers is;
* `Levels.share`: how far a number is along the range, as it is rounded; it goes up with the number,
  from zero to 255 (`share_mono`, `share_low`, `share_high`);
* `Levels.Range.IsFrom.level_eq`: the level is the byte nearest to the share;
* `Levels.mem_image_of_different`, `forall_image_flat_iff`: a map is a middle grey where all scaled
  sums are alike, and **has both black and white where they are not**;
* `Levels.levels_spread_over_range`: **levels go up with the scaled sums, and from black to white**,
  unless all are alike.
-/

namespace Relief

open Double
open Int (away away_mono away_intCast)

/-! ## 1. Doubles in a range -/

namespace Double

variable {x y z : Float} {p q r : ℚ}

/-- A word with a sign is held exactly. -/
theorem is_ofInt {n : ℤ} (hn : n.natAbs < 2 ^ 53) : Is (ofInt n) n := by
  have fits : Fits ((n.natAbs : ℕ) * 2 ^ (0 : ℤ)) := by
    have whole : Fits (((n.natAbs : ℕ) : ℤ) : ℚ) := fits_intCast (by omega)
    rwa [zpow_zero, mul_one, ← Int.cast_natCast]
  unfold ofInt
  by_cases negative : n < 0
  · have exact := is_nearest_of_fits .negative fits
    have value : signed .negative ((n.natAbs : ℕ) * 2 ^ (0 : ℤ)) = (n : ℚ) := by
      show -(((n.natAbs : ℕ) : ℚ) * 2 ^ (0 : ℤ)) = n
      rw [zpow_zero, mul_one, Nat.cast_natAbs, abs_of_neg negative, Int.cast_neg, neg_neg]
    rw [if_pos negative]
    rwa [value] at exact
  · have exact := is_nearest_of_fits .positive fits
    have value : signed .positive ((n.natAbs : ℕ) * 2 ^ (0 : ℤ)) = (n : ℚ) := by
      show ((n.natAbs : ℕ) : ℚ) * 2 ^ (0 : ℤ) = n
      rw [zpow_zero, mul_one, Nat.cast_natAbs, abs_of_nonneg (not_lt.mp negative)]
    rw [if_neg negative]
    rwa [value] at exact

theorem fits_zpow {e : ℤ} (low : -1074 ≤ e) (high : e ≤ 971) : Fits (2 ^ e) := by
  have fits := fits_of_lt (n := 1) (by norm_num) low high
  rwa [Int.cast_one, one_mul] at fits

/-- **Different doubles have a difference that is not rounded to zero.** -/
theorem rounded_sub_pos (hp : Fits p) (hq : Fits q) (h : p < q) : 0 < rounded (q - p) := by
  obtain ⟨z, rfl⟩ := hp.exists_multiple (.inl le_rfl)
  obtain ⟨w, rfl⟩ := hq.exists_multiple (.inl le_rfl)
  have least : Fits (2 ^ (-1074 : ℤ)) := fits_zpow le_rfl (by norm_num)
  have unit : (0 : ℚ) < 2 ^ (-1074 : ℤ) := by positivity
  have apart := add_unit_le unit h
  exact unit.trans_le (le_rounded_of_fits least (by linarith))

/-- A number is below the infinity that the least of no numbers is. -/
theorem Is.lt_infinity (hx : Is x q) : x < 1 / 0 := by
  have endless : (1 / 0 : Float) = pack (.infinity .positive) := by decide +kernel
  show decide ((Float.Model.UnpackedFloat.compare (unpack x) (unpack (1 / 0)) == some .lt) = true)
    = true
  rw [endless, unpack_infinity]
  have exact := hx.exact
  generalize unpack x = u at exact ⊢
  cases exact <;> rfl

/-- It is above the infinity that the greatest of no numbers is. -/
theorem Is.infinity_lt (hx : Is x q) : -1 / 0 < x := by
  have endless : (-1 / 0 : Float) = pack (.infinity .negative) := by decide +kernel
  show decide ((Float.Model.UnpackedFloat.compare (unpack (-1 / 0)) (unpack x) == some .lt) = true)
    = true
  rw [endless, unpack_infinity]
  have exact := hx.exact
  generalize unpack x = u at exact ⊢
  cases exact <;> rfl

theorem Is.le_trans (hx : Is x p) (hy : Is y q) (hz : Is z r) (h : x ≤ y) (h' : y ≤ z) : x ≤ z :=
  (hx.le_iff hz).mpr (((hx.le_iff hy).mp h).trans ((hy.le_iff hz).mp h'))

theorem Is.le_of_lt (hx : Is x p) (hy : Is y q) (h : x < y) : x ≤ y :=
  (hx.le_iff hy).mpr ((hx.lt_iff hy).mp h).le

theorem Is.le_of_not_lt (hx : Is x p) (hy : Is y q) (h : ¬ x < y) : y ≤ x :=
  (hy.le_iff hx).mpr (not_lt.mp fun lt => h ((hx.lt_iff hy).mpr lt))

end Double

namespace Tally

/-- The sum of a slot, zero for a slot that there is not. -/
def sumAt (t : Tally) (slot : ℕ) : Int32 :=
  t.sums[slot]?.getD 0

end Tally

namespace Levels

variable {t : Tally} {v w : Float}

/-! ## 2. One scale -/

/-- Going through words and keeping the greater one comes to the greatest of them. -/
theorem foldl_greater (counts : List UInt32) (most : UInt32) :
    let top := counts.foldl (fun most count => if most < count then count else most) most
    top ∈ most :: counts ∧ ∀ count ∈ most :: counts, count ≤ top := by
  induction counts generalizing most with
  | nil =>
    refine ⟨List.mem_cons_self, fun count h => ?_⟩
    rw [List.mem_singleton.mp h]
    exact UInt32.le_refl _
  | cons count rest ih =>
    rw [List.foldl_cons]
    by_cases greater : most < count
    · obtain ⟨mem, le⟩ := ih count
      rw [if_pos greater]
      refine ⟨List.mem_cons_of_mem _ mem, List.forall_mem_cons.mpr ⟨?_, le⟩⟩
      exact UInt32.le_trans (UInt32.le_of_lt greater) (le count List.mem_cons_self)
    · obtain ⟨mem, le⟩ := ih most
      obtain ⟨first, others⟩ := List.forall_mem_cons.mp le
      rw [if_neg greater]
      refine ⟨?_, List.forall_mem_cons.mpr ⟨first, List.forall_mem_cons.mpr ⟨?_, others⟩⟩⟩
      · exact (List.mem_cons.mp mem).elim (fun same => List.mem_cons.mpr (.inl same))
          fun mem => List.mem_cons_of_mem _ (List.mem_cons_of_mem _ mem)
      · exact UInt32.le_trans (UInt32.not_lt.mp greater) first

/-- **The most visits** are those of some pixel, and no pixel has more. -/
theorem mostVisits_spec (t : Tally) (h : 0 < t.extent.area) :
    (∃ slot < t.extent.area, t.countAt slot = (mostVisits t).toNat) ∧
      ∀ slot, t.countAt slot ≤ (mostVisits t).toNat := by
  obtain ⟨mem, le⟩ := foldl_greater t.counts.toList 0
  rw [Array.foldl_toList] at mem le
  change mostVisits t ∈ _ at mem
  change ∀ count ∈ _, count ≤ mostVisits t at le
  have size : t.counts.size = t.extent.area := t.size_counts
  have counted {slot : ℕ} (hs : slot < t.counts.size) : t.countAt slot = t.counts[slot].toNat := by
    rw [Tally.countAt, Array.getElem?_eq_getElem hs, Option.getD_some]
  constructor
  · rcases List.mem_cons.mp mem with zero | mem
    · -- nothing has been visited, so every pixel will do
      have hs : 0 < t.counts.size := size ▸ h
      have first : t.counts[0] ≤ mostVisits t :=
        le _ (List.mem_cons_of_mem _ (Array.getElem_mem_toList _))
      rw [zero, UInt32.le_iff_toNat_le] at first
      refine ⟨0, h, ?_⟩
      rw [counted hs, zero]
      exact Nat.le_antisymm first (Nat.zero_le _)
    · obtain ⟨slot, hs, same⟩ := List.getElem_of_mem mem
      rw [Array.getElem_toList] at same
      exact ⟨slot, size ▸ hs, by rw [counted hs, same]⟩
  · intro slot
    by_cases hs : slot < t.counts.size
    · rw [counted hs]
      exact UInt32.le_iff_toNat_le.mp (le _ (List.mem_cons_of_mem _ (Array.getElem_mem_toList _)))
    · rw [Tally.countAt, Array.getElem?_eq_none (Nat.le_of_not_lt hs)]
      exact Nat.zero_le _

theorem toNat_weight (count : UInt32) : (weight count).toNat = max (count.toNat - 1) 1 := by
  unfold weight
  by_cases few : count ≤ 1
  · have := UInt32.le_iff_toNat_le.mp few
    rw [if_pos few]
    show 1 = _
    have : (1 : UInt32).toNat = 1 := rfl
    omega
  · have more : 1 ≤ count := UInt32.le_of_lt (UInt32.not_le.mp few)
    have := UInt32.lt_iff_toNat_lt.mp (UInt32.not_le.mp few)
    have : (1 : UInt32).toNat = 1 := rfl
    rw [if_neg few, UInt32.toNat_sub_of_le _ _ more]
    omega

/-- The number that the sum of a pixel comes to on the scale of the most visits: the product and the
    quotient are rounded. -/
def worth (most : UInt32) (sum : Int32) (count : UInt32) : ℚ :=
  rounded (rounded (sum.toInt * most.toNat) / (max (count.toNat - 1) 1 : ℕ))

/-- **A scaled sum is two roundings away from the exact one**, and not too great. -/
theorem is_scale (most : UInt32) (sum : Int32) (count : UInt32) :
    Is (scale most sum count) (worth most sum count) ∧ |worth most sum count| ≤ 2 ^ 63 := by
  have fits : Fits (2 ^ 63) := by
    exact_mod_cast fits_zpow (e := 63) (by norm_num) (by norm_num)
  have low := sum.le_toInt
  have high := sum.toInt_lt
  have exact : Is (Double.ofInt sum.toInt) sum.toInt := is_ofInt (by omega)
  have product : |(sum.toInt * most.toNat : ℚ)| ≤ 2 ^ 63 := by
    have magnitude : |(sum.toInt : ℚ)| ≤ 2 ^ 31 := by
      rw [← Int.cast_abs]
      exact_mod_cast abs_le.mpr ⟨by omega, by omega⟩
    have word : |(most.toNat : ℚ)| ≤ 2 ^ 32 := by
      rw [Nat.abs_cast]
      exact_mod_cast most.toNat_lt.le
    calc |(sum.toInt * most.toNat : ℚ)| = |(sum.toInt : ℚ)| * |(most.toNat : ℚ)| := abs_mul _ _
      _ ≤ 2 ^ 31 * 2 ^ 32 := mul_le_mul magnitude word (abs_nonneg _) (by norm_num)
      _ = 2 ^ 63 := by norm_num
  have whole := exact.mul_rounded (is_word most) (fits.abs_le_greatest product)
  have one_le : (1 : ℚ) ≤ (max (count.toNat - 1) 1 : ℕ) := by exact_mod_cast Nat.le_max_right _ _
  have divisor : Is (weight count).toFloat (max (count.toNat - 1) 1 : ℕ) := by
    rw [← toNat_weight]
    exact is_word _
  have quotient : |rounded (sum.toInt * most.toNat) / (max (count.toNat - 1) 1 : ℕ)| ≤ 2 ^ 63 := by
    rw [abs_div, Nat.abs_cast]
    exact (div_le_self (abs_nonneg _) one_le).trans (abs_rounded_le_of_fits fits product)
  have scaled := whole.div_rounded divisor (by linarith) (fits.abs_le_greatest quotient)
  exact ⟨scaled, abs_rounded_le_of_fits fits quotient⟩

/-! ## 3. Ranges -/

/-- A range that some numbers span: its ends are two of them, and all are between these. -/
structure Range.Spans (r : Range) (values : List Float) : Prop where
  low_mem : r.low ∈ values
  high_mem : r.high ∈ values
  low_le : ∀ v ∈ values, r.low ≤ v
  le_high : ∀ v ∈ values, v ≤ r.high

/-- One number spans the range that has nothing else in it. -/
theorem Range.spans_one {q : ℚ} (hv : Is v q) : (Range.empty.include v).Spans [v] := by
  have low : v < Range.empty.low := hv.lt_infinity
  have high : Range.empty.high < v := hv.infinity_lt
  have only : ∀ w ∈ [v], w ≤ v ∧ v ≤ w := fun w hw => by
    rw [List.mem_singleton.mp hw]
    exact ⟨(hv.le_iff hv).mpr le_rfl, (hv.le_iff hv).mpr le_rfl⟩
  unfold Range.include
  rw [if_pos low, if_pos high]
  exact ⟨List.mem_cons_self, List.mem_cons_self, fun w hw => (only w hw).2,
    fun w hw => (only w hw).1⟩

/-- **A range takes in one more number.** -/
theorem Range.Spans.include {r : Range} {values : List Float} (h : r.Spans values)
    (numbers : ∀ w ∈ values, ∃ q, Is w q) {q : ℚ} (hv : Is v q) :
    (r.include v).Spans (values ++ [v]) := by
  obtain ⟨a, low⟩ := numbers _ h.low_mem
  obtain ⟨b, high⟩ := numbers _ h.high_mem
  have here : v ∈ values ++ [v] := List.mem_append_right _ List.mem_cons_self
  have cases {p : Float → Prop} (old : ∀ w ∈ values, p w) (new : p v) : ∀ w ∈ values ++ [v], p w :=
    List.forall_mem_append.mpr ⟨old, List.forall_mem_singleton.mpr new⟩
  have same := (hv.le_iff hv).mpr le_rfl
  constructor
  · show (if v < r.low then v else r.low) ∈ _
    split
    · exact here
    · exact List.mem_append_left _ h.low_mem
  · show (if r.high < v then v else r.high) ∈ _
    split
    · exact here
    · exact List.mem_append_left _ h.high_mem
  · show ∀ w ∈ _, (if v < r.low then v else r.low) ≤ w
    split <;> rename_i less
    · refine cases (fun w hw => ?_) same
      obtain ⟨c, number⟩ := numbers w hw
      exact hv.le_trans low number (hv.le_of_lt low less) (h.low_le w hw)
    · exact cases h.low_le (hv.le_of_not_lt low less)
  · show ∀ w ∈ _, w ≤ if r.high < v then v else r.high
    split <;> rename_i more
    · refine cases (fun w hw => ?_) same
      obtain ⟨c, number⟩ := numbers w hw
      exact number.le_trans high hv (h.le_high w hw) (high.le_of_lt hv more)
    · exact cases h.le_high (high.le_of_not_lt hv more)

/-- **Some numbers span their range.** -/
theorem spans_of {values : Array Float} (nonempty : 0 < values.size)
    (numbers : ∀ v ∈ values.toList, ∃ q, Is v q) : (Range.of values).Spans values.toList := by
  have folded (l : List Float) (numbers : ∀ v ∈ l, ∃ q, Is v q) (nonempty : l ≠ []) :
      (l.foldl Range.include .empty).Spans l := by
    induction l using List.reverseRecOn with
    | nil => exact absurd rfl nonempty
    | append_singleton l v ih =>
      obtain ⟨old, new⟩ := List.forall_mem_append.mp numbers
      obtain ⟨q, hv⟩ := new v List.mem_cons_self
      rw [List.foldl_append]
      rcases eq_or_ne l [] with rfl | more
      · exact Range.spans_one hv
      · exact (ih old more).include old hv
  unfold Range.of
  rw [← Array.foldl_toList]
  exact folded _ numbers (List.length_pos_iff.mp (by rwa [Array.length_toList]))

/-! ## 4. Shares of a range -/

/-- How far a number is on its way from `a` to `b`, in steps of which there are 255, after each
    operation has been rounded. -/
def share (a b q : ℚ) : ℚ :=
  rounded (rounded (rounded (q - a) / rounded (b - a)) * 255)

section Share

variable {a b q q' : ℚ}

theorem fits_255 : Fits 255 :=
  fits_intCast (n := 255) (by norm_num)

/-- The way as a fraction of the whole one, before that is rounded, -/
theorem quotient_between (low : a ≤ q) (high : q ≤ b) :
    0 ≤ rounded (q - a) / rounded (b - a) ∧ rounded (q - a) / rounded (b - a) ≤ 1 := by
  have way : 0 ≤ rounded (q - a) := rounded_nonneg (by linarith)
  have whole : rounded (q - a) ≤ rounded (b - a) := rounded_mono (by linarith)
  exact ⟨div_nonneg way (way.trans whole), div_le_one_of_le₀ whole (way.trans whole)⟩

/-- and in steps, before those are. -/
theorem product_between (low : a ≤ q) (high : q ≤ b) :
    0 ≤ rounded (rounded (q - a) / rounded (b - a)) * 255 ∧
      rounded (rounded (q - a) / rounded (b - a)) * 255 ≤ 255 := by
  obtain ⟨nonneg, le⟩ := quotient_between low high
  have nonneg := rounded_nonneg nonneg
  have le := rounded_le_of_fits fits_one le
  constructor <;> linarith

theorem share_between (low : a ≤ q) (high : q ≤ b) : 0 ≤ share a b q ∧ share a b q ≤ 255 := by
  obtain ⟨nonneg, le⟩ := product_between low high
  exact ⟨rounded_nonneg nonneg, rounded_le_of_fits fits_255 le⟩

/-- **The share goes up with the number.** -/
theorem share_mono (low : a ≤ q) (h : q ≤ q') (high : q' ≤ b) : share a b q ≤ share a b q' := by
  have span : 0 ≤ rounded (b - a) := rounded_nonneg (by linarith)
  have way : rounded (q - a) ≤ rounded (q' - a) := rounded_mono (by linarith)
  have fraction := rounded_mono (div_le_div_of_nonneg_right way span)
  exact rounded_mono (by linarith)

/-- **From nothing** for the least number, -/
theorem share_low (a b : ℚ) : share a b a = 0 := by
  unfold share
  rw [sub_self, rounded_zero, zero_div, rounded_zero, zero_mul, rounded_zero]

/-- **to everything** for the greatest. -/
theorem share_high (span : rounded (b - a) ≠ 0) : share a b b = 255 := by
  unfold share
  rw [div_self span, rounded_of_fits fits_one, one_mul, rounded_of_fits fits_255]

end Share

/-! ## 5. Levels in a range -/

/-- A range that ends with the numbers `a` and `b`, neither of them too great. -/
structure Range.IsFrom (r : Range) (a b : ℚ) : Prop where
  low : Is r.low a
  high : Is r.high b
  low_small : |a| ≤ 2 ^ 63
  high_small : |b| ≤ 2 ^ 63

/-- How far a number is along a range, in the steps that the levels are of, before it becomes one
    of them. -/
def Range.along (r : Range) (v : Float) : Float :=
  (v - r.low) / (r.high - r.low) * 255

section Level

variable {r : Range} {a b q q' : ℚ}

theorem is_255 : Is 255 255 := by
  have exact := is_literal (x := 255) (n := 255) (by decide +kernel) (by decide)
  exact_mod_cast exact

/-- Ways inside a range are not too long. -/
theorem Range.IsFrom.abs_sub_le (h : r.IsFrom a b) (low : a ≤ q) (le : q ≤ q') (high : q' ≤ b) :
    |q' - q| ≤ greatest := by
  have fits : Fits (2 ^ 64) := by
    exact_mod_cast fits_zpow (e := 64) (by norm_num) (by norm_num)
  have least := neg_le_of_abs_le h.low_small
  have most := le_of_abs_le h.high_small
  exact fits.abs_le_greatest (abs_le.mpr ⟨by linarith, by linarith⟩)

/-- **A range has an extent if its ends are different**, though that is rounded. -/
theorem Range.IsFrom.span (h : r.IsFrom a b) (le : a ≤ b) :
    Is (r.high - r.low) (rounded (b - a)) ∧ (0 < r.high - r.low ↔ a < b) := by
  have span := h.high.sub_rounded h.low (h.abs_sub_le le_rfl le le_rfl)
  have apart : a < b → 0 < rounded (b - a) := rounded_sub_pos h.low.fits h.high.fits
  refine ⟨span, (is_zero.lt_iff span).trans ⟨fun positive => ?_, apart⟩⟩
  refine lt_of_le_of_ne le fun same => ?_
  rw [same, sub_self, rounded_zero] at positive
  exact lt_irrefl _ positive

/-- A number between the ends goes along by its share. -/
theorem Range.IsFrom.along (h : r.IsFrom a b) (hv : Is v q) (low : a ≤ q) (high : q ≤ b)
    (lt : a < b) : Is (r.along v) (share a b q) := by
  have way := hv.sub_rounded h.low (h.abs_sub_le le_rfl low high)
  have span := rounded_sub_pos h.low.fits h.high.fits lt
  obtain ⟨nonneg, le⟩ := quotient_between low high
  have divided := way.div_rounded (h.span lt.le).1 span.ne'
    (fits_one.abs_le_greatest (abs_le.mpr ⟨by linarith, le⟩))
  obtain ⟨nonneg, le⟩ := product_between low high
  exact divided.mul_rounded is_255 (fits_255.abs_le_greatest (abs_le.mpr ⟨by linarith, le⟩))

/-- The byte that is nearest to a share. -/
def ofShare (q : ℚ) : UInt8 :=
  .ofNat (away q).toNat

/-- **The byte is the nearest whole number**: nothing has to be held back to make a byte of it. -/
theorem toNat_ofShare (low : 0 ≤ q) (high : q ≤ 255) : ((ofShare q).toNat : ℤ) = away q := by
  have least : 0 ≤ away q := by
    have := away_mono low
    rwa [show away (0 : ℚ) = 0 from away_intCast 0] at this
  have most : away q ≤ 255 := by
    have := away_mono high
    rwa [show away (255 : ℚ) = 255 from away_intCast 255] at this
  unfold ofShare
  rw [UInt8.toNat_ofNat_of_lt' (by show _ < 256; omega)]
  exact Int.toNat_of_nonneg least

theorem ofShare_mono (low : 0 ≤ q) (h : q ≤ q') (high : q' ≤ 255) : ofShare q ≤ ofShare q' := by
  have le := away_mono h
  rw [← toNat_ofShare low (h.trans high), ← toNat_ofShare (low.trans h) high] at le
  exact UInt8.le_iff_toNat_le.mpr (by exact_mod_cast le)

/-- A byte is its own nearest one. -/
theorem ofShare_byte (n : UInt8) : ofShare n.toNat = n := by
  unfold ofShare
  rw [← Int.cast_natCast, away_intCast, Int.toNat_natCast, UInt8.ofNat_toNat]

/-- **The level of a number in a range**: the byte that is nearest to its share, or middle grey
    where there is no range. -/
theorem Range.IsFrom.level_eq (h : r.IsFrom a b) (hv : Is v q) (low : a ≤ q) (high : q ≤ b) :
    level r v = if a < b then ofShare (share a b q) else flat := by
  obtain ⟨-, wide⟩ := h.span (low.trans high)
  unfold level
  dsimp only
  by_cases lt : a < b
  · obtain ⟨least, most⟩ := share_between low high
    have byte := toNat_ofShare least most
    have cut : Double.truncate (Double.round (r.along v)) = away (share a b q) := by
      refine (h.along hv low high lt).round.truncate ?_
      have := (ofShare (share a b q)).toNat_lt
      omega
    have held : Double.toInt 0 255 (Double.round (r.along v)) = away (share a b q) := by
      have := (ofShare (share a b q)).toNat_lt
      unfold Double.toInt
      rw [cut]
      omega
    rw [if_pos (wide.mpr lt), if_pos lt]
    exact congrArg (fun n : ℤ => UInt8.ofNat n.toNat) held
  · rw [if_neg fun pos => lt (wide.mp pos), if_neg lt]

end Level

/-! ## 6. Depth maps -/

/-- The scaled sum of a slot. -/
def valueAt (t : Tally) (slot : ℕ) : Float :=
  scale (mostVisits t) (t.sumAt slot) (t.counts[slot]?.getD 0)

/-- The number that it is. -/
def worthAt (t : Tally) (slot : ℕ) : ℚ :=
  worth (mostVisits t) (t.sumAt slot) (t.counts[slot]?.getD 0)

theorem is_valueAt (t : Tally) (slot : ℕ) :
    Is (valueAt t slot) (worthAt t slot) ∧ |worthAt t slot| ≤ 2 ^ 63 :=
  is_scale _ _ _

theorem worthAt_le_iff {i j : ℕ} : worthAt t i ≤ worthAt t j ↔ valueAt t i ≤ valueAt t j :=
  ((is_valueAt t i).1.le_iff (is_valueAt t j).1).symm

theorem getElem?_scaled {slot : ℕ} (h : slot < t.extent.area) :
    (scaled t)[slot]? = some (valueAt t slot) := by
  have hs : slot < t.sums.size := t.size_sums.symm ▸ h
  have hc : slot < t.counts.size := t.size_counts.symm ▸ h
  unfold scaled valueAt Tally.sumAt
  dsimp only
  rw [Array.getElem?_zipWith, Array.getElem?_eq_getElem hs, Array.getElem?_eq_getElem hc]
  rfl

theorem mem_scaled : v ∈ (scaled t).toList ↔ ∃ slot < t.extent.area, valueAt t slot = v := by
  rw [Array.mem_toList_iff, Array.mem_iff_getElem?]
  constructor
  · rintro ⟨slot, here⟩
    have hs : slot < t.extent.area := by
      rw [← size_scaled t]
      exact (Array.getElem?_eq_some_iff.mp here).1
    rw [getElem?_scaled hs] at here
    exact ⟨slot, hs, Option.some.inj here⟩
  · rintro ⟨slot, hs, rfl⟩
    exact ⟨slot, getElem?_scaled hs⟩

/-- **The range of a tally** is that from the least of its scaled sums to the greatest. -/
theorem isFrom_scaled (h : 0 < t.extent.area) :
    ∃ least < t.extent.area, ∃ greatest < t.extent.area,
      (Range.of (scaled t)).IsFrom (worthAt t least) (worthAt t greatest) ∧
        ∀ slot < t.extent.area,
          worthAt t least ≤ worthAt t slot ∧ worthAt t slot ≤ worthAt t greatest := by
  have number (slot : ℕ) := (is_valueAt t slot).1
  have numbers (v : Float) (hv : v ∈ (scaled t).toList) : ∃ q, Is v q := by
    obtain ⟨slot, -, rfl⟩ := mem_scaled.mp hv
    exact ⟨_, number slot⟩
  obtain ⟨low, high, low_le, le_high⟩ := spans_of (by rwa [size_scaled]) numbers
  obtain ⟨i, hi, low⟩ := mem_scaled.mp low
  obtain ⟨j, hj, high⟩ := mem_scaled.mp high
  rw [← low] at low_le
  rw [← high] at le_high
  refine ⟨i, hi, j, hj, ⟨low ▸ number i, high ▸ number j, (is_valueAt t i).2, (is_valueAt t j).2⟩,
    fun slot hs => ?_⟩
  have mem := mem_scaled.mpr ⟨slot, hs, rfl⟩
  exact ⟨worthAt_le_iff.mpr (low_le _ mem), worthAt_le_iff.mpr (le_high _ mem)⟩

/-- The grey level of a slot. -/
def levelAt (t : Tally) (slot : ℕ) : UInt8 :=
  level (.of (scaled t)) (valueAt t slot)

theorem getElem?_image {slot : ℕ} (h : slot < t.extent.area) :
    (image t).pixels[slot]? = some (.grey (levelAt t slot)) := by
  unfold image levelAt
  dsimp only
  rw [Array.getElem?_map, getElem?_scaled h]
  rfl

theorem levelAt_eq {a b : ℚ} {slot : ℕ} (range : (Range.of (scaled t)).IsFrom a b)
    (between : a ≤ worthAt t slot ∧ worthAt t slot ≤ b) :
    levelAt t slot = if a < b then ofShare (share a b (worthAt t slot)) else flat :=
  range.level_eq (is_valueAt t slot).1 between.1 between.2

/-- **The levels go up with the scaled sums.** -/
theorem levelAt_mono {i j : ℕ} (hi : i < t.extent.area) (hj : j < t.extent.area)
    (le : worthAt t i ≤ worthAt t j) : levelAt t i ≤ levelAt t j := by
  obtain ⟨_, -, _, -, range, between⟩ := isFrom_scaled (Nat.zero_lt_of_lt hi)
  rw [levelAt_eq range (between i hi), levelAt_eq range (between j hj)]
  split
  · exact ofShare_mono (share_between (between i hi).1 (between i hi).2).1
      (share_mono (between i hi).1 le (between j hj).2)
      (share_between (between j hj).1 (between j hj).2).2
  · exact UInt8.le_refl _

/-- **Where they are not all alike, black is the least and white the greatest.** -/
theorem levelAt_ends
    (different : ∃ i < t.extent.area, ∃ j < t.extent.area, worthAt t i ≠ worthAt t j) :
    0 < (Range.of (scaled t)).high - (Range.of (scaled t)).low ∧
    ∀ slot < t.extent.area,
      ((∀ i < t.extent.area, worthAt t slot ≤ worthAt t i) → levelAt t slot = 0) ∧
      ((∀ i < t.extent.area, worthAt t i ≤ worthAt t slot) → levelAt t slot = 255) := by
  obtain ⟨k, hk, l, hl, different⟩ := different
  obtain ⟨i, hi, j, hj, range, between⟩ := isFrom_scaled (Nat.zero_lt_of_lt hk)
  have lt : worthAt t i < worthAt t j := by
    refine lt_of_le_of_ne (between i hi).2 fun same => different ?_
    linarith [between k hk, between l hl]
  refine ⟨(range.span lt.le).2.mpr lt, fun slot hs => ⟨fun least => ?_, fun most => ?_⟩⟩
  · have same : worthAt t slot = worthAt t i := le_antisymm (least i hi) (between slot hs).1
    rw [levelAt_eq range (between slot hs), if_pos lt, same, share_low]
    exact ofShare_byte 0
  · have same : worthAt t slot = worthAt t j := le_antisymm (between slot hs).2 (most j hj)
    have span := rounded_sub_pos range.low.fits range.high.fits lt
    rw [levelAt_eq range (between slot hs), if_pos lt, same, share_high span.ne']
    exact ofShare_byte 255

/-- **Where all are alike, the map is a middle grey.** -/
theorem levelAt_of_alike (h : ∀ i < t.extent.area, ∀ j < t.extent.area, worthAt t i = worthAt t j)
    {slot : ℕ} (hs : slot < t.extent.area) : levelAt t slot = flat := by
  obtain ⟨i, hi, j, hj, range, between⟩ := isFrom_scaled (Nat.zero_lt_of_lt hs)
  rw [levelAt_eq range (between slot hs), if_neg (h i hi j hj).not_lt]

/-- **Where they are not all alike, the map has both ends of the range.** -/
theorem mem_image_of_different
    (different : ∃ i < t.extent.area, ∃ j < t.extent.area, worthAt t i ≠ worthAt t j) :
    .grey 0 ∈ (image t).pixels ∧ .grey 255 ∈ (image t).pixels := by
  obtain ⟨k, hk, -⟩ := id different
  obtain ⟨least, hl, greatest, hg, -, between⟩ := isFrom_scaled (Nat.zero_lt_of_lt hk)
  obtain ⟨-, ends⟩ := levelAt_ends different
  have black := getElem?_image hl
  have white := getElem?_image hg
  rw [(ends least hl).1 fun i hi => (between i hi).1] at black
  rw [(ends greatest hg).2 fun i hi => (between i hi).2] at white
  exact ⟨Array.mem_of_getElem? black, Array.mem_of_getElem? white⟩

/-- So a map is a middle grey exactly where they are all alike. -/
theorem forall_image_flat_iff :
    (∀ p ∈ (image t).pixels, p = .grey flat) ↔
      ∀ i < t.extent.area, ∀ j < t.extent.area, worthAt t i = worthAt t j := by
  constructor
  · intro grey i hi j hj
    by_contra different
    have black := (mem_image_of_different ⟨i, hi, j, hj, different⟩).1
    exact absurd (grey _ black) (by decide)
  · intro alike p mem
    obtain ⟨slot, here⟩ := Array.mem_iff_getElem?.mp mem
    have hs : slot < t.extent.area := by
      have inside := (Array.getElem?_eq_some_iff.mp here).1
      rwa [(image t).size_pixels] at inside
    rw [getElem?_image hs, levelAt_of_alike alike hs] at here
    exact (Option.some.inj here).symm

/-- **What becomes a byte is one already**: a whole number from 0 to 255. -/
theorem is_round_along {slot : ℕ} (hs : slot < t.extent.area)
    (wide : 0 < (Range.of (scaled t)).high - (Range.of (scaled t)).low) :
    (∃ q, Is ((Range.of (scaled t)).along (valueAt t slot)) q ∧ 0 ≤ q ∧ q ≤ 255) ∧
      Is (Double.round ((Range.of (scaled t)).along (valueAt t slot))) (levelAt t slot).toNat := by
  obtain ⟨i, hi, j, hj, range, between⟩ := isFrom_scaled (Nat.zero_lt_of_lt hs)
  obtain ⟨low, high⟩ := between slot hs
  have lt := (range.span (low.trans high)).2.mp wide
  have along := range.along (is_valueAt t slot).1 low high lt
  obtain ⟨least, most⟩ := share_between low high
  have byte := toNat_ofShare least most
  have level := levelAt_eq range ⟨low, high⟩
  rw [if_pos lt] at level
  rw [← level] at byte
  refine ⟨⟨_, along, least, most⟩, ?_⟩
  have rounded := along.round
  rwa [← byte, Int.cast_natCast] at rounded

/-- **The depth map of a tally with pixels spreads the scaled sums over the grey levels.** The sums
    are brought to the scale of the most visits, with one rounding for each operation. The levels go
    up with them, from black for the least to white for the greatest, unless all are alike and
    middle grey; and the number that becomes a byte is one already. -/
theorem levels_spread_over_range (t : Tally) (h : 0 < t.extent.area) :
    let made := (course t).result
    let range := Range.of (scaled t)
    made.toExtent = t.extent ∧
    (∀ slot < t.extent.area, made.pixels[slot]? = some (.grey (levelAt t slot))) ∧
    ((∃ slot < t.extent.area, t.countAt slot = (mostVisits t).toNat) ∧
      ∀ slot, t.countAt slot ≤ (mostVisits t).toNat) ∧
    (∀ slot < t.extent.area, ∃ value, (scaled t)[slot]? = some value ∧
      Is value (worthAt t slot) ∧
      worthAt t slot = rounded
        (rounded ((t.sumAt slot).toInt * (mostVisits t).toNat) / (max (t.countAt slot - 1) 1 : ℕ)) ∧
      (0 < range.high - range.low →
        (∃ q, Is ((value - range.low) / (range.high - range.low) * 255) q ∧ 0 ≤ q ∧ q ≤ 255) ∧
        Is (Double.round ((value - range.low) / (range.high - range.low) * 255))
          (levelAt t slot).toNat)) ∧
    (∀ i < t.extent.area, ∀ j < t.extent.area,
      worthAt t i ≤ worthAt t j → levelAt t i ≤ levelAt t j) ∧
    ((∃ i < t.extent.area, ∃ j < t.extent.area, worthAt t i ≠ worthAt t j) →
      0 < range.high - range.low ∧
      ∀ slot < t.extent.area,
        ((∀ i < t.extent.area, worthAt t slot ≤ worthAt t i) → levelAt t slot = 0) ∧
        ((∀ i < t.extent.area, worthAt t i ≤ worthAt t slot) → levelAt t slot = 255)) ∧
    ((∀ i < t.extent.area, ∀ j < t.extent.area, worthAt t i = worthAt t j) →
      ∀ slot < t.extent.area, levelAt t slot = 128) := by
  intro made range
  have same : made = image t := result_course t
  refine ⟨by rw [same, image], fun slot hs => ?_, mostVisits_spec t h, fun slot hs => ?_,
    fun i hi j hj => levelAt_mono hi hj, levelAt_ends, fun alike slot => levelAt_of_alike alike⟩
  · rw [same]
    exact getElem?_image hs
  · exact ⟨_, getElem?_scaled hs, (is_valueAt t slot).1, rfl, is_round_along hs⟩

/-- Four pixels with unequal numbers of visits, one of which has none, in a tally that has
    overflowed. -/
def uneven : Tally where
  extent := ⟨4, 1⟩
  sums := #[7, -5, 0, 3]
  counts := #[2, 4, 0, 1]
  overflowed := true
  size_sums := rfl
  size_counts := rfl

/-- They come to 28, about -6.7, 0 and 12: the first is white, the second is black, and the third is
    not lighter than the fourth. -/
theorem uneven_levels :
    0 < uneven.extent.area ∧ levelAt uneven 0 = 255 ∧ levelAt uneven 1 = 0 ∧
      levelAt uneven 2 ≤ levelAt uneven 3 := by
  have pixels : 0 < uneven.extent.area := by decide
  have greatest : ∀ i < uneven.extent.area, valueAt uneven i ≤ valueAt uneven 0 := by
    decide +kernel
  have least : ∀ i < uneven.extent.area, valueAt uneven 1 ≤ valueAt uneven i := by
    decide +kernel
  have different : ¬ valueAt uneven 0 ≤ valueAt uneven 1 := by decide +kernel
  obtain ⟨-, -, -, -, mono, ends, -⟩ := levels_spread_over_range uneven pixels
  obtain ⟨-, ends⟩ := ends ⟨0, by decide, 1, by decide, fun same => different
    (worthAt_le_iff.mp same.le)⟩
  exact ⟨pixels, (ends 0 (by decide)).2 fun i hi => worthAt_le_iff.mpr (greatest i hi),
    (ends 1 (by decide)).1 fun i hi => worthAt_le_iff.mpr (least i hi),
    mono 2 (by decide) 3 (by decide) (worthAt_le_iff.mpr (by decide +kernel))⟩

end Levels

end Relief
