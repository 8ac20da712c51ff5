import Relief.Depth.Sweep
import Relief.Proofs.Number.Conversions
import Relief.Proofs.Number.Doubles
import Relief.Proofs.Number.Rounding

/-!
# The azimuths of all sweeps

The circle is refined by halves, and the azimuths that come about are the same for every image. The
pair of number zero is the half turn, and on the level `r` there are `2 ^ r` more of them between
those that there have been before.

* `azimuth`, `azimuth_eq`: the azimuth of a pair, and its number on its level;
* `azimuth_injective`: **no azimuth comes twice**;
* `degrees`, `is_degrees`: **all of them are numbers of double precision**;
* `pair`, `opposite_mem_pair`: the two headings of a pair, which are opposite;
* `nodup_pairs`: **all headings of the first pairs are distinct**.
-/

namespace Relief

open Double (Is Fits)

/-! ## 1. Wrapping angles -/

namespace Heading

variable {x y : Float} {q : ℚ}

theorem is_turn : Is 360 360 := by
  have exact := Double.is_literal (x := 360) (n := 360) (by decide +kernel) (by decide)
  exact_mod_cast exact

/-- **Angles are wrapped into one turn exactly.** -/
theorem is_ofDegrees (hx : Is x q) (low : 0 ≤ q) :
    Is (ofDegrees x).degrees (q - 360 * ⌊q / 360⌋₊) := by
  have rest := hx.remainder (n := 360) low (by norm_num) (by norm_num)
  have positive : 0 ≤ q - (360 : ℕ) * ⌊q / (360 : ℕ)⌋₊ := by
    have := Nat.floor_le (div_nonneg low (Nat.cast_nonneg 360))
    rw [le_div_iff₀ (by norm_num)] at this
    linarith
  have upright : ¬ Double.remainder x 360 < 0 := fun below =>
    ((rest.lt_iff Double.is_zero).mp below).not_ge positive
  unfold ofDegrees
  dsimp only
  rw [if_neg upright]
  exact_mod_cast rest

/-- An angle below a whole turn is left as it is. -/
theorem ofDegrees_of_lt (hx : Is x q) (pos : 0 < q) (lt : q < 360) : ofDegrees x = ⟨x⟩ := by
  have wrapped := is_ofDegrees hx pos.le
  have within : ⌊q / 360⌋₊ = 0 := Nat.floor_eq_zero.mpr ((div_lt_one (by norm_num)).mpr lt)
  rw [within, Nat.cast_zero, mul_zero, sub_zero] at wrapped
  exact congrArg Heading.mk (wrapped.unique hx pos.ne')

/-- An angle of more than one turn loses the turn. -/
theorem ofDegrees_of_turn (hx : Is x (q + 360)) (hy : Is y q) (pos : 0 < q) (lt : q < 360) :
    ofDegrees x = ⟨y⟩ := by
  have wrapped := is_ofDegrees hx (by linarith)
  have once : ⌊(q + 360) / 360⌋₊ = 1 := by
    rw [Nat.floor_eq_iff (by positivity)]
    constructor
    · rw [le_div_iff₀ (by norm_num)]
      norm_num
      exact pos.le
    · rw [div_lt_iff₀ (by norm_num)]
      norm_num
      linarith
  rw [once, Nat.cast_one, mul_one, add_sub_cancel_right] at wrapped
  exact congrArg Heading.mk (wrapped.unique hy pos.ne')

end Heading

namespace Sweep

/-! ## 2. The sequence -/

/-- The azimuth of a pair in degrees. A pair of the level `r` has a number from `2 ^ r` on. -/
def azimuth (n : ℕ) : ℚ :=
  if n = 0 then 0 else (2 * (n - 2 ^ n.log2 : ℕ) + 1) * 90 / 2 ^ n.log2

theorem log2_pair {r j : ℕ} (hj : j < 2 ^ r) : (2 ^ r + j).log2 = r :=
  (Nat.log2_eq_iff (by positivity)).mpr ⟨by omega, by rw [pow_succ]; omega⟩

/-- Every pair but the first has a place on a level. -/
theorem exists_pair {n : ℕ} (hn : n ≠ 0) : ∃ r j, j < 2 ^ r ∧ n = 2 ^ r + j := by
  have low := Nat.log2_self_le hn
  have high : n < 2 ^ (n.log2 + 1) := Nat.lt_log2_self
  rw [pow_succ] at high
  exact ⟨n.log2, n - 2 ^ n.log2, by omega, by omega⟩

/-- **The azimuths of a level are the odd multiples of its step.** -/
theorem azimuth_eq {r j : ℕ} (hj : j < 2 ^ r) : azimuth (2 ^ r + j) = (2 * j + 1) * 90 / 2 ^ r := by
  unfold azimuth
  rw [if_neg (by positivity), log2_pair hj, Nat.add_sub_cancel_left]

theorem azimuth_pos {n : ℕ} (hn : n ≠ 0) : 0 < azimuth n := by
  obtain ⟨r, j, hj, rfl⟩ := exists_pair hn
  rw [azimuth_eq hj]
  positivity

theorem azimuth_nonneg (n : ℕ) : 0 ≤ azimuth n := by
  rcases eq_or_ne n 0 with rfl | hn
  · exact le_rfl
  · exact (azimuth_pos hn).le

theorem azimuth_lt (n : ℕ) : azimuth n < 180 := by
  rcases eq_or_ne n 0 with rfl | hn
  · norm_num [azimuth]
  · obtain ⟨r, j, hj, rfl⟩ := exists_pair hn
    have below : (j : ℚ) + 1 ≤ 2 ^ r := by exact_mod_cast hj
    rw [azimuth_eq hj, div_lt_iff₀ (by positivity)]
    linarith

/-- Odd multiples of halves of two levels are distinct, as the finer ones are halved once more. -/
theorem level_eq {r s j i : ℕ} (h : (2 * j + 1) * 2 ^ s = (2 * i + 1) * 2 ^ r) (le : r ≤ s) :
    r = s := by
  obtain ⟨d, rfl⟩ := Nat.le.dest le
  rw [pow_add, mul_left_comm, mul_comm (2 * i + 1)] at h
  have odd := Nat.eq_of_mul_eq_mul_left (by positivity) h
  cases d with
  | zero => rfl
  | succ d =>
    rw [pow_succ, ← mul_assoc] at odd
    omega

/-- **No azimuth comes twice.** -/
theorem azimuth_injective : Function.Injective azimuth := by
  intro n m h
  rcases eq_or_ne n 0 with rfl | hn
  · by_contra hm
    exact (azimuth_pos (Ne.symm hm)).ne h
  rcases eq_or_ne m 0 with rfl | hm
  · exact absurd h (azimuth_pos hn).ne'
  obtain ⟨r, j, hj, rfl⟩ := exists_pair hn
  obtain ⟨s, i, hi, rfl⟩ := exists_pair hm
  rw [azimuth_eq hj, azimuth_eq hi, div_eq_div_iff (by positivity) (by positivity)] at h
  have crossed : (2 * j + 1) * 2 ^ s = (2 * i + 1) * 2 ^ r := by
    have scaled : ((2 * j + 1) * 2 ^ s : ℚ) = (2 * i + 1) * 2 ^ r := by linarith
    exact_mod_cast scaled
  obtain rfl : r = s :=
    (le_total r s).elim (level_eq crossed) fun le => (level_eq crossed.symm le).symm
  have := Nat.eq_of_mul_eq_mul_right (by positivity) crossed
  omega

/-! ## 3. Its numbers -/

/-- The azimuth of a pair as a multiple of a power of two. -/
def numerator (n : ℕ) : ℕ :=
  if n = 0 then 0 else (2 * (n - 2 ^ n.log2) + 1) * 45

/-- The azimuth of a pair in double precision. -/
def degrees (n : ℕ) : Float :=
  Double.nearest .positive (numerator n) (1 - n.log2)

theorem azimuth_eq_numerator (n : ℕ) : azimuth n = numerator n * 2 ^ (1 - n.log2 : ℤ) := by
  unfold azimuth numerator
  rw [zpow_sub₀ two_ne_zero, zpow_one, zpow_natCast]
  split
  · rw [Nat.cast_zero, zero_mul]
  · push_cast
    ring

theorem log2_lt {n : ℕ} (hn : n < 2 ^ 32) : n.log2 < 32 := by
  rcases Nat.eq_zero_or_pos n with rfl | pos
  · norm_num
  · exact (Nat.log2_lt pos.ne').mpr hn

theorem numerator_lt {n : ℕ} (hn : n < 2 ^ 32) : numerator n < 2 ^ 40 := by
  have := Nat.sub_le n (2 ^ n.log2)
  unfold numerator
  generalize n - 2 ^ n.log2 = place at *
  split <;> omega

/-- The two headings of a pair. -/
def pair (n : ℕ) : List Heading :=
  [⟨degrees n⟩, ⟨degrees n + 180⟩]

theorem degrees_zero : degrees 0 = 0 := by
  decide +kernel

theorem is_half_turn : Is 180 180 := by
  have exact := Double.is_literal (x := 180) (n := 180) (by decide +kernel) (by decide)
  exact_mod_cast exact

section Exact

variable {n : ℕ} (hn : n < 2 ^ 32)
include hn

/-- **The azimuths are numbers of double precision.** -/
theorem is_degrees : Is (degrees n) (azimuth n) := by
  have := log2_lt hn
  have := numerator_lt hn
  have fits : Fits (((numerator n : ℤ) : ℚ) * 2 ^ (1 - n.log2 : ℤ)) :=
    Double.fits_of_lt (by omega) (by omega) (by omega)
  rw [azimuth_eq_numerator]
  exact Double.is_nearest_of_fits .positive (by exact_mod_cast fits)

/-- So are they after some half turns. -/
theorem fits_azimuth_add {k : ℕ} (hk : k ≤ 2) : Fits (azimuth n + 180 * k) := by
  have small := log2_lt hn
  have := numerator_lt hn
  have level : 2 ^ n.log2 ≤ 2 ^ 32 := Nat.pow_le_pow_right two_pos small.le
  have value : azimuth n + 180 * k
      = ((numerator n + 90 * k * 2 ^ n.log2 : ℕ) : ℤ) * 2 ^ (1 - n.log2 : ℤ) := by
    rw [azimuth_eq_numerator, zpow_sub₀ two_ne_zero, zpow_one, zpow_natCast]
    push_cast
    field_simp
    ring
  have short : 90 * k * 2 ^ n.log2 ≤ 90 * 2 * 2 ^ 32 :=
    Nat.mul_le_mul (Nat.mul_le_mul_left 90 hk) level
  rw [value]
  exact Double.fits_of_lt (by omega) (by omega) (by omega)

/-- So are the opposite ones. -/
theorem is_degrees_add_180 : Is (degrees n + 180) (azimuth n + 180) :=
  (is_degrees hn).add is_half_turn (by simpa using fits_azimuth_add hn (k := 1) (by norm_num))

/-! ## 4. Pairs -/

/-- An azimuth is within one turn. -/
theorem ofDegrees_degrees : Heading.ofDegrees (degrees n) = ⟨degrees n⟩ := by
  rcases eq_or_ne n 0 with rfl | nonzero
  · rw [degrees_zero]
    exact congrArg Heading.mk (by decide +kernel)
  · exact Heading.ofDegrees_of_lt (is_degrees hn) (azimuth_pos nonzero)
      (by linarith [azimuth_lt n])

/-- So is the opposite one. -/
theorem ofDegrees_degrees_add : Heading.ofDegrees (degrees n + 180) = ⟨degrees n + 180⟩ :=
  Heading.ofDegrees_of_lt (is_degrees_add_180 hn) (by linarith [azimuth_nonneg n])
    (by linarith [azimuth_lt n])

/-- After a whole turn it is the azimuth again. -/
theorem ofDegrees_degrees_turn : Heading.ofDegrees (degrees n + 180 + 180) = ⟨degrees n⟩ := by
  rcases eq_or_ne n 0 with rfl | nonzero
  · rw [degrees_zero]
    exact congrArg Heading.mk (by decide +kernel)
  · have value : azimuth n + 180 + 180 = azimuth n + 360 := by ring
    have turned : Is (degrees n + 180 + 180) (azimuth n + 360) := by
      rw [← value]
      refine (is_degrees_add_180 hn).add is_half_turn ?_
      have fits := fits_azimuth_add hn (k := 2) le_rfl
      rw [value]
      norm_num at fits
      exact fits
    exact Heading.ofDegrees_of_turn turned (is_degrees hn) (azimuth_pos nonzero)
      (by linarith [azimuth_lt n])

/-- **The headings of a pair are opposite.** -/
theorem opposite_mem_pair {h : Heading} (mem : h ∈ pair n) : h.opposite ∈ pair n := by
  unfold Heading.opposite
  simp only [pair, List.mem_cons, List.not_mem_nil, or_false] at mem ⊢
  rcases mem with rfl | rfl
  · exact .inr (ofDegrees_degrees_add hn)
  · exact .inl (ofDegrees_degrees_turn hn)

/-- What the degrees of a heading of a pair are. -/
theorem is_of_mem_pair {h : Heading} (mem : h ∈ pair n) :
    Is h.degrees (azimuth n) ∨ Is h.degrees (azimuth n + 180) := by
  simp only [pair, List.mem_cons, List.not_mem_nil, or_false] at mem
  rcases mem with rfl | rfl
  · exact .inl (is_degrees hn)
  · exact .inr (is_degrees_add_180 hn)

end Exact

/-- A heading belongs to one pair only. -/
theorem pair_disjoint {n m : ℕ} (hn : n < 2 ^ 32) (hm : m < 2 ^ 32) {h : Heading} (mem : h ∈ pair n)
    (mem' : h ∈ pair m) : n = m := by
  have := azimuth_nonneg n
  have := azimuth_nonneg m
  have := azimuth_lt n
  have := azimuth_lt m
  refine azimuth_injective ?_
  rcases is_of_mem_pair hn mem with a | a <;> rcases is_of_mem_pair hm mem' with b | b <;>
    linarith [a.value.symm.trans b.value]

/-- **The headings of the first pairs are distinct.** -/
theorem nodup_pairs {count : ℕ} (small : count ≤ 2 ^ 32) :
    ((List.range count).flatMap pair).Nodup := by
  refine List.nodup_flatMap.mpr ⟨fun n mem => ?_, ?_⟩
  · have hn : n < 2 ^ 32 := (List.mem_range.mp mem).trans_le small
    refine List.nodup_cons.mpr ⟨fun same => ?_, List.nodup_singleton _⟩
    have equal : degrees n = degrees n + 180 := by simpa using same
    have turned := is_degrees_add_180 hn
    rw [← equal] at turned
    linarith [(is_degrees hn).value.symm.trans turned.value]
  · refine List.pairwise_lt_range.imp_of_mem fun {n m} hn hm lt h mem mem' => lt.ne ?_
    exact pair_disjoint ((List.mem_range.mp hn).trans_le small)
      ((List.mem_range.mp hm).trans_le small) mem mem'

end Sweep

end Relief
