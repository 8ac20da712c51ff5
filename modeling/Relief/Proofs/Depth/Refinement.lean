import Relief.Proofs.Depth.Azimuths

/-!
# Plans

Planning a sweep refines the circle until there are headings enough. Three conditions can end it, an
azimuth that is already there is left out, and all of it is decided in double precision. Still every
plan is the beginning of one sequence of pairs, and has as many headings as are wanted.

* `Draft.Levels`, `Draft.Refines`: the two loops, which take as many steps as they take;
* `Draft.Holds`: the invariant: the first pairs have been planned, and nothing else;
* `Draft.levels_hold`, `Draft.refine_holds`: **both loops keep it and stop at the target**;
* `clamped`, `target_eq`: how many headings are wanted;
* `plan_is_first_pairs`: **the exact shape of every plan**.
-/

namespace Relief.Sweep

open Double (Is Fits rounded)

/-! ## 1. The loops -/

namespace Draft

/-- The loop over a level from an odd multiple of its step on. -/
inductive Levels (target : ℕ) (step : Float) : UInt32 → Draft → Draft → Prop where
  | stop (k : UInt32) (d : Draft) (h : ¬ (k.toFloat * step < 180 ∧ d.size < target)) :
      Levels target step k d d
  | next {k : UInt32} {d d' : Draft} (h : k.toFloat * step < 180 ∧ d.size < target)
      (rest : Levels target step (k + 2) (d.addPair (k.toFloat * step)) d') :
      Levels target step k d d'

/-- The loop over all levels. -/
inductive Refines (target : ℕ) (finest : Float) : Float → Draft → Draft → Prop where
  | stop (step : Float) (d : Draft) (h : ¬ (d.size < target ∧ finest ≤ step)) :
      Refines target finest step d d
  | next {step : Float} {d d' d'' : Draft} (h : d.size < target ∧ finest ≤ step)
      (level : Levels target (step / 2) 1 d d') (rest : Refines target finest (step / 2) d' d'') :
      Refines target finest step d d''

/-! ## 2. The invariant -/

/-- The first pairs have been planned, and nothing else. -/
structure Holds (d : Draft) (n : ℕ) : Prop where
  planned : ∀ bits, d.planned.contains bits = true → ∃ m < n, bits = (degrees m).toBits
  headings : d.reversed.reverse = (List.range n).flatMap pair
  size : d.size = 2 * n

theorem holds_empty : empty.Holds 0 where
  planned bits h := by simp [empty] at h
  headings := rfl
  size := rfl

variable {d : Draft} {n : ℕ}

/-- The next azimuth has not been planned. -/
theorem Holds.not_contains (h : d.Holds n) (hn : n < 2 ^ 32) :
    d.planned.contains (degrees n).toBits = false := by
  rw [← Bool.not_eq_true]
  intro present
  obtain ⟨m, hm, bits⟩ := h.planned _ present
  have same : degrees n = degrees m := Float.toBits_inj.mp bits
  have value := (is_degrees hn).value
  rw [same, (is_degrees (hm.trans hn)).value] at value
  exact hm.ne (azimuth_injective value)

/-- **Planning the next azimuth plans the next pair.** -/
theorem Holds.addPair (h : d.Holds n) (hn : n < 2 ^ 32) :
    (d.addPair (degrees n)).Holds (n + 1) := by
  unfold Draft.addPair
  rw [h.not_contains hn, if_neg Bool.false_ne_true]
  refine ⟨fun bits present => ?_, ?_, ?_⟩
  · rw [Std.HashSet.contains_insert, Bool.or_eq_true, beq_iff_eq] at present
    rcases present with rfl | before
    · exact ⟨n, Nat.lt_succ_self n, rfl⟩
    · obtain ⟨m, hm, same⟩ := h.planned bits before
      exact ⟨m, Nat.lt_succ_of_lt hm, same⟩
  · show (_ :: _ :: d.reversed).reverse = _
    rw [List.reverse_cons, List.reverse_cons, h.headings, ofDegrees_degrees hn,
      ofDegrees_degrees_add hn, List.range_succ, List.flatMap_append, List.append_assoc]
    simp [pair]
  · show d.size + 2 = 2 * (n + 1)
    rw [h.size]
    ring

/-! ## 3. One level -/

variable {half r j : ℕ} {k : UInt32} {step : Float}

/-- An odd multiple of the step of a level. -/
theorem is_multiple (hs : Is step (180 / 2 ^ (r + 1))) (hr : r ≤ 32) (hk : k.toNat = 2 * j + 1) :
    Is (k.toFloat * step) ((2 * j + 1) * 90 / 2 ^ r) := by
  have word := Double.is_word k
  have lt := k.toNat_lt
  rw [hk] at word
  have value : ((2 * j + 1 : ℕ) : ℚ) * (180 / 2 ^ (r + 1)) = (2 * j + 1) * 90 / 2 ^ r := by
    rw [pow_succ]
    push_cast
    field_simp
    ring
  have dyadic : (2 * j + 1) * 90 / 2 ^ r = ((2 * j + 1) * 90 : ℤ) * (2 : ℚ) ^ (-(r : ℤ)) := by
    rw [zpow_neg, zpow_natCast]
    push_cast
    rw [div_eq_mul_inv]
  rw [← value]
  refine word.mul hs ?_
  rw [value, dyadic]
  exact Double.fits_of_lt (by omega) (by omega) (by omega)

/-- The loop over a level goes on as long as there are azimuths on it and pairs are wanted. -/
theorem Holds.goes_on_iff (h : d.Holds (2 ^ r + j)) (hs : Is step (180 / 2 ^ (r + 1)))
    (hr : r ≤ 32) (hk : k.toNat = 2 * j + 1) :
    (k.toFloat * step < 180 ∧ d.size < 2 * half) ↔ j < 2 ^ r ∧ 2 ^ r + j < half := by
  rw [(is_multiple hs hr hk).lt_iff is_half_turn, h.size, div_lt_iff₀ (by positivity)]
  have below : (2 * (j : ℚ) + 1) * 90 < 180 * 2 ^ r ↔ j < 2 ^ r := by
    have scaled : (2 * (j : ℚ) + 1) * 90 < 180 * 2 ^ r
        ↔ ((2 * j + 1 : ℕ) : ℚ) < (2 * 2 ^ r : ℕ) := by
      push_cast
      constructor <;> intro h <;> linarith
    rw [scaled, Nat.cast_lt]
    omega
  rw [below]
  omega

/-- Where it does not go on, the level is full or the pairs are all there. -/
theorem Holds.last (h : d.Holds (2 ^ r + j)) (hj : j ≤ 2 ^ r) (hn : 2 ^ r + j ≤ half)
    (full : ¬ (j < 2 ^ r ∧ 2 ^ r + j < half)) : d.Holds (min half (2 ^ (r + 1))) := by
  have double : 2 ^ (r + 1) = 2 * 2 ^ r := by ring
  have count : 2 ^ r + j = min half (2 ^ (r + 1)) := by omega
  exact count ▸ h

/-- **The loop over a level plans what is left of it**, as far as pairs are wanted. -/
theorem levels_hold (small : half < 2 ^ 32) (hs : Is step (180 / 2 ^ (r + 1))) (hr : r ≤ 32)
    (fuel : ℕ) (h : d.Holds (2 ^ r + j)) (hj : j ≤ 2 ^ r) (hn : 2 ^ r + j ≤ half)
    (hk : k.toNat = 2 * j + 1) (enough : min half (2 ^ (r + 1)) ≤ 2 ^ r + j + fuel) :
    ∃ d', Levels (2 * half) step k d d' ∧ d'.Holds (min half (2 ^ (r + 1))) ∧
      addLevel (2 * half) step fuel k d = d' := by
  induction fuel generalizing j k d with
  | zero =>
    have double : 2 ^ (r + 1) = 2 * 2 ^ r := by ring
    have full : ¬ (j < 2 ^ r ∧ 2 ^ r + j < half) := by omega
    exact ⟨d, .stop k d (mt (h.goes_on_iff hs hr hk).mp full), h.last hj hn full, rfl⟩
  | succ fuel ih =>
    have goesOn : (k.toFloat * step < 180 ∧ d.size < 2 * half) ↔ j < 2 ^ r ∧ 2 ^ r + j < half :=
      h.goes_on_iff hs hr hk
    unfold addLevel
    by_cases more : j < 2 ^ r ∧ 2 ^ r + j < half
    · have hn' : 2 ^ r + j < 2 ^ 32 := by omega
      have product : k.toFloat * step = degrees (2 ^ r + j) := by
        have exact := is_degrees hn'
        rw [azimuth_eq more.1] at exact
        exact (is_multiple hs hr hk).unique exact (by positivity)
      have next := h.addPair hn'
      rw [← product] at next
      have hk' : (k + 2).toNat = 2 * (j + 1) + 1 := by
        rw [UInt32.toNat_add, hk]
        show (2 * j + 1 + 2) % 2 ^ 32 = _
        omega
      obtain ⟨d', levels, holds, result⟩ := ih next (by omega) (by omega) hk' (by omega)
      rw [if_pos (goesOn.mpr more)]
      exact ⟨d', .next (goesOn.mpr more) levels, holds, result⟩
    · rw [if_neg (mt goesOn.mp more)]
      exact ⟨d, .stop k d (mt goesOn.mp more), h.last hj hn more, rfl⟩

/-! ## 4. All levels -/

/-- The steps of the levels are numbers of double precision. -/
theorem fits_step (hr : r ≤ 64) : Fits (180 / 2 ^ r) := by
  have dyadic : (180 : ℚ) / 2 ^ r = (180 : ℤ) * 2 ^ (-(r : ℤ)) := by
    rw [zpow_neg, zpow_natCast, div_eq_mul_inv]
    norm_num
  rw [dyadic]
  exact Double.fits_of_lt (by norm_num) (by omega) (by omega)

/-- Half of the step of a level is that of the next one. -/
theorem is_half_step (hs : Is step (180 / 2 ^ r)) (hr : r ≤ 32) :
    Is (step / 2) (180 / 2 ^ (r + 1)) := by
  have two : Is 2 2 := by
    have exact := Double.is_literal (x := 2) (n := 2) (by decide +kernel) (by decide)
    exact_mod_cast exact
  have value : (180 : ℚ) / 2 ^ r / 2 = 180 / 2 ^ (r + 1) := by rw [div_div, pow_succ]
  rw [← value]
  refine hs.div two two_ne_zero ?_
  rw [value]
  exact fits_step (by omega)

/-- **The loop over all levels plans all pairs that are wanted**, if it is not too coarse for them. -/
theorem refine_holds {finest : Float} {f : ℚ} (small : half < 2 ^ 32) (hf : Is finest f)
    (fine : ∀ r, 2 ^ r < half → f ≤ 180 / 2 ^ r) (fuel : ℕ) (hs : Is step (180 / 2 ^ r))
    (h : d.Holds (min half (2 ^ r))) (enough : half ≤ 2 ^ (r + fuel)) :
    ∃ d', Refines (2 * half) finest step d d' ∧ d'.Holds half ∧
      refine (2 * half) finest fuel step d = d' := by
  have ended {r : ℕ} {step : Float} {d : Draft} (h : d.Holds (min half (2 ^ r)))
      (all : half ≤ 2 ^ r) : Refines (2 * half) finest step d d ∧ d.Holds half := by
    rw [min_eq_left all] at h
    refine ⟨.stop step d fun more => ?_, h⟩
    rw [h.size] at more
    exact lt_irrefl _ more.1
  induction fuel generalizing r step d with
  | zero =>
    obtain ⟨refines, holds⟩ := ended h enough
    exact ⟨d, refines, holds, rfl⟩
  | succ fuel ih =>
    unfold refine
    rcases lt_or_ge (2 ^ r) half with part | all
    · have hr : r ≤ 32 := by
        by_contra big
        have := Nat.pow_le_pow_right two_pos (Nat.le_of_lt (not_le.mp big))
        omega
      have hs' := is_half_step hs hr
      rw [min_eq_right part.le] at h
      have goesOn : d.size < 2 * half ∧ finest ≤ step := by
        rw [h.size, hf.le_iff hs]
        exact ⟨by omega, fine r part⟩
      obtain ⟨d₁, levels, holds, result⟩ := levels_hold small hs' hr (2 * half) (j := 0) (k := 1)
        h (Nat.zero_le _) part.le rfl (by omega)
      obtain ⟨d₂, refines, holds', result'⟩ := ih hs' holds
        (by rwa [← Nat.add_assoc, Nat.add_right_comm] at enough)
      rw [if_pos goesOn, result]
      exact ⟨d₂, .next goesOn levels refines, holds', result'⟩
    · obtain ⟨refines, holds⟩ := ended h all
      have stops : ¬ (d.size < 2 * half ∧ finest ≤ step) := by
        rw [holds.size]
        exact fun more => lt_irrefl _ more.1
      rw [if_neg stops]
      exact ⟨d, refines, holds, rfl⟩

end Draft

/-! ## 5. How many headings are wanted -/

/-- A quality as a fraction. -/
def clamped (quality : Float32) : ℚ :=
  if quality.isFinite then max 0 (min 1 (Single.value quality)) else 0

theorem clamped_nonneg (quality : Float32) : 0 ≤ clamped quality := by
  unfold clamped
  split
  · exact le_max_left _ _
  · exact le_rfl

theorem clamped_le (quality : Float32) : clamped quality ≤ 1 := by
  unfold clamped
  split
  · exact max_le zero_le_one (min_le_left _ _)
  · exact zero_le_one

/-- **The fraction is exact.** -/
theorem is_fraction (quality : Float32) : Is (fraction quality) (clamped quality) := by
  unfold fraction clamped
  split
  · rename_i finite
    have exact := Single.is_toDouble finite
    dsimp only
    by_cases below : Single.toDouble quality < 0
    · have neg := (exact.lt_iff Double.is_zero).mp below
      rw [if_pos below, max_eq_left (min_le_of_right_le neg.le)]
      exact Double.is_zero
    · have pos := not_lt.mp (mt (exact.lt_iff Double.is_zero).mpr below)
      rw [if_neg below, max_eq_right (le_min zero_le_one pos)]
      by_cases above : 1 < Single.toDouble quality
      · rw [if_pos above, min_eq_left ((Double.is_one.lt_iff exact).mp above).le]
        exact Double.is_one
      · have le := not_lt.mp (mt (Double.is_one.lt_iff exact).mpr above)
        rw [if_neg above, min_eq_right le]
        exact exact
  · exact Double.is_zero

/-- How many headings are planned: the fraction of the maximum, rounded as a product in double
    precision is, taken up to a whole and to an even number. -/
def total (e : Extent) (quality : Float32) : ℕ :=
  let count := max 2 (2 * e.width.toNat + 2 * e.height.toNat)
  let wanted := max 2 ⌈rounded (clamped quality * count)⌉₊
  min count (wanted + wanted % 2)

theorem maximum_lt (e : Extent) : maximum e < 2 ^ 35 := by
  have := e.width.toNat_lt
  have := e.height.toNat_lt
  unfold maximum
  omega

theorem is_maximum (e : Extent) : Is (maximum e).toUInt64.toFloat (maximum e) :=
  Double.is_count ((maximum_lt e).trans (by norm_num))

theorem fits_maximum (e : Extent) : Fits (maximum e) := by
  have := maximum_lt e
  exact_mod_cast Double.fits_intCast (n := (maximum e : ℕ)) (by omega)

/-- The fraction of the maximum is between nothing and all of it. -/
theorem product_between (e : Extent) (quality : Float32) :
    0 ≤ clamped quality * maximum e ∧ clamped quality * maximum e ≤ maximum e :=
  ⟨mul_nonneg (clamped_nonneg quality) (Nat.cast_nonneg _),
    mul_le_of_le_one_left (Nat.cast_nonneg _) (clamped_le quality)⟩

/-- **The target is computed exactly**, but for the product. -/
theorem target_eq (e : Extent) (quality : Float32) : target e quality = total e quality := by
  obtain ⟨low, high⟩ := product_between e quality
  have bound := Double.rounded_le_of_fits (fits_maximum e) high
  have product := (is_fraction quality).mul_rounded (is_maximum e)
    ((fits_maximum e).abs_le_greatest ((abs_of_nonneg low).trans_le high))
  have lt : ((maximum e : ℕ) : ℚ) < (2 ^ 53 : ℕ) :=
    Nat.cast_lt.mpr ((maximum_lt e).trans (by norm_num))
  unfold target total
  dsimp only
  rw [product.ceilNat_eq (Double.rounded_nonneg low) (bound.trans_lt (by exact_mod_cast lt)),
    min_comm]
  rfl

/-- More quality is not fewer headings. -/
theorem total_mono (e : Extent) {quality quality' : Float32}
    (h : clamped quality ≤ clamped quality') : total e quality ≤ total e quality' := by
  have product := mul_le_mul_of_nonneg_right h
    (Nat.cast_nonneg (α := ℚ) (max 2 (2 * e.width.toNat + 2 * e.height.toNat)))
  have wanted := Nat.ceil_mono (Double.rounded_mono product)
  unfold total
  dsimp only
  omega

theorem even_total (e : Extent) (quality : Float32) : Even (total e quality) := by
  rw [Nat.even_iff]
  unfold total
  dsimp only
  omega

theorem two_le_total (e : Extent) (quality : Float32) : 2 ≤ total e quality := by
  unfold total
  dsimp only
  omega

theorem clamped_one : clamped 1 = 1 := by
  have value : Single.value 1 = 1 := by
    have fields : Single.unpack 1 = .finite .positive 8388608 (-23) (by decide) := rfl
    unfold Single.value
    rw [fields, Double.valueOf_finite]
    show ((8388608 : ℕ) : ℚ) * 2 ^ (-23 : ℤ) = 1
    norm_num
  unfold clamped
  rw [if_pos (by decide +kernel), value]
  norm_num

/-- **At full quality as many headings are planned** as the image can tell apart. -/
theorem total_full (e : Extent) : total e 1 = maximum e := by
  have product : rounded (clamped 1 * maximum e) = maximum e := by
    rw [clamped_one, one_mul, Double.rounded_of_fits (fits_maximum e)]
  have wanted : ⌈rounded (clamped 1 * maximum e)⌉₊ = maximum e := by
    rw [product, Nat.ceil_natCast]
  show min (maximum e) (max 2 ⌈rounded (clamped 1 * maximum e)⌉₊
    + max 2 ⌈rounded (clamped 1 * maximum e)⌉₊ % 2) = maximum e
  rw [wanted]
  unfold maximum
  omega

/-! ## 6. Plans -/

section Plan

variable {e : Extent} {quality : Float32} {half : ℕ}

theorem total_le (e : Extent) (quality : Float32) : total e quality ≤ maximum e :=
  min_le_left _ _

/-- **The finest step is not above that of a level** on which pairs are missing. -/
theorem finest_le (count : 2 * half ≤ maximum e) {r : ℕ} (missing : 2 ^ r < half) :
    rounded (360 / maximum e) ≤ 180 / 2 ^ r := by
  have lt := maximum_lt e
  have hr : r ≤ 64 := by
    by_contra big
    have := Nat.pow_le_pow_right two_pos (Nat.le_of_lt (not_le.mp big))
    omega
  have more : ((2 * 2 ^ r : ℕ) : ℚ) ≤ maximum e := Nat.cast_le.mpr (by omega)
  refine Double.rounded_le_of_fits (Draft.fits_step hr) ?_
  have positive : (0 : ℚ) < (2 * 2 ^ r : ℕ) := Nat.cast_pos.mpr (by positivity)
  calc (360 : ℚ) / maximum e ≤ 360 / (2 * 2 ^ r : ℕ) :=
        div_le_div_of_nonneg_left (by norm_num) positive more
    _ = 180 / 2 ^ r := by
        push_cast
        field_simp
        norm_num

theorem is_finest (e : Extent) :
    Is (360 / (maximum e).toUInt64.toFloat) (rounded (360 / maximum e)) := by
  have two_le : (2 : ℚ) ≤ maximum e := by exact_mod_cast le_max_left 2 _
  have small : (360 : ℚ) / maximum e ≤ 360 := div_le_self (by norm_num) (by linarith)
  refine Heading.is_turn.div_rounded (is_maximum e) (by linarith) ?_
  refine Heading.is_turn.fits.abs_le_greatest ?_
  rwa [abs_of_nonneg (by positivity)]

/-- **Planning ends with the pairs that are wanted.** -/
theorem exists_draft (small : e.width.toNat + e.height.toNat < 2 ^ 32)
    (count : total e quality = 2 * half) :
    ∃ d, Draft.Refines (total e quality) (360 / (maximum e).toUInt64.toFloat) 180
        (Draft.empty.addPair 0) d ∧ d.Holds half ∧ (plan e quality).headings = d.reversed.reverse := by
  have most := total_le e quality
  have two_le := two_le_total e quality
  have few : half < 2 ^ 32 := by
    unfold maximum at most
    omega
  have begun : (Draft.empty.addPair 0).Holds (min half (2 ^ 0)) := by
    have first := Draft.holds_empty.addPair (by norm_num)
    rw [degrees_zero] at first
    have one : min half (2 ^ 0) = 0 + 1 := by omega
    rwa [one]
  have enough : half ≤ 2 ^ (0 + ((maximum e).log2 + 1)) := by
    have := Nat.lt_log2_self (n := maximum e)
    rw [Nat.zero_add]
    omega
  have whole : Is 180 (180 / 2 ^ 0) := by simpa using is_half_turn
  obtain ⟨d, refines, holds, result⟩ := Draft.refine_holds few (is_finest e)
    (fun r missing => finest_le (count ▸ most) missing) ((maximum e).log2 + 1) whole begun enough
  rw [← count] at refines result
  refine ⟨d, refines, holds, ?_⟩
  unfold plan
  dsimp only
  rw [target_eq, result]

/-- **A plan is made of the first pairs.** -/
theorem headings_plan (small : e.width.toNat + e.height.toNat < 2 ^ 32) (quality : Float32) :
    (plan e quality).headings = (List.range (total e quality / 2)).flatMap pair := by
  obtain ⟨half, count⟩ := even_iff_two_dvd.mp (even_total e quality)
  obtain ⟨d, _, holds, headings⟩ := exists_draft small count
  rw [headings, holds.headings, count, Nat.mul_div_cancel_left half two_pos]

theorem length_pairs (n : ℕ) : ((List.range n).flatMap pair).length = 2 * n := by
  induction n with
  | zero => rfl
  | succ n ih =>
    rw [List.range_succ, List.flatMap_append, List.length_append, ih]
    rfl

theorem pairs_prefix {n m : ℕ} (h : n ≤ m) :
    (List.range n).flatMap pair <+: (List.range m).flatMap pair := by
  obtain ⟨k, rfl⟩ := Nat.le.dest h
  rw [List.range_add, List.flatMap_append]
  exact List.prefix_append _ _

end Plan

/-- **The exact shape of every plan.** If no counter can wrap, planning ends, and what it plans are
    the first pairs of one sequence, as many as make up the total. All of their azimuths are exact:
    zero, and on every level the odd multiples of its step. So no heading is planned twice, each has
    its opposite, and of two plans the one with fewer headings is the beginning of the other, such as
    one of less quality. -/
theorem plan_is_first_pairs (e : Extent) (quality : Float32)
    (small : e.width.toNat + e.height.toNat < 2 ^ 32) :
    (∃ d, Draft.Refines (total e quality) (360 / (maximum e).toUInt64.toFloat) 180
        (Draft.empty.addPair 0) d ∧ (plan e quality).headings = d.reversed.reverse) ∧
      (plan e quality).headings = (List.range (total e quality / 2)).flatMap pair ∧
      Even (total e quality) ∧ (plan e quality).length = total e quality ∧
      (∀ n < total e quality / 2,
        pair n = [⟨degrees n⟩, ⟨degrees n + 180⟩] ∧ Is (degrees n) (azimuth n) ∧
          Is (degrees n + 180) (azimuth n + 180)) ∧
      azimuth 0 = 0 ∧ (∀ r j, j < 2 ^ r → azimuth (2 ^ r + j) = (2 * j + 1) * 90 / 2 ^ r) ∧
      (plan e quality).headings.Nodup ∧
      (∀ h ∈ (plan e quality).headings, h.opposite ∈ (plan e quality).headings) ∧
      (∀ (e' : Extent) (quality' : Float32), e'.width.toNat + e'.height.toNat < 2 ^ 32 →
        total e' quality' ≤ total e quality →
        (plan e' quality').headings <+: (plan e quality).headings) ∧
      ∀ quality' : Float32, clamped quality' ≤ clamped quality →
        (plan e quality').headings <+: (plan e quality).headings := by
  obtain ⟨half, count⟩ := even_iff_two_dvd.mp (even_total e quality)
  have few : total e quality / 2 ≤ 2 ^ 32 := by
    have := total_le e quality
    unfold maximum at this
    omega
  have shape := headings_plan small quality
  obtain ⟨d, refines, holds, headings⟩ := exists_draft small count
  refine ⟨⟨d, refines, headings⟩, shape, even_total e quality, ?_, fun n hn => ?_, rfl,
    fun r j => azimuth_eq, ?_, ?_, ?_, ?_⟩
  · rw [length, shape, length_pairs, count, Nat.mul_div_cancel_left half two_pos]
  · exact ⟨rfl, is_degrees (hn.trans_le few), is_degrees_add_180 (hn.trans_le few)⟩
  · rw [shape]
    exact nodup_pairs few
  · intro h mem
    rw [shape, List.mem_flatMap] at mem ⊢
    obtain ⟨n, hn, mem⟩ := mem
    exact ⟨n, hn, opposite_mem_pair ((List.mem_range.mp hn).trans_le few) mem⟩
  · intro e' quality' small' le
    rw [shape, headings_plan small' quality']
    exact pairs_prefix (Nat.div_le_div_right le)
  · intro quality' le
    rw [shape, headings_plan small quality']
    exact pairs_prefix (Nat.div_le_div_right (total_mono e le))

/-- At full quality an image of four pixels by three has all of its headings planned: seven pairs. -/
theorem plan_of_four_by_three :
    (4 : UInt32).toNat + (3 : UInt32).toNat < 2 ^ 32 ∧
      (plan ⟨4, 3⟩ 1).headings = (List.range 7).flatMap pair ∧ (plan ⟨4, 3⟩ 1).length = 14 := by
  have small : (4 : UInt32).toNat + (3 : UInt32).toNat < 2 ^ 32 := by decide
  have count : total ⟨4, 3⟩ 1 = 14 := total_full ⟨4, 3⟩
  obtain ⟨-, shape, -, length, -⟩ := plan_is_first_pairs ⟨4, 3⟩ 1 small
  rw [count] at shape length
  exact ⟨small, shape, length⟩

end Relief.Sweep
