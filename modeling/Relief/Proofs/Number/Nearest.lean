import Relief.Proofs.Number.Dyadic

/-!
# Rounding to the nearest number

Where an exact result has more places than the format, the format keeps the nearest number, a tie
going to the even mantissa. Here that number is a function of the exact result alone, and the
operations are shown to give it.

* `nearestEven`: the nearest natural number, a half going to the even one;
* `rounded`: the nearest number of the format;
* `rounded_mono`, `rounded_of_fits`: **it goes up with the exact one, and what fits is its own**, so
  rounding does not pass a bound that fits;
* `Shows`, `roundWithAccuracy_rounded`: places that are shifted out leave two bits behind, and these
  settle the nearest number;
* `is_nearest`, `Is.add_rounded`, `Is.sub_rounded`, `Is.mul_rounded`, `Is.div_rounded`: **every
  operation gives the number that is nearest to the exact result**.
-/

namespace Relief.Double

open Float.Model (UnpackedFloat Format totalExponent)
open Float.Model.UnpackedFloat (Sign Accuracy ExtendedMantissa)

/-! ## 1. Natural numbers -/

/-- What is left of a number behind its whole part, as far as it matters for rounding. -/
def accuracyOf (rest : ℚ) : Accuracy :=
  if rest = 0 then .exact else .inexact (compare rest (1 / 2))

/-- The nearest natural number; a half goes to the even one. -/
def nearestEven (v : ℚ) : ℕ :=
  Accuracy.roundToNearestEven ⌊v⌋₊ (accuracyOf (v - ⌊v⌋₊))

theorem nearestEven_natCast (n : ℕ) : nearestEven n = n := by
  unfold nearestEven accuracyOf
  rw [Nat.floor_natCast, sub_self, if_pos rfl]
  rfl

/-- The nearest natural number is the whole part or the next one, and half a unit off at most. -/
theorem nearestEven_near {v : ℚ} (hv : 0 ≤ v) :
    (nearestEven v : ℚ) ≤ v + 1 / 2 ∧ v - 1 / 2 ≤ nearestEven v := by
  have low := Nat.floor_le hv
  have high := Nat.lt_floor_add_one v
  have parity : ((⌊v⌋₊ % 2 : ℕ) : ℚ) ≤ 1 := by
    exact_mod_cast Nat.le_of_lt_succ (Nat.mod_lt ⌊v⌋₊ two_pos)
  unfold nearestEven accuracyOf
  by_cases whole : v - ⌊v⌋₊ = 0
  · rw [if_pos whole]
    show (⌊v⌋₊ : ℚ) ≤ v + 1 / 2 ∧ v - 1 / 2 ≤ (⌊v⌋₊ : ℚ)
    constructor <;> linarith
  · rw [if_neg whole]
    rcases lt_trichotomy (v - ⌊v⌋₊) (1 / 2) with lt | eq | gt
    · rw [compare_lt_iff_lt.mpr lt]
      show (⌊v⌋₊ : ℚ) ≤ v + 1 / 2 ∧ v - 1 / 2 ≤ (⌊v⌋₊ : ℚ)
      constructor <;> linarith
    · rw [compare_eq_iff_eq.mpr eq]
      show ((⌊v⌋₊ + ⌊v⌋₊ % 2 : ℕ) : ℚ) ≤ v + 1 / 2 ∧ v - 1 / 2 ≤ ((⌊v⌋₊ + ⌊v⌋₊ % 2 : ℕ) : ℚ)
      have := Nat.cast_nonneg (α := ℚ) (⌊v⌋₊ % 2)
      rw [Nat.cast_add]
      constructor <;> linarith
    · rw [compare_gt_iff_gt.mpr gt]
      show ((⌊v⌋₊ + 1 : ℕ) : ℚ) ≤ v + 1 / 2 ∧ v - 1 / 2 ≤ ((⌊v⌋₊ + 1 : ℕ) : ℚ)
      rw [Nat.cast_add, Nat.cast_one]
      constructor <;> linarith

theorem nearestEven_mono {v w : ℚ} (hv : 0 ≤ v) (h : v ≤ w) : nearestEven v ≤ nearestEven w := by
  by_contra above
  have next : (nearestEven w : ℚ) + 1 ≤ nearestEven v := by
    exact_mod_cast Nat.succ_le_of_lt (not_le.mp above)
  have := (nearestEven_near hv).1
  have := (nearestEven_near (hv.trans h)).2
  -- both would be halfway between the same neighbours
  obtain rfl : v = w := by linarith
  exact above le_rfl

theorem nearestEven_le {v : ℚ} {n : ℕ} (hv : 0 ≤ v) (h : v ≤ n) : nearestEven v ≤ n :=
  (nearestEven_mono hv h).trans_eq (nearestEven_natCast n)

theorem le_nearestEven {v : ℚ} {n : ℕ} (h : n ≤ v) : n ≤ nearestEven v :=
  (nearestEven_natCast n).symm.trans_le (nearestEven_mono (Nat.cast_nonneg n) h)

/-! ## 2. Numbers of the format -/

/-- The exponent of the last place that the format keeps of a number. -/
def unitOf (q : ℚ) : ℤ :=
  max (Int.log 2 q - 52) (-1074)

/-- How many of these units a positive number has, when it is rounded. -/
def unitsOf (q : ℚ) : ℕ :=
  nearestEven (q / 2 ^ unitOf q)

/-- The number of the format that is nearest to a number, as far as it is not too great. -/
def rounded (q : ℚ) : ℚ :=
  if q < 0 then -(unitsOf (-q) * 2 ^ unitOf (-q)) else unitsOf q * 2 ^ unitOf q

/-- The greatest number of the format. -/
def greatest : ℚ :=
  (2 ^ 53 - 1) * 2 ^ (971 : ℤ)

theorem rounded_of_nonneg {q : ℚ} (h : 0 ≤ q) : rounded q = unitsOf q * 2 ^ unitOf q :=
  if_neg h.not_gt

theorem rounded_zero : rounded 0 = 0 := by
  have zero : unitsOf 0 = 0 := by
    unfold unitsOf
    rw [zero_div]
    exact_mod_cast nearestEven_natCast 0
  rw [rounded_of_nonneg le_rfl, zero, Nat.cast_zero, zero_mul]

/-- **Rounding is odd.** -/
theorem rounded_neg (q : ℚ) : rounded (-q) = -rounded q := by
  rcases lt_trichotomy q 0 with neg | rfl | pos
  · rw [rounded_of_nonneg (by linarith), rounded, if_pos neg, neg_neg]
  · rw [neg_zero, rounded_zero, neg_zero]
  · rw [rounded_of_nonneg pos.le, rounded, if_pos (by linarith), neg_neg]

theorem rounded_nonneg {q : ℚ} (h : 0 ≤ q) : 0 ≤ rounded q := by
  rw [rounded_of_nonneg h]
  positivity

section Units

variable {p q : ℚ}

theorem le_unitOf (q : ℚ) : -1074 ≤ unitOf q :=
  le_max_right _ _

theorem lt_pow_log (q : ℚ) : q < 2 ^ (Int.log 2 q + 1) := by
  have below := Int.lt_zpow_succ_log_self (b := 2) (by norm_num) q
  exact_mod_cast below

theorem pow_log_le (hq : 0 < q) : 2 ^ Int.log 2 q ≤ q := by
  have above := Int.zpow_log_le_self (b := 2) (by norm_num) hq
  exact_mod_cast above

theorem log_eq {e : ℤ} (low : 2 ^ e ≤ q) (high : q < 2 ^ (e + 1)) : Int.log 2 q = e := by
  have hq : 0 < q := lt_of_lt_of_le (by positivity) low
  have le : e < Int.log 2 q + 1 :=
    (zpow_lt_zpow_iff_right₀ one_lt_two).mp (low.trans_lt (lt_pow_log q))
  have ge : Int.log 2 q < e + 1 :=
    (zpow_lt_zpow_iff_right₀ one_lt_two).mp ((pow_log_le hq).trans_lt high)
  omega

theorem div_unit_lt (q : ℚ) : q / 2 ^ unitOf q < 2 ^ 53 := by
  rw [div_lt_iff₀ (by positivity)]
  refine (lt_pow_log q).trans_le ?_
  rw [← zpow_natCast, ← zpow_add₀ two_ne_zero]
  exact zpow_le_zpow_right₀ one_le_two (by unfold unitOf; omega)

/-- There are at most as many units as the mantissa has values. -/
theorem unitsOf_le (hq : 0 ≤ q) : unitsOf q ≤ 2 ^ 53 :=
  nearestEven_le (by positivity) (by exact_mod_cast (div_unit_lt q).le)

/-- The units fill the mantissa, unless they are the least that there are. -/
theorem le_unitsOf (hq : 0 < q) (h : unitOf q ≠ -1074) : 2 ^ 52 ≤ unitsOf q := by
  refine le_nearestEven ?_
  rw [le_div_iff₀ (by positivity)]
  refine le_trans ?_ (pow_log_le hq)
  rw [Nat.cast_pow, Nat.cast_ofNat, ← zpow_natCast, ← zpow_add₀ two_ne_zero]
  exact zpow_le_zpow_right₀ one_le_two (by unfold unitOf at h ⊢; omega)

theorem unitOf_mono (hp : 0 < p) (h : p ≤ q) : unitOf p ≤ unitOf q :=
  max_le_max_right _ (Int.sub_le_sub_right (Int.log_mono_right hp h) _)

theorem rounded_mono_of_pos (hp : 0 < p) (h : p ≤ q) : rounded p ≤ rounded q := by
  have hq : 0 < q := hp.trans_le h
  rw [rounded_of_nonneg hp.le, rounded_of_nonneg hq.le]
  rcases (unitOf_mono hp h).eq_or_lt with same | finer
  · unfold unitsOf
    rw [← same]
    refine mul_le_mul_of_nonneg_right ?_ (by positivity)
    exact_mod_cast nearestEven_mono (by positivity) (div_le_div_of_nonneg_right h (by positivity))
  · have least := le_unitOf p
    calc (unitsOf p : ℚ) * 2 ^ unitOf p
        ≤ 2 ^ 53 * 2 ^ unitOf p :=
          mul_le_mul_of_nonneg_right (by exact_mod_cast unitsOf_le hp.le) (by positivity)
      _ = 2 ^ 52 * 2 ^ (unitOf p + 1) := by
          rw [zpow_add_one₀ two_ne_zero]
          ring
      _ ≤ 2 ^ 52 * 2 ^ unitOf q :=
          mul_le_mul_of_nonneg_left (zpow_le_zpow_right₀ one_le_two (by omega)) (by positivity)
      _ ≤ unitsOf q * 2 ^ unitOf q :=
          mul_le_mul_of_nonneg_right (by exact_mod_cast le_unitsOf hq (by omega)) (by positivity)

/-- **The nearest number goes up with the exact one.** -/
theorem rounded_mono (h : p ≤ q) : rounded p ≤ rounded q := by
  have nonneg {p q : ℚ} (hp : 0 ≤ p) (h : p ≤ q) : rounded p ≤ rounded q := by
    rcases hp.eq_or_lt with rfl | pos
    · rw [rounded_zero]
      exact rounded_nonneg h
    · exact rounded_mono_of_pos pos h
  rcases le_total 0 p with hp | hp
  · exact nonneg hp h
  · have mirrored : 0 ≤ rounded (-p) := rounded_nonneg (by linarith)
    rw [rounded_neg] at mirrored
    rcases le_total 0 q with hq | hq
    · linarith [rounded_nonneg hq]
    · have swapped := nonneg (neg_nonneg.mpr hq) (neg_le_neg h)
      rw [rounded_neg, rounded_neg] at swapped
      linarith

end Units

theorem Canonical.unitOf_eq {m : ℕ} {e : ℤ} (h : Canonical m e) : unitOf (m * 2 ^ e) = e := by
  have log : Int.log 2 ((m : ℚ) * 2 ^ e) = m.log2 + e := by
    have low : 2 ^ m.log2 ≤ m := Nat.log2_self_le h.pos.ne'
    have high : m < 2 ^ (m.log2 + 1) := Nat.lt_log2_self
    refine log_eq ?_ ?_
    · rw [zpow_add₀ two_ne_zero, zpow_natCast]
      exact mul_le_mul_of_nonneg_right (by exact_mod_cast low) (by positivity)
    · rw [add_right_comm, zpow_add₀ two_ne_zero]
      exact mul_lt_mul_of_pos_right (by exact_mod_cast high) (by positivity)
  have target := h.kept.target
  unfold unitOf
  rw [log]
  have bits : (Format.binary64.mantissaBits : ℤ) = 53 := rfl
  have least : Format.binary64.minExponent = -1074 := rfl
  unfold Format.targetExponent totalExponent at target
  rw [bits, least] at target
  omega

/-- **What fits the format is its own nearest number.** -/
theorem rounded_of_fits {q : ℚ} (h : Fits q) : rounded q = q := by
  have pos {m : ℕ} {e : ℤ} (h : Canonical m e) : rounded (m * 2 ^ e) = m * 2 ^ e := by
    rw [rounded_of_nonneg (by positivity), unitsOf, h.unitOf_eq,
      mul_div_cancel_right₀ _ (by positivity), nearestEven_natCast]
  rcases h with rfl | ⟨m, e, canonical, value⟩
  · exact rounded_zero
  · rcases abs_choice q with same | same
    · rw [← same, value, pos canonical]
    · obtain rfl : q = -(m * 2 ^ e) := by rw [← value, same, neg_neg]
      rw [rounded_neg, pos canonical]

theorem Fits.neg {q : ℚ} (h : Fits q) : Fits (-q) := by
  rcases h with rfl | ⟨m, e, canonical, value⟩
  · exact .inl neg_zero
  · exact .inr ⟨m, e, canonical, by rw [abs_neg, value]⟩

/-- **Rounding does not pass a bound that fits.** -/
theorem rounded_le_of_fits {q b : ℚ} (hb : Fits b) (h : q ≤ b) : rounded q ≤ b :=
  (rounded_mono h).trans_eq (rounded_of_fits hb)

theorem le_rounded_of_fits {q b : ℚ} (hb : Fits b) (h : b ≤ q) : b ≤ rounded q :=
  (rounded_of_fits hb).symm.trans_le (rounded_mono h)

theorem abs_rounded_le_of_fits {q b : ℚ} (hb : Fits b) (h : |q| ≤ b) : |rounded q| ≤ b :=
  abs_le.mpr ⟨le_rounded_of_fits hb.neg (abs_le.mp h).1, rounded_le_of_fits hb (abs_le.mp h).2⟩

/-! ## 3. Bits that are shifted out -/

/-- A mantissa with its two bits behind it shows a number: the mantissa is the whole part, and the
    bits tell what is left as far as it matters for rounding. -/
structure Shows (em : ExtendedMantissa) (v : ℚ) : Prop where
  whole : em.mantissa = ⌊v⌋₊
  rest : em.accuracy = accuracyOf (v - ⌊v⌋₊)

theorem Shows.roundedMantissa {em : ExtendedMantissa} {v : ℚ} (h : Shows em v) :
    em.roundedMantissa = nearestEven v := by
  unfold ExtendedMantissa.roundedMantissa nearestEven
  rw [h.whole, h.rest]

theorem accuracyOf_eq_exact {rest : ℚ} : accuracyOf rest = .exact ↔ rest = 0 := by
  unfold accuracyOf
  split <;> simp_all

theorem accuracyOf_zero : accuracyOf 0 = .exact :=
  if_pos rfl

theorem accuracyOf_of_lt {rest : ℚ} (pos : 0 < rest) (lt : rest < 1 / 2) :
    accuracyOf rest = .inexact .lt := by
  rw [accuracyOf, if_neg pos.ne', compare_lt_iff_lt.mpr lt]

theorem accuracyOf_half : accuracyOf (1 / 2) = .inexact .eq := by
  rw [accuracyOf, if_neg (by norm_num), compare_eq_iff_eq.mpr rfl]

theorem accuracyOf_of_gt {rest : ℚ} (gt : 1 / 2 < rest) : accuracyOf rest = .inexact .gt := by
  rw [accuracyOf, if_neg (by linarith), compare_gt_iff_gt.mpr gt]

/-- The bits are clear only where nothing is left. -/
theorem accuracy_eq_exact {em : ExtendedMantissa} :
    em.accuracy = .exact ↔ (em.roundBit || em.stickyBit) = false := by
  obtain ⟨m, r, s⟩ := em
  cases r <;> cases s <;> simp [ExtendedMantissa.accuracy]

/-- One place that is shifted out halves the number. -/
theorem Shows.shiftRightOne {em : ExtendedMantissa} {v : ℚ} (hv : 0 ≤ v) (h : Shows em v) :
    Shows em.shiftRightOne (v / 2) := by
  have whole : ⌊v / 2⌋₊ = ⌊v⌋₊ / 2 := by
    have halved := Nat.floor_div_natCast v 2
    exact_mod_cast halved
  refine ⟨by rw [whole, ← h.whole]; rfl, ?_⟩
  have low := Nat.floor_le hv
  have high := Nat.lt_floor_add_one v
  have clear : (em.roundBit || em.stickyBit) = false ↔ v - ⌊v⌋₊ = 0 := by
    rw [← accuracy_eq_exact, h.rest, accuracyOf_eq_exact]
  unfold ExtendedMantissa.shiftRightOne
  rw [whole, h.whole]
  generalize ⌊v⌋₊ = n at low high clear
  have split : (n : ℚ) = 2 * (n / 2 : ℕ) + (n % 2 : ℕ) := by
    exact_mod_cast (Nat.div_add_mod n 2).symm
  generalize n / 2 = half at split ⊢
  rcases Nat.mod_two_eq_zero_or_one n with even | odd
  · -- the place shifted out is zero: what is left is below a half, as before
    rw [even] at split ⊢
    rw [Nat.cast_zero] at split
    cases bits : em.roundBit || em.stickyBit with
    | false =>
      rw [show v / 2 - (half : ℚ) = 0 by linarith [clear.mp bits], accuracyOf_zero]
      rfl
    | true =>
      have nonzero : v - n ≠ 0 := fun zero => by simp [clear.mpr zero] at bits
      have pos : 0 < v - n := lt_of_le_of_ne (by linarith) nonzero.symm
      rw [accuracyOf_of_lt (by linarith) (by linarith)]
      rfl
  · -- it is one: what is left is a half or more
    rw [odd] at split ⊢
    rw [Nat.cast_one] at split
    cases bits : em.roundBit || em.stickyBit with
    | false =>
      rw [show v / 2 - (half : ℚ) = 1 / 2 by linarith [clear.mp bits], accuracyOf_half]
      rfl
    | true =>
      have nonzero : v - n ≠ 0 := fun zero => by simp [clear.mpr zero] at bits
      have pos : 0 < v - n := lt_of_le_of_ne (by linarith) nonzero.symm
      rw [accuracyOf_of_gt (by linarith)]
      rfl

theorem Shows.shiftRight {em : ExtendedMantissa} {v : ℚ} (hv : 0 ≤ v) (h : Shows em v) (k : ℕ) :
    Shows (em >>> k) (v / 2 ^ k) := by
  show Shows (Nat.repeat ExtendedMantissa.shiftRightOne k em) (v / 2 ^ k)
  induction k with
  | zero => simpa [Nat.repeat] using h
  | succ k ih =>
    rw [pow_succ, ← div_div]
    exact ih.shiftRightOne (by positivity)

theorem accuracy_ofMantissaAndAccuracy (m : ℕ) (acc : Accuracy) :
    (ExtendedMantissa.ofMantissaAndAccuracy m acc).mantissa = m ∧
      (ExtendedMantissa.ofMantissaAndAccuracy m acc).accuracy = acc := by
  cases acc with
  | exact => exact ⟨rfl, rfl⟩
  | inexact o => cases o <;> exact ⟨rfl, rfl⟩

/-- A mantissa shows itself and what is left behind it. -/
theorem shows_ofMantissaAndAccuracy {v : ℚ} :
    Shows (ExtendedMantissa.ofMantissaAndAccuracy ⌊v⌋₊ (accuracyOf (v - ⌊v⌋₊))) v :=
  have parts := accuracy_ofMantissaAndAccuracy ⌊v⌋₊ (accuracyOf (v - ⌊v⌋₊))
  ⟨parts.1, parts.2⟩

/-! ## 4. Rounding a mantissa -/

/-- A number with a sign put before it. -/
def signed : Sign → ℚ → ℚ
  | .positive, q => q
  | .negative, q => -q

theorem valueOf_finite (s : Sign) {m : ℕ} {e : ℤ} (h : 0 < m) :
    valueOf (.finite s m e h) = signed s (m * 2 ^ e) := by
  cases s with
  | positive => rfl
  | negative =>
    show ((-(m : ℤ) : ℤ) : ℚ) * 2 ^ e = -(m * 2 ^ e)
    push_cast
    ring

theorem rounded_signed (s : Sign) (q : ℚ) : rounded (signed s q) = signed s (rounded q) := by
  cases s with
  | positive => rfl
  | negative => exact rounded_neg q

theorem abs_signed (s : Sign) {q : ℚ} (h : 0 ≤ q) : |signed s q| = q := by
  cases s with
  | positive => exact abs_of_nonneg h
  | negative => exact (abs_neg q).trans (abs_of_nonneg h)

theorem signed_zero (s : Sign) : signed s 0 = 0 := by
  cases s with
  | positive => rfl
  | negative => exact neg_zero

/-- The exponent that the format aims at is that of the last place it keeps. -/
theorem target_eq_unitOf {v : ℚ} {e : ℤ} (hv : 0 < v)
    (he : e ≤ Format.binary64.targetExponent (totalExponent ⌊v⌋₊ e)) :
    Format.binary64.targetExponent (totalExponent ⌊v⌋₊ e) = unitOf (v * 2 ^ e) := by
  have bits : (Format.binary64.mantissaBits : ℤ) = 53 := rfl
  have least : Format.binary64.minExponent = -1074 := rfl
  have positive : (0 : ℚ) < 2 ^ e := by positivity
  unfold Format.targetExponent totalExponent at he ⊢
  unfold unitOf
  rw [bits, least] at he ⊢
  rcases lt_or_ge v 1 with below | above
  · rw [Nat.floor_eq_zero.mpr below, Nat.log2_zero] at he ⊢
    have log : Int.log 2 (v * 2 ^ e) < e :=
      (zpow_lt_zpow_iff_right₀ one_lt_two).mp
        ((pow_log_le (by positivity)).trans_lt (mul_lt_of_lt_one_left positive below))
    omega
  · have nonzero : ⌊v⌋₊ ≠ 0 := (Nat.floor_pos.mpr above).ne'
    have log : Int.log 2 (v * 2 ^ e) = (⌊v⌋₊.log2 : ℤ) + e := by
      have low : ((2 ^ ⌊v⌋₊.log2 : ℕ) : ℚ) ≤ ⌊v⌋₊ := Nat.cast_le.mpr (Nat.log2_self_le nonzero)
      have high : ((⌊v⌋₊ + 1 : ℕ) : ℚ) ≤ (2 ^ (⌊v⌋₊.log2 + 1) : ℕ) :=
        Nat.cast_le.mpr Nat.lt_log2_self
      have := Nat.floor_le hv.le
      have := Nat.lt_floor_add_one v
      push_cast at low high
      refine log_eq ?_ ?_
      · rw [zpow_add₀ two_ne_zero, zpow_natCast]
        exact mul_le_mul_of_nonneg_right (by linarith) positive.le
      · rw [add_right_comm, zpow_add₀ two_ne_zero]
        refine mul_lt_mul_of_pos_right ?_ positive
        exact_mod_cast (show v < 2 ^ (⌊v⌋₊.log2 + 1) by linarith)
    rw [log]
    omega

/-- A number that is not too great has units that are not too great. -/
theorem unitOf_le {q : ℚ} (hq : 0 < q) (small : q ≤ greatest) : unitOf q ≤ 971 := by
  have below : q < 2 ^ (1024 : ℤ) :=
    calc q ≤ (2 ^ 53 - 1) * 2 ^ (971 : ℤ) := small
      _ < 2 ^ (53 : ℤ) * 2 ^ (971 : ℤ) := mul_lt_mul_of_pos_right (by norm_num) (by positivity)
      _ = 2 ^ (1024 : ℤ) := by rw [← zpow_add₀ two_ne_zero]; rfl
  have log : Int.log 2 q < 1024 :=
    (zpow_lt_zpow_iff_right₀ one_lt_two).mp ((pow_log_le hq).trans_lt below)
  unfold unitOf
  omega

/-- The greatest units do not fill up. -/
theorem unitsOf_lt {q : ℚ} (hq : 0 < q) (small : q ≤ greatest) (top : unitOf q = 971) :
    unitsOf q < 2 ^ 53 := by
  refine Nat.lt_of_le_of_lt (m := 2 ^ 53 - 1) (nearestEven_le (by positivity) ?_) (by norm_num)
  rw [top, div_le_iff₀ (by positivity)]
  exact small.trans_eq (by unfold greatest; norm_num)

/-- A short mantissa is not shifted any more. -/
theorem shiftToTargetExponent_short {m : ℕ} {e : ℤ} (hm : m < 2 ^ 53) (he : -1074 ≤ e) :
    UnpackedFloat.shiftToTargetExponent Format.binary64 m e .exact = (⟨m, false, false⟩, e) := by
  have bits : (Format.binary64.mantissaBits : ℤ) = 53 := rfl
  have least : Format.binary64.minExponent = -1074 := rfl
  have log : m.log2 < 53 := by
    rcases Nat.eq_zero_or_pos m with rfl | pos
    · norm_num
    · exact (Nat.log2_lt pos.ne').mpr hm
  have amount : (Format.binary64.targetExponent (totalExponent m e) - e).toNat = 0 := by
    unfold Format.targetExponent totalExponent
    rw [bits, least]
    omega
  unfold UnpackedFloat.shiftToTargetExponent UnpackedFloat.shiftToExponent
  dsimp only
  rw [amount]
  exact congrArg (_, ·) (add_zero e)

/-- A mantissa that has been rounded up to one place more loses it again. -/
theorem shiftToTargetExponent_carry {e : ℤ} (he : -1074 ≤ e) :
    UnpackedFloat.shiftToTargetExponent Format.binary64 (2 ^ 53) e .exact
      = (⟨2 ^ 52, false, false⟩, e + 1) := by
  have bits : (Format.binary64.mantissaBits : ℤ) = 53 := rfl
  have least : Format.binary64.minExponent = -1074 := rfl
  have target : Format.binary64.targetExponent (totalExponent (2 ^ 53) e) = e + 1 := by
    unfold Format.targetExponent totalExponent
    rw [bits, least, Nat.log2_two_pow]
    omega
  unfold UnpackedFloat.shiftToTargetExponent
  rw [target]
  exact shiftToExponent_mul_pow (2 ^ 52) 1 e

/-- Units that have been rounded are a number of the format, if it is not too great. -/
theorem shiftToTargetExponent_units {m : ℕ} {e : ℤ} (wide : m ≤ 2 ^ 53) (least : -1074 ≤ e)
    (most : e ≤ 971) (full : e ≠ -1074 → 2 ^ 52 ≤ m) (lost : e = 971 → m < 2 ^ 53) :
    ∃ m' e', UnpackedFloat.shiftToTargetExponent Format.binary64 m e .exact
        = (⟨m', false, false⟩, e') ∧ (m' : ℚ) * 2 ^ e' = m * 2 ^ e ∧
      (m' ≠ 0 → Canonical m' e') := by
  rcases wide.lt_or_eq with short | rfl
  · refine ⟨m, e, shiftToTargetExponent_short short least, rfl, fun nonzero => ?_⟩
    exact ⟨Nat.pos_of_ne_zero nonzero, short, least, most,
      (em (e = -1074)).symm.imp_left full⟩
  · have room : e ≠ 971 := fun top => lt_irrefl _ (lost top)
    refine ⟨2 ^ 52, e + 1, shiftToTargetExponent_carry least, ?_, fun _ => ?_⟩
    · rw [zpow_add_one₀ two_ne_zero]
      push_cast
      ring
    · exact ⟨by norm_num, by norm_num, by omega, by omega, .inl le_rfl⟩

/-- **A mantissa with what is left behind it is rounded to the nearest number.** -/
theorem roundWithAccuracy_rounded (s : Sign) {v : ℚ} {e : ℤ} (hv : 0 < v)
    (he : e ≤ Format.binary64.targetExponent (totalExponent ⌊v⌋₊ e))
    (small : v * 2 ^ e ≤ greatest) :
    Exact (UnpackedFloat.roundWithAccuracy Format.binary64 s ⌊v⌋₊ e (accuracyOf (v - ⌊v⌋₊))) ∧
      valueOf (UnpackedFloat.roundWithAccuracy Format.binary64 s ⌊v⌋₊ e (accuracyOf (v - ⌊v⌋₊)))
        = signed s (rounded (v * 2 ^ e)) := by
  have hq : 0 < v * 2 ^ e := by positivity
  have target := target_eq_unitOf hv he
  rw [target] at he
  obtain ⟨k, unit⟩ := Int.le.dest he
  have amount : (unitOf (v * 2 ^ e) - e).toNat = k := by omega
  -- the first shift leaves the units of the format, which are rounded
  have units : (ExtendedMantissa.ofMantissaAndAccuracy ⌊v⌋₊ (accuracyOf (v - ⌊v⌋₊))
      >>> k).roundedMantissa = unitsOf (v * 2 ^ e) := by
    rw [(shows_ofMantissaAndAccuracy.shiftRight hv.le k).roundedMantissa, unitsOf, ← unit,
      zpow_add₀ two_ne_zero, zpow_natCast, mul_comm v, mul_div_mul_left _ _ (by positivity)]
  have first : UnpackedFloat.shiftToTargetExponent Format.binary64 ⌊v⌋₊ e (accuracyOf (v - ⌊v⌋₊))
      = (ExtendedMantissa.ofMantissaAndAccuracy ⌊v⌋₊ (accuracyOf (v - ⌊v⌋₊)) >>> k,
        unitOf (v * 2 ^ e)) := by
    unfold UnpackedFloat.shiftToTargetExponent UnpackedFloat.shiftToExponent
    dsimp only
    rw [target, amount, unit]
  -- the second one takes back a carry
  obtain ⟨m', e', second, value, canonical⟩ := shiftToTargetExponent_units (unitsOf_le hq.le)
    (le_unitOf _) (unitOf_le hq small) (le_unitsOf hq) (unitsOf_lt hq small)
  rw [rounded_of_nonneg hq.le, ← value]
  unfold UnpackedFloat.roundWithAccuracy
  rw [first]
  dsimp only
  rw [units, second]
  dsimp only
  split
  · rename_i zero
    subst zero
    refine ⟨.zero s, ?_⟩
    rw [Nat.cast_zero, zero_mul, signed_zero]
    rfl
  · rename_i nonzero
    exact ⟨.finite s (canonical nonzero), valueOf_finite s _⟩

theorem roundWithAccuracy_exact_rounded (s : Sign) {m : ℕ} {e : ℤ} (hm : 0 < m)
    (he : e ≤ Format.binary64.targetExponent (totalExponent m e)) (small : m * 2 ^ e ≤ greatest) :
    Exact (UnpackedFloat.roundWithAccuracy Format.binary64 s m e .exact) ∧
      valueOf (UnpackedFloat.roundWithAccuracy Format.binary64 s m e .exact)
        = rounded (signed s (m * 2 ^ e)) := by
  have positive : (0 : ℚ) < m := Nat.cast_pos.mpr hm
  have nearest := roundWithAccuracy_rounded s positive (by rwa [Nat.floor_natCast]) small
  rwa [Nat.floor_natCast, sub_self, accuracyOf_zero, ← rounded_signed] at nearest

/-- **A mantissa of any length is rounded to the nearest number.** -/
theorem round_rounded (s : Sign) {m : ℕ} {e : ℤ} (hm : 0 < m) (small : m * 2 ^ e ≤ greatest) :
    Exact (UnpackedFloat.round Format.binary64 s m e) ∧
      valueOf (UnpackedFloat.round Format.binary64 s m e) = rounded (signed s (m * 2 ^ e)) := by
  unfold UnpackedFloat.round UnpackedFloat.decreaseExponent
  dsimp only
  generalize target : Format.binary64.targetExponent (totalExponent m e) = t
  generalize amount : (e - t).toNat = k
  have same : ((m * 2 ^ k : ℕ) : ℚ) * 2 ^ (e - k) = m * 2 ^ e := by
    rw [zpow_sub₀ two_ne_zero, zpow_natCast]
    push_cast
    field_simp
  have nearest := roundWithAccuracy_exact_rounded s (m := m * 2 ^ k) (e := e - k) (by positivity)
    (by rw [totalExponent_mul_pow hm.ne', sub_add_cancel, target]; omega) (by rwa [same])
  rwa [same, ← Nat.shiftLeft_eq] at nearest

/-- **A whole number of units is rounded to the nearest number.** -/
theorem normalize_rounded {n e : ℤ} (s : Sign) (small : |(n : ℚ) * 2 ^ e| ≤ greatest) :
    Exact (UnpackedFloat.normalize Format.binary64 n e s) ∧
      valueOf (UnpackedFloat.normalize Format.binary64 n e s) = rounded (n * 2 ^ e) := by
  rw [abs_mul, abs_of_pos (show (0 : ℚ) < 2 ^ e by positivity)] at small
  unfold UnpackedFloat.normalize
  rcases lt_trichotomy n 0 with neg | rfl | pos
  · have size : |(n : ℚ)| = ((-n).toNat : ℕ) := by
      rw [abs_of_neg (Int.cast_lt_zero.mpr neg), ← Int.cast_neg]
      exact_mod_cast (Int.toNat_of_nonneg (by omega : 0 ≤ -n)).symm
    rw [compare_lt_iff_lt.mpr neg]
    rw [size] at small
    have nearest := round_rounded .negative (by omega) small
    rw [← size, abs_of_neg (Int.cast_lt_zero.mpr neg)] at nearest
    simpa [signed] using nearest
  · exact ⟨.zero s, by simp [valueOf, rounded_zero]⟩
  · have size : |(n : ℚ)| = (n.toNat : ℕ) := by
      rw [abs_of_pos (Int.cast_pos.mpr pos)]
      exact_mod_cast (Int.toNat_of_nonneg pos.le).symm
    rw [compare_gt_iff_gt.mpr pos]
    rw [size] at small
    have nearest := round_rounded .positive (by omega) small
    rwa [← size, abs_of_pos (Int.cast_pos.mpr pos)] at nearest

/-- Nothing is rounded to nothing. -/
theorem round_zero (s : Sign) (e : ℤ) : UnpackedFloat.round Format.binary64 s 0 e = .zero s := by
  have shifted (e : ℤ) : ∃ e', UnpackedFloat.shiftToTargetExponent Format.binary64 0 e .exact
      = (⟨0, false, false⟩, e') := by
    unfold UnpackedFloat.shiftToTargetExponent UnpackedFloat.shiftToExponent
    dsimp only
    generalize (Format.binary64.targetExponent (totalExponent 0 e) - e).toNat = k
    have repeated := repeat_shiftRightOne 0 k
    rw [Nat.zero_mul] at repeated
    exact ⟨_, congrArg (·, e + (k : ℤ)) repeated⟩
  unfold UnpackedFloat.round UnpackedFloat.decreaseExponent UnpackedFloat.roundWithAccuracy
  dsimp only
  rw [Nat.zero_shiftLeft]
  obtain ⟨e', first⟩ := shifted (e - (e - Format.binary64.targetExponent (totalExponent 0 e)).toNat)
  obtain ⟨e'', second⟩ := shifted e'
  rw [first]
  exact dif_pos (congrArg (·.1.mantissa) second)

/-! ## 5. Operations -/

section Operations

variable {x y : Float} {p q : ℚ}

theorem Is.fits (hx : Is x q) : Fits q := by
  obtain ⟨ex, rfl⟩ := hx
  generalize unpack x = u at ex ⊢
  cases ex with
  | zero s => exact .inl rfl
  | @finite s m e hm =>
    exact .inr ⟨m, e, hm, by rw [valueOf_finite, abs_signed s (by positivity)]⟩

theorem is_pack_of {u : UnpackedFloat} (h : Exact u ∧ valueOf u = q) : Is (pack u) q :=
  h.2 ▸ is_pack h.1

/-- **`nearest` gives the nearest number.** -/
theorem is_nearest (s : Sign) {m : ℕ} {e : ℤ} (small : m * 2 ^ e ≤ greatest) :
    Is (nearest s m e) (rounded (signed s (m * 2 ^ e))) := by
  rcases Nat.eq_zero_or_pos m with rfl | pos
  · unfold nearest
    rw [round_zero, Nat.cast_zero, zero_mul, signed_zero, rounded_zero]
    exact is_pack (.zero s)
  · exact is_pack_of (round_rounded s pos small)

/-- **A sum is the nearest number.** -/
theorem Is.add_rounded (hx : Is x p) (hy : Is y q) (small : |p + q| ≤ greatest) :
    Is (x + y) (rounded (p + q)) := by
  have exact (fits : Fits (p + q)) : Is (x + y) (rounded (p + q)) := by
    rw [rounded_of_fits fits]
    exact hx.add hy fits
  rcases eq_or_ne p 0 with rfl | hp
  · exact exact (by rw [zero_add]; exact hy.fits)
  rcases eq_or_ne q 0 with rfl | hq
  · exact exact (by rw [add_zero]; exact hx.fits)
  clear exact
  obtain ⟨ex, rfl⟩ := hx
  obtain ⟨ey, rfl⟩ := hy
  refine is_pack_of (u := UnpackedFloat.add Format.binary64 (unpack x) (unpack y)) ?_
  generalize unpack x = u at ex hp small ⊢
  generalize unpack y = v at ey hq small ⊢
  cases ex with
  | zero s => exact absurd rfl hp
  | @finite s m e hm =>
    cases ey with
    | zero s' => exact absurd rfl hq
    | @finite s' m' e' hm' =>
      have sum : ((s.apply (UnpackedFloat.decreaseExponent m e (min e e')).1
            + s'.apply (UnpackedFloat.decreaseExponent m' e' (min e e')).1 : ℤ) : ℚ)
          * 2 ^ (min e e') = s.apply m * 2 ^ e + s'.apply m' * 2 ^ e' := by
        rw [Int.cast_add, add_mul, valueOf_decreaseExponent s (min_le_left e e'),
          valueOf_decreaseExponent s' (min_le_right e e')]
      have nearest := normalize_rounded .positive (sum ▸ small)
      rw [sum] at nearest
      exact nearest

/-- **A difference is the nearest number.** -/
theorem Is.sub_rounded (hx : Is x p) (hy : Is y q) (small : |p - q| ≤ greatest) :
    Is (x - y) (rounded (p - q)) := by
  rw [hx.sub_eq hy, Rat.sub_eq_add_neg]
  exact hx.add_rounded hy.neg (by rwa [← Rat.sub_eq_add_neg])

theorem signed_mul (s s' : Sign) (p q : ℚ) :
    signed (s * s') (p * q) = signed s p * signed s' q := by
  cases s <;> cases s'
  · exact (neg_mul_neg p q).symm
  · exact (neg_mul p q).symm
  · exact (mul_neg p q).symm
  · rfl

/-- The product of two mantissas has places enough. -/
theorem Canonical.mul_le_target {m m' : ℕ} {e e' : ℤ} (h : Canonical m e) (h' : Canonical m' e') :
    e + e' ≤ Format.binary64.targetExponent (totalExponent (m * m') (e + e')) := by
  have bits : (Format.binary64.mantissaBits : ℤ) = 53 := rfl
  have least : Format.binary64.minExponent = -1074 := rfl
  have long (low : 2 ^ 52 ≤ m * m') : 52 ≤ (m * m').log2 :=
    (Nat.le_log2 (Nat.mul_pos h.pos h'.pos).ne').mpr low
  unfold Format.targetExponent totalExponent
  rw [bits, least]
  rcases h.full with full | rfl
  · have := long (full.trans (Nat.le_mul_of_pos_right m h'.pos))
    omega
  · rcases h'.full with full | rfl
    · have := long (full.trans (Nat.le_mul_of_pos_left m' h.pos))
      omega
    · omega

/-- **A product is the nearest number.** -/
theorem Is.mul_rounded (hx : Is x p) (hy : Is y q) (small : |p * q| ≤ greatest) :
    Is (x * y) (rounded (p * q)) := by
  obtain ⟨ex, rfl⟩ := hx
  obtain ⟨ey, rfl⟩ := hy
  refine is_pack_of (u := UnpackedFloat.mul Format.binary64 (unpack x) (unpack y)) ?_
  generalize unpack x = u at ex small ⊢
  generalize unpack y = v at ey small ⊢
  cases ex with
  | zero s =>
    have zero : rounded (valueOf (.zero s) * valueOf v) = 0 := by
      rw [show valueOf (.zero s) = 0 from rfl, zero_mul, rounded_zero]
    rw [zero]
    cases ey <;> exact ⟨.zero _, rfl⟩
  | @finite s m e hm =>
    cases ey with
    | zero s' =>
      rw [show valueOf (.zero s') = 0 from rfl, mul_zero, rounded_zero]
      exact ⟨.zero _, rfl⟩
    | @finite s' m' e' hm' =>
      have product : valueOf (.finite s m e hm.pos) * valueOf (.finite s' m' e' hm'.pos)
          = signed (s * s') ((m * m' : ℕ) * 2 ^ (e + e')) := by
        rw [valueOf_finite, valueOf_finite, ← signed_mul, zpow_add₀ two_ne_zero, Nat.cast_mul,
          mul_mul_mul_comm]
      rw [product] at small ⊢
      rw [abs_signed _ (by positivity)] at small
      exact roundWithAccuracy_exact_rounded _ (Nat.mul_pos hm.pos hm'.pos) (hm.mul_le_target hm')
        small

theorem signed_div (s s' : Sign) (p q : ℚ) :
    signed (s / s') (p / q) = signed s p / signed s' q := by
  cases s <;> cases s'
  · exact (neg_div_neg_eq p q).symm
  · exact (neg_div q p).symm
  · exact (div_neg p).symm
  · rfl

/-- The remainder of a division tells what is left behind the quotient. -/
theorem accuracyOfFraction_eq (n : ℕ) {d : ℕ} (hd : 0 < d) :
    UnpackedFloat.accuracyOfFraction (n % d) d = accuracyOf ((n : ℚ) / d - ⌊(n : ℚ) / d⌋₊) := by
  have positive : (0 : ℚ) < d := Nat.cast_pos.mpr hd
  have rest : (n : ℚ) / d - ⌊(n : ℚ) / d⌋₊ = (n % d : ℕ) / d := by
    have split : (n : ℚ) = d * (n / d : ℕ) + (n % d : ℕ) := by
      exact_mod_cast (Nat.div_add_mod n d).symm
    rw [Nat.floor_div_eq_div]
    generalize n / d = a at split ⊢
    rw [split]
    field_simp
    ring
  rw [rest]
  unfold UnpackedFloat.accuracyOfFraction accuracyOf
  generalize n % d = r
  by_cases zero : r = 0
  · rw [if_pos zero, zero, Nat.cast_zero, zero_div, if_pos rfl]
  · rw [if_neg zero, if_neg (div_ne_zero (Nat.cast_ne_zero.mpr zero) positive.ne')]
    congr 1
    rcases lt_trichotomy (2 * r) d with lt | eq | gt
    · have below : (2 : ℚ) * r < d := by exact_mod_cast lt
      rw [compare_lt_iff_lt.mpr lt, compare_lt_iff_lt.mpr]
      rw [div_lt_div_iff₀ positive two_pos]
      linarith
    · have half : (2 : ℚ) * r = d := by exact_mod_cast eq
      rw [compare_eq_iff_eq.mpr eq, compare_eq_iff_eq.mpr]
      rw [div_eq_div_iff positive.ne' two_ne_zero]
      linarith
    · have above : (d : ℚ) < 2 * r := by exact_mod_cast gt
      rw [compare_gt_iff_gt.mpr gt, compare_gt_iff_gt.mpr]
      rw [div_lt_div_iff₀ two_pos positive]
      linarith

/-- The quotient of two mantissas is given to places enough. -/
theorem quotient_le_target {m m' k : ℕ} {e e' : ℤ} (hm : 0 < m) (hm' : 0 < m')
    (hk : e - e' - k = min (e - e') (Format.binary64.targetExponent
      (totalExponent m e - totalExponent m' e'))) :
    e - e' - k ≤ Format.binary64.targetExponent (totalExponent (m * 2 ^ k / m') (e - e' - k)) := by
  have bits : (Format.binary64.mantissaBits : ℤ) = 53 := rfl
  have least : Format.binary64.minExponent = -1074 := rfl
  unfold Format.targetExponent totalExponent at hk ⊢
  rw [bits, least] at hk ⊢
  by_cases low : e - e' - k ≤ -1074
  · omega
  · -- the dividend has at least 53 places more than the divisor
    have places : m'.log2 + 53 ≤ m.log2 + k := by omega
    have long : 2 ^ 52 ≤ m * 2 ^ k / m' := by
      rw [Nat.le_div_iff_mul_le hm']
      calc 2 ^ 52 * m' ≤ 2 ^ 52 * 2 ^ (m'.log2 + 1) :=
            Nat.mul_le_mul_left _ Nat.lt_log2_self.le
        _ = 2 ^ (m'.log2 + 53) := by ring
        _ ≤ 2 ^ (m.log2 + k) := Nat.pow_le_pow_right two_pos places
        _ = 2 ^ m.log2 * 2 ^ k := pow_add 2 _ _
        _ ≤ m * 2 ^ k := Nat.mul_le_mul_right _ (Nat.log2_self_le hm.ne')
    have := (Nat.le_log2 (Nat.ne_of_gt (lt_of_lt_of_le (by norm_num) long))).mpr long
    omega

/-- **A quotient is the nearest number.** -/
theorem Is.div_rounded (hx : Is x p) (hy : Is y q) (hq : q ≠ 0) (small : |p / q| ≤ greatest) :
    Is (x / y) (rounded (p / q)) := by
  obtain ⟨ex, rfl⟩ := hx
  obtain ⟨ey, rfl⟩ := hy
  refine is_pack_of (u := UnpackedFloat.div Format.binary64 (unpack x) (unpack y)) ?_
  generalize unpack x = u at ex small ⊢
  generalize unpack y = v at ey hq small ⊢
  cases ey with
  | zero s' => exact absurd rfl hq
  | @finite s' m' e' hm' =>
    cases ex with
    | zero s =>
      rw [show valueOf (.zero s) = 0 from rfl, zero_div, rounded_zero]
      exact ⟨.zero _, rfl⟩
    | @finite s m e hm =>
      unfold UnpackedFloat.div UnpackedFloat.divCore
      dsimp only
      generalize aim : min (e - e') (Format.binary64.targetExponent
        (totalExponent m e - totalExponent m' e')) = t
      obtain ⟨k, hk⟩ := Int.le.dest (show t ≤ e - e' by omega)
      have amount : (e - e' - t).toNat = k := by omega
      obtain rfl : t = e - e' - k := by omega
      have target := quotient_le_target hm.pos hm'.pos aim.symm
      have positive : (0 : ℚ) < m' := Nat.cast_pos.mpr hm'.pos
      have longer : (0 : ℚ) < (m * 2 ^ k : ℕ) := by
        exact_mod_cast Nat.mul_pos hm.pos (by positivity)
      have quotient : valueOf (.finite s m e hm.pos) / valueOf (.finite s' m' e' hm'.pos)
          = signed (s / s') ((m * 2 ^ k : ℕ) / m' * 2 ^ (e - e' - k)) := by
        rw [valueOf_finite, valueOf_finite, ← signed_div, zpow_sub₀ two_ne_zero,
          zpow_sub₀ two_ne_zero, zpow_natCast]
        congr 1
        push_cast
        field_simp
      rw [quotient] at small ⊢
      rw [abs_signed _ (by positivity)] at small
      rw [amount, Nat.shiftLeft_eq, accuracyOfFraction_eq _ hm'.pos, rounded_signed]
      have nearest := roundWithAccuracy_rounded (s / s') (div_pos longer positive)
        (by rwa [Nat.floor_div_eq_div]) small
      rwa [Nat.floor_div_eq_div] at nearest ⊢

/-! ## 6. Results that fit -/

theorem Fits.le_greatest (h : Fits q) : |q| ≤ greatest := by
  rcases h with rfl | ⟨m, e, canonical, value⟩
  · rw [abs_zero]
    unfold greatest
    norm_num
  · have lt : (m : ℚ) + 1 ≤ 2 ^ 53 := by exact_mod_cast canonical.lt
    rw [value]
    exact mul_le_mul (by linarith) (zpow_le_zpow_right₀ one_le_two canonical.le') (by positivity)
      (by norm_num)

/-- Below a number of the format, nothing is too great for it. -/
theorem Fits.abs_le_greatest (h : Fits p) (le : |q| ≤ p) : |q| ≤ greatest :=
  le.trans ((le_abs_self p).trans h.le_greatest)

/-- **Numbers of the format are multiples of the least one**, and away from zero of a greater unit. -/
theorem Fits.exists_multiple (h : Fits q) {e : ℤ} (he : e ≤ -1074 ∨ 2 ^ (e + 52) ≤ |q|) :
    ∃ z : ℤ, q = z * 2 ^ e := by
  rcases h with rfl | ⟨m, e', canonical, value⟩
  · exact ⟨0, by rw [Int.cast_zero, zero_mul]⟩
  · have coarse : e ≤ e' := by
      rcases he with least | far
      · exact least.trans canonical.le
      · by_contra fine
        refine far.not_gt ?_
        calc |q| = m * 2 ^ e' := value
          _ < 2 ^ 53 * 2 ^ e' :=
            mul_lt_mul_of_pos_right (by exact_mod_cast canonical.lt) (by positivity)
          _ = 2 ^ (53 + e') := by rw [zpow_add₀ two_ne_zero, zpow_ofNat]
          _ ≤ 2 ^ (e + 52) := zpow_le_zpow_right₀ one_le_two (by omega)
    obtain ⟨k, rfl⟩ := Int.le.dest coarse
    have magnitude : |q| = ((m * 2 ^ k : ℕ) : ℤ) * 2 ^ e := by
      rw [value, zpow_add₀ two_ne_zero, zpow_natCast, Int.cast_natCast, Nat.cast_mul, Nat.cast_pow,
        Nat.cast_two, mul_assoc, mul_comm (2 ^ k)]
    rcases abs_choice q with same | same
    · exact ⟨_, same ▸ magnitude⟩
    · refine ⟨-((m * 2 ^ k : ℕ) : ℤ), ?_⟩
      rw [Int.cast_neg, neg_mul, ← magnitude, same, neg_neg]

/-- **A product that fits is exact.** -/
theorem Is.mul (hx : Is x p) (hy : Is y q) (h : Fits (p * q)) : Is (x * y) (p * q) := by
  have nearest := hx.mul_rounded hy h.le_greatest
  rwa [rounded_of_fits h] at nearest

/-- **A quotient that fits is exact.** -/
theorem Is.div (hx : Is x p) (hy : Is y q) (hq : q ≠ 0) (h : Fits (p / q)) :
    Is (x / y) (p / q) := by
  have nearest := hx.div_rounded hy hq h.le_greatest
  rwa [rounded_of_fits h] at nearest

/-- `nearest` keeps what fits. -/
theorem is_nearest_of_fits (s : Sign) {m : ℕ} {e : ℤ} (h : Fits (m * 2 ^ e)) :
    Is (nearest s m e) (signed s (m * 2 ^ e)) := by
  have exact := is_nearest s ((le_abs_self _).trans h.le_greatest)
  rwa [rounded_signed, rounded_of_fits h] at exact

end Operations

end Relief.Double
