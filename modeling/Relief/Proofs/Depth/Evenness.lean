import Relief.Proofs.Depth.Refinement
import Mathlib.Data.List.Sort
import Mathlib.Data.Nat.Log

/-!
# How even a plan is

A plan may be broken off after any of its pairs, in the middle of a level too. There the circle is
finer on one side than on the other, and there alone: the pairs so far lie on the marks of the level
that has been begun, and have all the marks of the one before it. So no gap is as small as half of
the mean, and none as large as twice the mean.

* `gaps`, `sum_gaps`: the gaps between numbers around a circle, which go round once;
* `IsNext`: two neighbours on the circle, with nothing between them;
* `le_gap`, `gap_le`: **numbers on marks have wide gaps, numbers on all marks narrow ones**;
* `Sweep.azimuth_on_mark`, `Sweep.exists_azimuth`: on which marks the azimuths are;
* `Sweep.gap_between`: the gaps of the first pairs, from the marks of the two levels;
* `Sweep.prefixes_are_even`: **every prefix of a plan covers the circle evenly**.
-/

namespace Relief

/-! ## 1. Gaps around a circle -/

/-- The differences of successive numbers, up to a last one. -/
def gapsTo (last : ℚ) : ℚ → List ℚ → List ℚ
  | a, [] => [last - a]
  | a, b :: rest => (b - a) :: gapsTo last b rest

/-- The gaps between numbers around a circle: from each of them to the next one, in their order, and
    from the last across the turn to the first. -/
def gaps (turn : ℚ) (numbers : List ℚ) : List ℚ :=
  match numbers.insertionSort (· ≤ ·) with
  | [] => []
  | first :: rest => gapsTo (first + turn) first rest

/-- The four quarters of a turn, in the order in which a plan has them. -/
example : gaps 360 [0, 180, 90, 270] = [90, 90, 90, 90] := by
  decide +kernel

theorem length_gapsTo (last a : ℚ) (rest : List ℚ) :
    (gapsTo last a rest).length = rest.length + 1 := by
  induction rest generalizing a with
  | nil => rfl
  | cons b rest ih => exact congrArg (· + 1) (ih b)

theorem sum_gapsTo (last a : ℚ) (rest : List ℚ) : (gapsTo last a rest).sum = last - a := by
  induction rest generalizing a with
  | nil => exact List.sum_singleton
  | cons b rest ih =>
    rw [gapsTo, List.sum_cons, ih]
    ring

/-- In increasing numbers a difference is that of two between which there is no other. -/
theorem exists_of_mem_gapsTo {last a g : ℚ} {rest : List ℚ}
    (sorted : (a :: rest).Pairwise (· < ·)) (below : ∀ c ∈ a :: rest, c < last)
    (hg : g ∈ gapsTo last a rest) :
    ∃ x ∈ a :: rest, ∃ y, (y ∈ rest ∨ y = last) ∧ x < y ∧ g = y - x ∧
      ∀ c ∈ a :: rest, c ≤ x ∨ y ≤ c := by
  induction rest generalizing a with
  | nil =>
    refine ⟨a, List.mem_singleton_self a, last, .inr rfl, below a List.mem_cons_self,
      List.mem_singleton.mp hg, fun c hc => .inl (List.mem_singleton.mp hc).le⟩
  | cons b rest ih =>
    obtain ⟨first, others⟩ := List.pairwise_cons.mp sorted
    rcases List.mem_cons.mp hg with rfl | hg
    · refine ⟨a, List.mem_cons_self, b, .inl List.mem_cons_self, first b List.mem_cons_self, rfl,
        fun c hc => ?_⟩
      rcases List.mem_cons.mp hc with rfl | hc
      · exact .inl le_rfl
      · rcases List.mem_cons.mp hc with rfl | hc
        · exact .inr le_rfl
        · exact .inr (List.rel_of_pairwise_cons others hc).le
    · obtain ⟨x, hx, y, hy, lt, same, clear⟩ := ih others
        (fun c hc => below c (List.mem_cons_of_mem a hc)) hg
      refine ⟨x, List.mem_cons_of_mem a hx, y, hy.imp_left (List.mem_cons_of_mem b), lt, same,
        fun c hc => ?_⟩
      rcases List.mem_cons.mp hc with rfl | hc
      · exact .inl (first x hx).le
      · exact clear c hc

/-- Two neighbours among numbers around a circle. The second one may be across the turn, and between
    them there is none. -/
structure IsNext (turn : ℚ) (numbers : List ℚ) (x y : ℚ) : Prop where
  mem : x ∈ numbers
  next : y ∈ numbers ∨ y - turn ∈ numbers
  lt : x < y
  clear : ∀ c ∈ numbers, c ≤ x ∨ y ≤ c
  across : ∀ c ∈ numbers, y ≤ c + turn

section Gaps

variable {turn g : ℚ} {numbers : List ℚ}

theorem length_gaps (turn : ℚ) (numbers : List ℚ) :
    (gaps turn numbers).length = numbers.length := by
  have length := List.length_insertionSort (· ≤ ·) numbers
  unfold gaps
  split <;> rename_i sorted <;> rw [← length, sorted]
  · exact length_gapsTo _ _ _

/-- **All gaps together are the circle.** -/
theorem sum_gaps (turn : ℚ) (nonempty : numbers ≠ []) : (gaps turn numbers).sum = turn := by
  unfold gaps
  split <;> rename_i sorted
  · have length := List.length_insertionSort (· ≤ ·) numbers
    rw [sorted] at length
    exact absurd (List.length_eq_zero_iff.mp length.symm) nonempty
  · rw [sum_gapsTo, add_sub_cancel_left]

/-- **Every gap is that of two neighbours.** -/
theorem exists_isNext (distinct : numbers.Nodup) (within : ∀ c ∈ numbers, 0 ≤ c ∧ c < turn)
    (hg : g ∈ gaps turn numbers) : ∃ x y, IsNext turn numbers x y ∧ g = y - x := by
  have order := List.perm_insertionSort (· ≤ ·) numbers
  have le := List.pairwise_insertionSort (· ≤ ·) numbers
  unfold gaps at hg
  split at hg <;> rename_i sorted
  · exact absurd hg List.not_mem_nil
  · rename_i first rest
    rw [sorted] at order le
    have lt : (first :: rest).Pairwise (· < ·) :=
      le.imp₂ (fun _ _ le ne => lt_of_le_of_ne le ne) (order.nodup_iff.mpr distinct)
    have least (c : ℚ) (hc : c ∈ numbers) : first ≤ c := by
      rcases List.mem_cons.mp (order.mem_iff.mpr hc) with rfl | hc
      · exact le_rfl
      · exact List.rel_of_pairwise_cons le hc
    have begin : first ∈ numbers := order.mem_iff.mp List.mem_cons_self
    have low := (within first begin).1
    have turned (c : ℚ) (hc : c ∈ first :: rest) : c < first + turn := by
      have := (within c (order.mem_iff.mp hc)).2
      linarith
    obtain ⟨x, hx, y, hy, apart, same, clear⟩ := exists_of_mem_gapsTo lt turned hg
    refine ⟨x, y, ⟨order.mem_iff.mp hx, ?_, apart, fun c hc => clear c (order.mem_iff.mpr hc),
      fun c hc => ?_⟩, same⟩
    · rcases hy with hy | rfl
      · exact .inl (order.mem_iff.mp (List.mem_cons_of_mem first hy))
      · rw [add_sub_cancel_right]
        exact .inr begin
    · have least := least c hc
      rcases hy with hy | rfl
      · have := turned y (List.mem_cons_of_mem first hy)
        linarith
      · linarith

/-- **Numbers on marks have no gap that is smaller than a mark**, if the circle has whole marks. -/
theorem le_gap {mark : ℚ} (distinct : numbers.Nodup) (within : ∀ c ∈ numbers, 0 ≤ c ∧ c < turn)
    (positive : 0 < mark) {round : ℕ} (whole : turn = round * mark)
    (on : ∀ c ∈ numbers, ∃ k : ℕ, c = k * mark) (hg : g ∈ gaps turn numbers) : mark ≤ g := by
  obtain ⟨x, y, next, rfl⟩ := exists_isNext distinct within hg
  obtain ⟨k, rfl⟩ := on x next.mem
  obtain ⟨l, rfl⟩ : ∃ l : ℕ, y = l * mark := by
    rcases next.next with hy | hy
    · exact on y hy
    · obtain ⟨l, hl⟩ := on _ hy
      refine ⟨l + round, ?_⟩
      push_cast
      linarith
  have lt : (k : ℚ) < l := lt_of_mul_lt_mul_right next.lt positive.le
  have more : (k : ℚ) + 1 ≤ l := by exact_mod_cast lt
  have := mul_le_mul_of_nonneg_right more positive.le
  linarith

/-- **Numbers on all marks have no gap that is greater than a mark.** -/
theorem gap_le {mark : ℚ} (distinct : numbers.Nodup) (within : ∀ c ∈ numbers, 0 ≤ c ∧ c < turn)
    (positive : 0 < mark) {round : ℕ} (whole : turn = round * mark)
    (all : ∀ k < round, (k : ℚ) * mark ∈ numbers) (hg : g ∈ gaps turn numbers) : g ≤ mark := by
  obtain ⟨x, y, next, rfl⟩ := exists_isNext distinct within hg
  obtain ⟨low, high⟩ := within x next.mem
  -- the first mark after `x`
  have before := Nat.floor_le (div_nonneg low positive.le)
  have after := Nat.lt_floor_add_one (x / mark)
  have inside : x / mark < round := (div_lt_iff₀ positive).mpr (whole ▸ high)
  generalize ⌊x / mark⌋₊ = k at before after
  have early : k < round := Nat.cast_lt.mp (before.trans_lt inside)
  rw [le_div_iff₀ positive] at before
  rw [div_lt_iff₀ positive] at after
  rcases Nat.lt_or_ge (k + 1) round with more | full
  · have mark := next.clear _ (all (k + 1) more)
    push_cast at mark
    rcases mark with le | le <;> linarith
  · -- it is the mark zero of the next turn
    have last : round = k + 1 := by omega
    have zero := next.across _ (all 0 (by omega))
    rw [whole, last] at zero
    push_cast at zero
    linarith

end Gaps

/-! ## 2. Marks -/

/-- The direction of a heading, which is exact. -/
def Heading.direction (h : Heading) : ℚ :=
  Double.valueOf (Double.unpack h.degrees)

namespace Sweep

open Double (Is)

/-- **The azimuths below a level are on its marks.** -/
theorem azimuth_on_mark {r n : ℕ} (hn : n < 2 ^ r) : ∃ k : ℕ, azimuth n = k * (180 / 2 ^ r) := by
  induction r with
  | zero =>
    obtain rfl : n = 0 := by omega
    exact ⟨0, by norm_num [azimuth]⟩
  | succ r ih =>
    rw [pow_succ] at hn
    rcases Nat.lt_or_ge n (2 ^ r) with before | new
    · obtain ⟨k, mark⟩ := ih before
      refine ⟨2 * k, ?_⟩
      rw [mark, pow_succ]
      push_cast
      field_simp
    · obtain ⟨j, rfl⟩ := Nat.le.dest new
      refine ⟨2 * j + 1, ?_⟩
      rw [azimuth_eq (by omega), pow_succ]
      push_cast
      field_simp
      ring

/-- **All marks of a level are azimuths below it.** -/
theorem exists_azimuth {r k : ℕ} (hk : k < 2 ^ r) : ∃ n < 2 ^ r, azimuth n = k * (180 / 2 ^ r) := by
  induction r generalizing k with
  | zero =>
    obtain rfl : k = 0 := by omega
    exact ⟨0, by norm_num, by norm_num [azimuth]⟩
  | succ r ih =>
    rw [pow_succ] at hk ⊢
    rcases Nat.even_or_odd' k with ⟨j, rfl | rfl⟩
    · obtain ⟨n, hn, mark⟩ := ih (k := j) (by omega)
      refine ⟨n, by omega, ?_⟩
      rw [mark, pow_succ]
      push_cast
      field_simp
    · refine ⟨2 ^ r + j, by omega, ?_⟩
      rw [azimuth_eq (by omega), pow_succ]
      push_cast
      field_simp
      ring

/-- The directions of the first pairs. -/
def directions (count : ℕ) : List ℚ :=
  (List.range count).flatMap fun n => [azimuth n, azimuth n + 180]

variable {count : ℕ} {d : ℚ}

theorem mem_directions :
    d ∈ directions count ↔ ∃ n < count, d = azimuth n ∨ d = azimuth n + 180 := by
  simp [directions]

theorem direction_pairs (small : count ≤ 2 ^ 32) :
    ((List.range count).flatMap pair).map Heading.direction = directions count := by
  rw [List.map_flatMap]
  refine List.flatMap_congr fun n hn => ?_
  have hn := (List.mem_range.mp hn).trans_le small
  exact congrArg₂ (fun a b => [a, b]) (is_degrees hn).value (is_degrees_add_180 hn).value

theorem nodup_directions (count : ℕ) : (directions count).Nodup := by
  refine List.nodup_flatMap.mpr ⟨fun n _ => by simp, List.nodup_range.imp fun {n m} ne d hd hd' => ?_⟩
  have := azimuth_nonneg n
  have := azimuth_nonneg m
  have := azimuth_lt n
  have := azimuth_lt m
  have same : azimuth n = azimuth m := by
    simp only [List.mem_cons, List.not_mem_nil, or_false] at hd hd'
    rcases hd with rfl | rfl <;> rcases hd' with h | h <;> linarith
  exact ne (azimuth_injective same)

theorem directions_within (hd : d ∈ directions count) : 0 ≤ d ∧ d < 360 := by
  obtain ⟨n, -, rfl | rfl⟩ := mem_directions.mp hd
  all_goals
    have := azimuth_nonneg n
    have := azimuth_lt n
    constructor <;> linarith

/-- A turn has twice as many marks of a level as there are azimuths below it. -/
theorem turn_eq (r : ℕ) : (360 : ℚ) = (2 * 2 ^ r : ℕ) * (180 / 2 ^ r) := by
  push_cast
  field_simp
  norm_num

/-- **The gaps of the first pairs**: from the marks of the level that has been begun to those of the
    last one that is full. -/
theorem gap_between {r s : ℕ} (full : 2 ^ r ≤ count) (begun : count ≤ 2 ^ s) {g : ℚ}
    (hg : g ∈ gaps 360 (directions count)) : 180 / 2 ^ s ≤ g ∧ g ≤ 180 / 2 ^ r := by
  have half (t : ℕ) : (180 : ℚ) = (2 ^ t : ℕ) * (180 / 2 ^ t) := by
    push_cast
    field_simp
  constructor
  · refine le_gap (nodup_directions count) (fun _ => directions_within) (by positivity) (turn_eq s)
      (fun d hd => ?_) hg
    obtain ⟨n, hn, place⟩ := mem_directions.mp hd
    obtain ⟨k, mark⟩ := azimuth_on_mark (hn.trans_le begun)
    rcases place with rfl | rfl
    · exact ⟨k, mark⟩
    · refine ⟨k + 2 ^ s, ?_⟩
      rw [mark, Nat.cast_add, add_mul, ← half s]
  · refine gap_le (nodup_directions count) (fun _ => directions_within) (by positivity) (turn_eq r)
      (fun k hk => mem_directions.mpr ?_) hg
    rcases Nat.lt_or_ge k (2 ^ r) with first | second
    · obtain ⟨n, hn, mark⟩ := exists_azimuth first
      exact ⟨n, hn.trans_le full, .inl mark.symm⟩
    · obtain ⟨j, rfl⟩ := Nat.le.dest second
      obtain ⟨n, hn, mark⟩ := exists_azimuth (r := r) (k := j) (by omega)
      refine ⟨n, hn.trans_le full, .inr ?_⟩
      rw [mark, Nat.cast_add, add_mul, ← half r, add_comm]

/-- The level that is fine enough for a number has not twice as many azimuths as are wanted. -/
theorem two_pow_clog_lt (nonzero : count ≠ 0) : 2 ^ Nat.clog 2 count < 2 * count := by
  rcases eq_or_ne count 1 with rfl | more
  · decide
  · have := Nat.pow_pred_clog_lt_self one_lt_two (x := count) (by omega)
    have level : 0 < Nat.clog 2 count := Nat.clog_pos one_lt_two (by omega)
    obtain ⟨r, hr⟩ := Nat.exists_eq_succ_of_ne_zero level.ne'
    rw [hr, Nat.pred_succ] at this
    rw [hr, pow_succ]
    omega

/-- **The first pairs cover the circle evenly**: no gap is half of the mean or less, and none twice
    the mean or more. -/
theorem gap_of_directions (nonzero : count ≠ 0) {g : ℚ} (hg : g ∈ gaps 360 (directions count)) :
    360 / (2 * count : ℕ) / 2 < g ∧ g < 2 * (360 / (2 * count : ℕ)) := by
  have full := Nat.pow_log_le_self 2 nonzero
  have next := Nat.lt_pow_succ_log_self one_lt_two count
  obtain ⟨low, high⟩ := gap_between full (Nat.le_pow_clog one_lt_two count) hg
  have positive : (0 : ℚ) < count := Nat.cast_pos.mpr (Nat.pos_of_ne_zero nonzero)
  have fine : (2 ^ Nat.clog 2 count : ℚ) < 2 * count := by
    exact_mod_cast two_pow_clog_lt nonzero
  have coarse : (count : ℚ) < 2 * 2 ^ Nat.log 2 count := by
    rw [pow_succ, mul_comm] at next
    exact_mod_cast next
  push_cast
  constructor
  · calc (360 : ℚ) / (2 * count) / 2 = 180 / (2 * count) := by ring
      _ < 180 / 2 ^ Nat.clog 2 count := div_lt_div_of_pos_left (by norm_num) (by positivity) fine
      _ ≤ g := low
  · calc g ≤ 180 / 2 ^ Nat.log 2 count := high
      _ = 360 / (2 * 2 ^ Nat.log 2 count) := by
        field_simp
        norm_num
      _ < 360 / count := div_lt_div_of_pos_left (by norm_num) positive coarse
      _ = 2 * (360 / (2 * count)) := by
        field_simp

/-! ## 3. Prefixes -/

/-- A prefix of pairs that breaks no pair up is made of the first ones. -/
theorem eq_pairs_of_prefix {p : List Heading} (first : p <+: (List.range count).flatMap pair)
    (even : Even p.length) :
    ∃ n ≤ count, p.length = 2 * n ∧ p = (List.range n).flatMap pair := by
  obtain ⟨n, length⟩ := even_iff_two_dvd.mp even
  have few := first.length_le
  rw [length_pairs, length] at few
  have le : n ≤ count := by omega
  have others : (List.range n).flatMap pair <+: (List.range count).flatMap pair := pairs_prefix le
  have pairs := List.prefix_of_prefix_length_le first others (by rw [length_pairs, length])
  exact ⟨n, le, length, pairs.eq_of_length (by rw [length_pairs, length])⟩

/-- **Every prefix of a plan covers the circle evenly**, if no counter can wrap and no pair is broken
    up. The directions of its headings are exact, as many as there are gaps, and the gaps go round
    once. **Each gap between neighbours is greater than half of the mean and less than twice the
    mean**, the one across the turn too. -/
theorem prefixes_are_even (e : Extent) (quality : Float32)
    (small : e.width.toNat + e.height.toNat < 2 ^ 32) {p : List Heading}
    (first : p <+: (plan e quality).headings) (nonempty : p ≠ []) (even : Even p.length) :
    (∀ h ∈ p, Is h.degrees h.direction ∧ 0 ≤ h.direction ∧ h.direction < 360) ∧
      (gaps 360 (p.map Heading.direction)).length = p.length ∧
      (gaps 360 (p.map Heading.direction)).sum = 360 ∧
      ∀ gap ∈ gaps 360 (p.map Heading.direction),
        360 / p.length / 2 < gap ∧ gap < 2 * (360 / p.length) := by
  have few : total e quality / 2 ≤ 2 ^ 32 := by
    have := total_le e quality
    unfold maximum at this
    omega
  rw [headings_plan small quality] at first
  obtain ⟨n, le, length, pairs⟩ := eq_pairs_of_prefix first even
  have values : p.map Heading.direction = directions n := by
    rw [pairs, direction_pairs (le.trans few)]
  have nonzero : n ≠ 0 := by
    rintro rfl
    exact nonempty pairs
  refine ⟨fun h mem => ⟨?_, ?_⟩, ?_, ?_, fun gap hg => ?_⟩
  · rw [pairs, List.mem_flatMap] at mem
    obtain ⟨m, hm, mem⟩ := mem
    have hm : m < 2 ^ 32 := (List.mem_range.mp hm).trans_le (le.trans few)
    rcases is_of_mem_pair hm mem with is | is
    · exact ⟨is.exact, rfl⟩
    · exact ⟨is.exact, rfl⟩
  · exact directions_within (values ▸ List.mem_map_of_mem mem)
  · rw [length_gaps, List.length_map]
  · exact sum_gaps 360 (mt List.map_eq_nil_iff.mp nonempty)
  · rw [values] at hg
    rw [length]
    exact gap_of_directions nonzero hg

/-- The first three pairs for four pixels by three end in the middle of a level, and no gap between
    their headings is as small as thirty degrees or as large as a hundred and twenty. -/
theorem three_pairs_are_even :
    (4 : UInt32).toNat + (3 : UInt32).toNat < 2 ^ 32 ∧
      (List.range 3).flatMap pair <+: (plan ⟨4, 3⟩ 1).headings ∧
      ((List.range 3).flatMap pair).length = 6 ∧
      ∀ gap ∈ gaps 360 (((List.range 3).flatMap pair).map Heading.direction),
        30 < gap ∧ gap < 120 := by
  have small : (4 : UInt32).toNat + (3 : UInt32).toNat < 2 ^ 32 := by decide
  have first : (List.range 3).flatMap pair <+: (plan ⟨4, 3⟩ 1).headings := by
    rw [headings_plan small 1, total_full]
    exact pairs_prefix (by decide)
  have length : ((List.range 3).flatMap pair).length = 6 := length_pairs 3
  obtain ⟨-, -, -, even⟩ := prefixes_are_even ⟨4, 3⟩ 1 small first
    (List.ne_nil_of_length_eq_add_one length) (by rw [length]; decide)
  refine ⟨small, first, length, fun gap hg => ?_⟩
  have bounds := even gap hg
  rw [length] at bounds
  norm_num at bounds
  exact bounds

end Sweep

end Relief
