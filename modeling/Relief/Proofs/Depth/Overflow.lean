import Mathlib.Algebra.BigOperators.Group.List.Basic
import Mathlib.Algebra.Order.BigOperators.Group.List
import Mathlib.Algebra.Order.Ring.Int
import Mathlib.Data.List.Infix
import Relief.Proofs.Depth.Posting

/-!
# Overflow

The sums of a tally do not depend on the order of the visits, but its memory of an overflow does: it
is set as soon as a sum leaves the range of the words, even if later visits bring it back.

* `balance`: what visits add up to in a slot, as an exact integer; `sum_post`: the stored sum is the
  balance, wrapped;
* `Overruns`: whether a balance leaves the range on the way through the visits;
* `overflowed_absorb`: **this is what a tally remembers**;
* `overflowed_every_order`: every order of the visits overruns if and only if a balance is out of
  range at the end;
* `overflowed_no_order`: no order does if and only if what comes in and what goes out fit in the
  range one by one.
-/

namespace Relief

/-- What a visit adds to a slot, as an integer. -/
def Visit.amount (slot : Nat) (v : Visit) : Int :=
  if v.slot = slot then v.value.toInt else 0

namespace Tally

theorem leavesRange_eq_false {sum : Int} :
    leavesRange sum = false ↔ -2 ^ 31 ≤ sum ∧ sum < 2 ^ 31 := by
  simp only [leavesRange, Bool.or_eq_false_iff, decide_eq_false_iff_not]
  omega

theorem leavesRange_eq_true {sum : Int} :
    leavesRange sum = true ↔ sum < -2 ^ 31 ∨ 2 ^ 31 ≤ sum := by
  simp only [leavesRange, Bool.or_eq_true, decide_eq_true_eq]

/-- A word that does not leave the range is what it stores. -/
theorem toInt_ofInt {sum : Int} (h : leavesRange sum = false) : (Int32.ofInt sum).toInt = sum := by
  obtain ⟨low, high⟩ := leavesRange_eq_false.mp h
  exact Int32.toInt_ofInt_of_le low high

theorem amount_range (slot : Nat) (v : Visit) :
    -2 ^ 31 ≤ v.amount slot ∧ v.amount slot < 2 ^ 31 := by
  have low := v.value.le_toInt
  have high := v.value.toInt_lt
  unfold Visit.amount
  split <;> omega

/-! ## 1. Balances -/

/-- What visits add up to in a slot, as an exact integer. -/
def balance (slot : Nat) (visits : List Visit) : Int :=
  (visits.map (Visit.amount slot)).sum

@[simp] theorem balance_nil (slot : Nat) : balance slot [] = 0 := rfl

@[simp] theorem balance_append (slot : Nat) (visits later : List Visit) :
    balance slot (visits ++ later) = balance slot visits + balance slot later := by
  simp only [balance, List.map_append, List.sum_append]

@[simp] theorem balance_singleton (slot : Nat) (v : Visit) : balance slot [v] = v.amount slot := by
  simp only [balance, List.map_singleton, List.sum_singleton]

theorem balance_perm {visits order : List Visit} (h : order.Perm visits) (slot : Nat) :
    balance slot order = balance slot visits :=
  (h.map _).sum_eq

/-- **The stored sum of a slot is its balance, wrapped.** -/
theorem sum_post {e : Extent} {slot : Nat} (h : slot < e.area) (visits : List Visit) :
    (post Visit.value visits (new e).sums)[slot]? = some (Int32.ofInt (balance slot visits)) := by
  induction visits using List.reverseRecOn with
  | nil => simp [post, new, h]
  | append_singleton visits v ih =>
    rw [post_append, balance_append, balance_singleton]
    simp only [post, List.foldl_cons, List.foldl_nil, Array.getElem?_modify] at ih ⊢
    rw [ih]
    by_cases hv : v.slot = slot
    · simp only [if_pos hv, Visit.amount, Option.map_some, Int32.ofInt_add, Int32.ofInt_toInt]
    · simp only [if_neg hv, Visit.amount, Int.add_zero]

/-! ## 2. What a tally remembers -/

/-- Whether a balance leaves the range of the words on the way through some visits. -/
def Overruns (visits : List Visit) : Prop :=
  ∃ slot part, part <+: visits ∧ leavesRange (balance slot part) = true

theorem not_overruns_nil : ¬ Overruns [] := by
  rintro ⟨slot, part, hp, hl⟩
  rw [List.prefix_nil.mp hp, balance_nil] at hl
  exact absurd hl (by decide)

/-- Visits that do not overrun end in range. -/
theorem balance_of_not_overruns {visits : List Visit} (h : ¬ Overruns visits) (slot : Nat) :
    leavesRange (balance slot visits) = false := by
  cases hl : leavesRange (balance slot visits) with
  | false => rfl
  | true => exact absurd ⟨slot, visits, List.prefix_rfl, hl⟩ h

/-- **One more visit** overruns where its own slot does. -/
theorem overruns_concat (visits : List Visit) (v : Visit) :
    Overruns (visits ++ [v]) ↔
      Overruns visits ∨ leavesRange (balance v.slot (visits ++ [v])) = true := by
  constructor
  · rintro ⟨slot, part, hp, hl⟩
    rcases List.prefix_concat_iff.mp hp with rfl | hp
    · by_cases hs : v.slot = slot
      · subst hs
        exact .inr hl
      · rw [balance_append, balance_singleton, Visit.amount, if_neg hs, Int.add_zero] at hl
        exact .inl ⟨slot, visits, List.prefix_rfl, hl⟩
    · exact .inl ⟨slot, part, hp, hl⟩
  · rintro (⟨slot, part, hp, hl⟩ | hl)
    · exact ⟨slot, part, hp.trans (List.prefix_append _ _), hl⟩
    · exact ⟨v.slot, _, List.prefix_rfl, hl⟩

/-- **A sum wraps in the tally of some visits where its balance leaves the range**, unless one has
    left it before. -/
theorem overruns_iff_wraps {t : Tally} {e : Extent} {visits : List Visit}
    (hs : t.sums = post Visit.value visits (new e).sums) {v : Visit} (hv : v.slot < e.area) :
    Overruns (visits ++ [v]) ↔ Overruns visits ∨ t.wraps v = true := by
  rw [overruns_concat]
  by_cases ho : Overruns visits
  · simp only [ho, true_or]
  · have stored : (t.sums[v.slot]?.getD 0).toInt = balance v.slot visits := by
      rw [hs, sum_post hv, Option.getD_some, toInt_ofInt (balance_of_not_overruns ho _)]
    rw [wraps, stored, balance_append, balance_singleton, Visit.amount, if_pos rfl]

theorem overflowed_add (t : Tally) (v : Visit) (h : v.slot < t.extent.area) :
    (t.add v h).overflowed = (t.overflowed || t.wraps v) := by
  rw [add_eq]
  cases hw : t.wraps v <;> simp [addCount, addSum, raise]

/-- A tally that remembers whether its visits overran still does after more of them. -/
theorem Holds.overflowed_absorb {t : Tally} {e : Extent} {visits : List Visit}
    (hold : t.Holds e visits) (ht : t.overflowed = true ↔ Overruns visits) {more : List Visit}
    (h : ∀ v ∈ more, v.slot < e.area) :
    (t.absorb more).1.overflowed = true ↔ Overruns (visits ++ more) := by
  induction more generalizing t visits with
  | nil =>
    rw [List.append_nil]
    exact ht
  | cons v rest ih =>
    obtain ⟨hv, others⟩ := List.forall_mem_cons.mp h
    obtain ⟨hv', first, -⟩ := absorb_cons (t := t) (hold.extent ▸ h)
    rw [first, ← List.singleton_append, ← List.append_assoc]
    refine ih (hold.add v hv') ?_ others
    rw [overflowed_add, Bool.or_eq_true, ht, overruns_iff_wraps hold.sums hv]

/-- **A tally remembers whether the visits overran.** -/
theorem overflowed_absorb {e : Extent} {visits : List Visit} (h : ∀ v ∈ visits, v.slot < e.area) :
    ((new e).absorb visits).1.overflowed = true ↔ Overruns visits := by
  have clear : (new e).overflowed = true ↔ Overruns [] :=
    ⟨fun hf => absurd hf Bool.false_ne_true, fun hf => absurd hf not_overruns_nil⟩
  exact (holds_new e).overflowed_absorb clear h

/-! ## 3. Every order -/

/-- Where a slot adds up to less than one of its visits, another visit takes something away. -/
theorem exists_amount_neg (slot : Nat) {visits : List Visit} {v : Visit} (hv : v ∈ visits)
    (h : balance slot visits < v.amount slot) : ∃ w ∈ visits, w.amount slot < 0 := by
  by_contra never
  have all : ∀ x ∈ visits.map (Visit.amount slot), 0 ≤ x := by
    intro x hx
    obtain ⟨w, hw, rfl⟩ := List.mem_map.mp hx
    exact Int.not_lt.mp fun neg => never ⟨w, hw, neg⟩
  exact absurd h (Int.not_lt.mpr (List.single_le_sum all _ (List.mem_map_of_mem hv)))

/-- Where a slot adds up to more than one of its visits, another visit adds something. -/
theorem exists_amount_pos (slot : Nat) {visits : List Visit} {v : Visit} (hv : v ∈ visits)
    (h : v.amount slot < balance slot visits) : ∃ w ∈ visits, 0 < w.amount slot := by
  by_contra never
  have all : ∀ x ∈ visits.map fun w => -Visit.amount slot w, 0 ≤ x := by
    intro x hx
    obtain ⟨w, hw, rfl⟩ := List.mem_map.mp hx
    have := Int.not_lt.mp fun pos => never ⟨w, hw, pos⟩
    omega
  have single := List.single_le_sum all _ (List.mem_map_of_mem hv)
  have negated : (visits.map fun w => -Visit.amount slot w).sum = -balance slot visits := by
    rw [balance, List.sum_neg, List.map_map]
    rfl
  omega

theorem slot_of_amount_ne {slot : Nat} {v : Visit} (h : v.amount slot ≠ 0) : v.slot = slot := by
  by_contra hs
  exact h (if_neg hs)

/-- **Of visits that end in range, one can come first.** -/
theorem exists_first {before left : List Visit}
    (hb : ∀ slot, leavesRange (balance slot before) = false)
    (ht : ∀ slot, leavesRange (balance slot (before ++ left)) = false) (hne : left ≠ []) :
    ∃ v ∈ left, leavesRange (balance v.slot (before ++ [v])) = false := by
  obtain ⟨v, rest, rfl⟩ := List.exists_cons_of_ne_nil hne
  have hv : v ∈ v :: rest := List.mem_cons_self
  cases hl : leavesRange (balance v.slot (before ++ [v])) with
  | false => exact ⟨v, hv, hl⟩
  | true =>
    have now := leavesRange_eq_false.mp (hb v.slot)
    have total := leavesRange_eq_false.mp (ht v.slot)
    have own := amount_range v.slot v
    rw [balance_append, balance_singleton] at hl
    rw [balance_append] at total
    -- if the visit leads out of the range, one of its slot leads back
    have other : ∃ w ∈ v :: rest, w.slot = v.slot ∧
        leavesRange (balance v.slot before + w.amount v.slot) = false := by
      rcases leavesRange_eq_true.mp hl with below | above
      · obtain ⟨w, hw, pos⟩ := exists_amount_pos v.slot hv (by omega)
        have range := amount_range v.slot w
        exact ⟨w, hw, slot_of_amount_ne (by omega), leavesRange_eq_false.mpr (by omega)⟩
      · obtain ⟨w, hw, neg⟩ := exists_amount_neg v.slot hv (by omega)
        have range := amount_range v.slot w
        exact ⟨w, hw, slot_of_amount_ne (by omega), leavesRange_eq_false.mpr (by omega)⟩
    obtain ⟨w, hw, hs, inRange⟩ := other
    refine ⟨w, hw, ?_⟩
    rw [balance_append, balance_singleton, hs]
    exact inRange

/-- **Visits that end in range have an order that stays in range.** -/
theorem exists_order {before left : List Visit} (hb : ¬ Overruns before)
    (ht : ∀ slot, leavesRange (balance slot (before ++ left)) = false) :
    ∃ order, order.Perm left ∧ ¬ Overruns (before ++ order) := by
  generalize hn : left.length = n
  induction n generalizing before left with
  | zero =>
    rw [List.length_eq_zero_iff.mp hn]
    exact ⟨[], .refl _, by rwa [List.append_nil]⟩
  | succ n ih =>
    obtain ⟨v, hv, first⟩ := exists_first (balance_of_not_overruns hb) ht
      (List.ne_nil_of_length_eq_add_one hn)
    have perm : left.Perm (v :: left.erase v) := List.perm_cons_erase hv
    have next : ¬ Overruns (before ++ [v]) := by
      rw [overruns_concat, first]
      exact fun h => h.elim hb Bool.false_ne_true
    have totals : ∀ slot, leavesRange (balance slot (before ++ [v] ++ left.erase v)) = false := by
      intro slot
      rw [List.append_assoc, List.singleton_append,
        balance_perm (perm.symm.append_left before) slot]
      exact ht slot
    obtain ⟨order, rest, stays⟩ := ih next totals (by rw [List.length_erase_of_mem hv, hn]; rfl)
    refine ⟨v :: order, (rest.cons v).trans perm.symm, ?_⟩
    rwa [List.append_assoc, List.singleton_append] at stays

/-- **Every order of some visits overruns if and only if they end out of range.** -/
theorem overflowed_every_order {e : Extent} {visits : List Visit}
    (h : ∀ v ∈ visits, v.slot < e.area) :
    (∀ order, order.Perm visits → ((new e).absorb order).1.overflowed = true) ↔
      ∃ slot, leavesRange (balance slot visits) = true := by
  constructor
  · intro all
    by_contra never
    have inRange : ∀ slot, leavesRange (balance slot ([] ++ visits)) = false := fun slot =>
      Bool.eq_false_iff.mpr fun hl => never ⟨slot, hl⟩
    obtain ⟨order, perm, stays⟩ := exists_order not_overruns_nil inRange
    exact stays ((overflowed_absorb fun v hv => h v (perm.mem_iff.mp hv)).mp (all order perm))
  · rintro ⟨slot, hl⟩ order perm
    rw [overflowed_absorb fun v hv => h v (perm.mem_iff.mp hv)]
    exact ⟨slot, order, List.prefix_rfl, by rwa [balance_perm perm]⟩

/-! ## 4. No order -/

/-- What the visits that add something add up to in a slot. -/
def income (slot : Nat) (visits : List Visit) : Int :=
  balance slot (visits.filter fun v => 0 < v.value.toInt)

/-- What the visits that take something away add up to in a slot. -/
def outgo (slot : Nat) (visits : List Visit) : Int :=
  balance slot (visits.filter fun v => v.value.toInt < 0)

theorem income_cons (slot : Nat) (v : Visit) (visits : List Visit) :
    income slot (v :: visits) = max (v.amount slot) 0 + income slot visits := by
  unfold income balance Visit.amount
  by_cases hv : 0 < v.value.toInt
  · rw [List.filter_cons_of_pos (by simpa using hv), List.map_cons, List.sum_cons]
    split <;> omega
  · rw [List.filter_cons_of_neg (by simpa using hv)]
    split <;> omega

theorem outgo_cons (slot : Nat) (v : Visit) (visits : List Visit) :
    outgo slot (v :: visits) = min (v.amount slot) 0 + outgo slot visits := by
  unfold outgo balance Visit.amount
  by_cases hv : v.value.toInt < 0
  · rw [List.filter_cons_of_pos (by simpa using hv), List.map_cons, List.sum_cons]
    split <;> omega
  · rw [List.filter_cons_of_neg (by simpa using hv)]
    split <;> omega

/-- **On the way, a balance is between what goes out and what comes in.** -/
theorem balance_between {part visits : List Visit} (h : part.Sublist visits) (slot : Nat) :
    outgo slot visits ≤ balance slot part ∧ balance slot part ≤ income slot visits := by
  induction h with
  | slnil => exact ⟨Int.le_refl 0, Int.le_refl 0⟩
  | @cons part visits v _ ih =>
    rw [outgo_cons, income_cons]
    omega
  | @cons_cons part visits v _ ih =>
    rw [outgo_cons, income_cons, ← List.singleton_append, balance_append, balance_singleton]
    omega

/-- The visits of a kind can come first, and then their balance is one on the way. -/
theorem exists_perm_overruns {visits : List Visit} (p : Visit → Bool) {slot : Nat}
    (h : leavesRange (balance slot (visits.filter p)) = true) :
    ∃ order, order.Perm visits ∧ Overruns order :=
  ⟨_, List.filter_append_perm p visits, slot, _, List.prefix_append _ _, h⟩

/-- **No order of some visits overruns if and only if what goes out and what comes in fit in the
    range one by one.** -/
theorem overflowed_no_order {e : Extent} {visits : List Visit} (h : ∀ v ∈ visits, v.slot < e.area) :
    (∀ order, order.Perm visits → ((new e).absorb order).1.overflowed = false) ↔
      ∀ slot, leavesRange (outgo slot visits) = false ∧ leavesRange (income slot visits) = false := by
  have remembers : ∀ order, order.Perm visits →
      (((new e).absorb order).1.overflowed = false ↔ ¬ Overruns order) := fun order perm => by
    rw [← overflowed_absorb fun v hv => h v (perm.mem_iff.mp hv), Bool.not_eq_true]
  constructor
  · intro calm slot
    have fits : ∀ p : Visit → Bool, leavesRange (balance slot (visits.filter p)) = false := by
      intro p
      cases hl : leavesRange (balance slot (visits.filter p)) with
      | false => rfl
      | true =>
        obtain ⟨order, perm, overruns⟩ := exists_perm_overruns p hl
        exact absurd overruns ((remembers order perm).mp (calm order perm))
    exact ⟨fits _, fits _⟩
  · intro fits order perm
    rw [remembers order perm]
    rintro ⟨slot, part, hp, hl⟩
    obtain ⟨out, inc⟩ := fits slot
    have between := balance_between hp.sublist slot
    have same : outgo slot order = outgo slot visits ∧ income slot order = income slot visits :=
      ⟨balance_perm (perm.filter _) slot, balance_perm (perm.filter _) slot⟩
    rw [leavesRange_eq_false] at out inc
    rw [leavesRange_eq_true] at hl
    omega

end Tally

end Relief
