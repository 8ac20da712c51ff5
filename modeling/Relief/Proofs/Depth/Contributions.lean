import Mathlib.Algebra.GroupWithZero.Nat
import Mathlib.Data.List.Flatten
import Mathlib.Data.List.Perm.Basic
import Mathlib.Logic.Function.Basic

/-!
# Contributions

A list of contributions, each under the number of the member who made it, and what each member has
contributed.

* `own`: the contributions of one member, in order;
* `perm_own`: **in another order, all contributions are the members' own, one after the other**;
* `countP_own`: so counting them is counting each member's own;
* `eq_one_of_le_sum`: where everybody counts at most once and all of them count, everybody counts;
* `exists_update`: after one member has changed, the others are as they were.
-/

namespace Relief.Contributions

variable {α : Type}

/-- The contributions of one member. -/
def own (i : Nat) (l : List (Nat × α)) : List α :=
  l.filterMap fun x => if x.1 = i then some x.2 else none

@[simp] theorem own_nil (i : Nat) : own i ([] : List (Nat × α)) = [] := rfl

@[simp] theorem own_append (i : Nat) (l later : List (Nat × α)) :
    own i (l ++ later) = own i l ++ own i later :=
  List.filterMap_append

theorem own_cons (i j : Nat) (a : α) (l : List (Nat × α)) :
    own i ((j, a) :: l) = (if j = i then [a] else []) ++ own i l := by
  by_cases h : j = i <;> simp [own, h]

@[simp] theorem own_singleton_self (i : Nat) (a : α) : own i [(i, a)] = [a] := by
  simp [own]

theorem own_singleton_of_ne {i j : Nat} (h : j ≠ i) (a : α) : own i [(j, a)] = [] := by
  simp [own, h]

/-- A member below `n` is met once on the way there. -/
theorem flatMap_range_ite {n j : Nat} (h : j < n) (a : α) :
    ((List.range n).flatMap fun i => if j = i then [a] else []) = [a] := by
  induction n with
  | zero => omega
  | succ n ih =>
    rw [List.range_succ, List.flatMap_append, List.flatMap_singleton]
    by_cases hj : j = n
    · have before : ((List.range n).flatMap fun i => if j = i then [a] else []) = [] := by
        rw [List.flatMap_eq_nil_iff]
        intro i hi
        have : i < n := List.mem_range.mp hi
        rw [if_neg (by omega)]
      rw [before, if_pos hj, List.nil_append]
    · rw [ih (by omega), if_neg hj, List.append_nil]

/-- **In another order, all contributions are the members' own.** -/
theorem perm_own {n : Nat} {l : List (Nat × α)} (h : ∀ x ∈ l, x.1 < n) :
    (l.map Prod.snd).Perm ((List.range n).flatMap fun i => own i l) := by
  induction l with
  | nil => simp
  | cons x rest ih =>
    obtain ⟨j, a⟩ := x
    have hj : j < n := h (j, a) List.mem_cons_self
    have hr := ih fun x hx => h x (List.mem_cons_of_mem _ hx)
    have split := List.flatMap_append_perm (List.range n) (fun i => if j = i then [a] else [])
      (fun i => own i rest)
    rw [flatMap_range_ite hj] at split
    simp only [own_cons]
    exact (hr.cons a).trans split

/-- **Counting all contributions is counting each member's own.** -/
theorem countP_own {n : Nat} {l : List (Nat × α)} (h : ∀ x ∈ l, x.1 < n) (p : α → Bool) :
    l.countP (fun x => p x.2) = ((List.range n).map fun i => (own i l).countP p).sum := by
  have e := (perm_own h).countP_eq p
  rw [List.countP_map, List.countP_flatMap] at e
  exact e

theorem sum_le_of_le_one {x : Nat → Nat} (hx : ∀ i, x i ≤ 1) (n : Nat) :
    ((List.range n).map x).sum ≤ n := by
  induction n with
  | zero => simp
  | succ n ih =>
    have hn := hx n
    rw [List.range_succ, List.map_append, List.sum_append, List.map_singleton, List.sum_singleton]
    omega

/-- Where everybody counts at most once and as many count as there are, everybody counts. -/
theorem eq_one_of_le_sum {x : Nat → Nat} (hx : ∀ i, x i ≤ 1) {n : Nat}
    (h : n ≤ ((List.range n).map x).sum) : ∀ i < n, x i = 1 := by
  induction n with
  | zero => intro i hi; omega
  | succ n ih =>
    rw [List.range_succ, List.map_append, List.sum_append, List.map_singleton,
      List.sum_singleton] at h
    have hn := hx n
    have hb := sum_le_of_le_one hx n
    intro i hi
    rcases Nat.lt_succ_iff_lt_or_eq.mp hi with hi | rfl
    · exact ih (by omega) i hi
    · omega

/-- **After a change of one member**, something holds of a member if it holds of the one that has
    changed or of one of the others. -/
theorem exists_update {β : Type} {n i : Nat} (hi : i < n) (members : Nat → β) (b : β)
    (p : β → Prop) :
    (∃ j < n, p (Function.update members i b j)) ↔ p b ∨ ∃ j < n, j ≠ i ∧ p (members j) := by
  constructor
  · rintro ⟨j, hj, h⟩
    by_cases e : j = i
    · subst e
      rw [Function.update_self] at h
      exact .inl h
    · rw [Function.update_of_ne e] at h
      exact .inr ⟨j, hj, e, h⟩
  · rintro (h | ⟨j, hj, e, h⟩)
    · exact ⟨i, hi, by rwa [Function.update_self]⟩
    · exact ⟨j, hj, by rwa [Function.update_of_ne e]⟩

theorem exists_split {β : Type} {n i : Nat} (hi : i < n) (members : Nat → β) (p : β → Prop) :
    (∃ j < n, p (members j)) ↔ p (members i) ∨ ∃ j < n, j ≠ i ∧ p (members j) := by
  rw [← exists_update hi members (members i) p, Function.update_eq_self]

end Relief.Contributions
