import Mathlib.Algebra.GroupWithZero.Nat
import Relief.Depth.Sweep

/-!
# Dealing headings

The hands that a sweep is dealt into hold its headings and nothing else.

* `everyNth_perm`: every `n`-th element of a list, once from each of the first `n` places, is the
  whole list in another order;
* `deal_perm`: the hands together are the sweep in another order;
* `length_deal`: there are as many hands as parts, and at least one.
-/

namespace Relief.Sweep

@[simp] theorem everyNth_nil {α : Type} (n i : Nat) : everyNth n i ([] : List α) = [] := by
  cases i <;> rfl

/-- **The lists of every `n`-th element, from the first `n` places, share the list out.** -/
theorem everyNth_perm {α : Type} (n : Nat) (l : List α) :
    ((List.range (n + 1)).flatMap fun i => everyNth (n + 1) i l).Perm l := by
  induction l with
  | nil => simp
  | cons a rest ih =>
    -- the place of the first element goes to the end of the round
    have shift : ((List.range (n + 1)).flatMap fun i => everyNth (n + 1) i (a :: rest)) =
        a :: (everyNth (n + 1) n rest ++
          (List.range n).flatMap fun i => everyNth (n + 1) i rest) := by
      rw [List.range_succ_eq_map, List.flatMap_cons, List.flatMap_map]
      rfl
    rw [shift]
    refine List.Perm.cons a (List.perm_append_comm.trans ?_)
    rw [List.range_succ, List.flatMap_append, List.flatMap_singleton] at ih
    exact ih

/-- **The hands together are the sweep in another order.** -/
theorem deal_perm (s : Sweep) (parts : Nat) : (s.deal parts).flatten.Perm s.headings := by
  obtain ⟨n, hn⟩ : ∃ n, max parts 1 = n + 1 := ⟨max parts 1 - 1, by omega⟩
  rw [deal, hn, ← List.flatMap_def]
  exact everyNth_perm n s.headings

theorem length_deal (s : Sweep) {parts : Nat} (h : 0 < parts) : (s.deal parts).length = parts := by
  rw [deal, List.length_map, List.length_range]
  omega

/-- The hands hold as many headings as the sweep. -/
theorem sum_length_deal (s : Sweep) (parts : Nat) :
    ((s.deal parts).map List.length).sum = s.length := by
  rw [← List.length_flatten]
  exact (s.deal_perm parts).length_eq

end Relief.Sweep
