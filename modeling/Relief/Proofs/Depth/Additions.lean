import Mathlib.Data.Int.ModEq
import Mathlib.Logic.Function.Basic
import Relief.Proofs.Depth.Contributions
import Relief.Proofs.Depth.Overflow

/-!
# Additions to a tally

What a tally holds after some visits, whatever it held before, and what it says about it. The words
wrap, so a stored sum alone does not tell whether it is the exact one; the memory of an overflow
does.

* `sum_absorb`, `count_absorb`: **sums and counts are the exact ones, wrapped**;
* `Leaves`: whether a sum leaves the range of the words at one of the visits; `overflowed_iff`:
  **this is what is remembered**;
* `toInt_sum_absorb`: where it does not happen, the stored sums are the exact ones;
* `Caller`, `Step`, `Run`: callers who share a tally, any of whom may take the next access to it;
* `Run.linear`: **what they leave is what their visits leave one after the other**, in the order in
  which the sums have been added;
* `overflow_is_exact`: all of it, for tallies that nothing has been added to yet.
-/

namespace Relief.Tally

open Contributions

variable {t : Tally} {visits : List Visit}

/-! ## 1. Sums and counts -/

theorem eq_of_parts {t u : Tally} (he : t.extent = u.extent) (hs : t.sums = u.sums)
    (hc : t.counts = u.counts) (ho : t.overflowed = u.overflowed) : t = u := by
  cases t
  cases u
  cases he
  cases hs
  cases hc
  cases ho
  rfl

/-- Posting visits adds their balance to each slot. -/
theorem post_value (visits : List Visit) (slots : Array Int32) (slot : Nat) :
    (post Visit.value visits slots)[slot]?
      = slots[slot]?.map fun sum => .ofInt (sum.toInt + balance slot visits) := by
  induction visits generalizing slots with
  | nil => simp [post]
  | cons v rest ih =>
    show (post Visit.value rest (slots.modify v.slot (· + v.value)))[slot]? = _
    have whole : balance slot (v :: rest) = v.amount slot + balance slot rest := by
      rw [← List.singleton_append, balance_append, balance_singleton]
    rw [ih, Array.getElem?_modify, whole]
    by_cases here : v.slot = slot
    · rw [if_pos here, Option.map_map, Visit.amount, if_pos here]
      congr 1
      funext sum
      show Int32.ofInt ((sum + v.value).toInt + _) = _
      rw [← Int.add_assoc, Int32.ofInt_add, Int32.ofInt_add (sum.toInt + _), Int32.ofInt_toInt,
        Int32.ofInt_add, Int32.ofInt_toInt, Int32.ofInt_toInt]
    · rw [if_neg here, Visit.amount, if_neg here, Int.zero_add]

/-- **A stored sum is the exact one, wrapped.** -/
theorem sum_absorb (h : ∀ v ∈ visits, v.slot < t.extent.area) (slot : Nat) :
    (t.absorb visits).1.sums[slot]?
      = t.sums[slot]?.map fun sum => .ofInt (sum.toInt + balance slot visits) := by
  rw [sums_absorb h, post_value]

/-- **So is a stored count.** -/
theorem count_absorb (h : ∀ v ∈ visits, v.slot < t.extent.area) (slot : Nat) :
    (t.absorb visits).1.counts[slot]?
      = t.counts[slot]?.map (· + .ofNat (visits.countP (·.slot == slot))) := by
  rw [counts_absorb h, post_one]

/-! ## 2. What is remembered -/

/-- A sum leaves the range of the words at one of the visits, taken one after the other: what is
    stored and what is added to it have an exact sum that is out of range. -/
def Leaves (t : Tally) (visits : List Visit) : Prop :=
  ∃ before v after, visits = before ++ v :: after ∧
    ∃ sum, (t.absorb before).1.sums[v.slot]? = some sum ∧
      (sum.toInt + v.value.toInt < -2 ^ 31 ∨ 2 ^ 31 ≤ sum.toInt + v.value.toInt)

theorem not_leaves_nil (t : Tally) : ¬ t.Leaves [] := by
  rintro ⟨before, v, after, e, _⟩
  exact List.cons_ne_nil v after (List.append_eq_nil_iff.mp e.symm).2

/-- Whether a sum wraps, said of what is stored. -/
theorem wraps_iff {v : Visit} (hv : v.slot < t.extent.area) :
    t.wraps v = true ↔ ∃ sum, t.sums[v.slot]? = some sum ∧
      (sum.toInt + v.value.toInt < -2 ^ 31 ∨ 2 ^ 31 ≤ sum.toInt + v.value.toInt) := by
  have stored := Array.getElem?_eq_getElem (show v.slot < t.sums.size from t.size_sums.symm ▸ hv)
  rw [wraps, stored, Option.getD_some, leavesRange_eq_true]
  constructor
  · intro out
    exact ⟨_, rfl, out⟩
  · rintro ⟨sum, e, out⟩
    rwa [Option.some.inj e]

/-- **The first visit, and then the others.** -/
theorem leaves_cons {v : Visit} {rest : List Visit} (hv : v.slot < t.extent.area) :
    t.Leaves (v :: rest) ↔ t.wraps v = true ∨ (t.add v hv).Leaves rest := by
  constructor
  · rintro ⟨before, w, after, e, out⟩
    cases before with
    | nil =>
      obtain ⟨rfl, rfl⟩ := List.cons.inj e
      exact .inl ((wraps_iff hv).mpr out)
    | cons u before =>
      obtain ⟨rfl, rfl⟩ := List.cons.inj e
      rw [absorb, dif_pos hv] at out
      exact .inr ⟨before, w, after, rfl, out⟩
  · rintro (out | ⟨before, w, after, rfl, out⟩)
    · exact ⟨[], v, rest, rfl, (wraps_iff hv).mp out⟩
    · refine ⟨v :: before, w, after, rfl, ?_⟩
      rwa [absorb, dif_pos hv]

/-- **One visit more** leaves the range where it wraps what the others have left. -/
theorem leaves_concat (h : ∀ v ∈ visits, v.slot < t.extent.area) {v : Visit}
    (hv : v.slot < t.extent.area) :
    t.Leaves (visits ++ [v]) ↔ t.Leaves visits ∨ (t.absorb visits).1.wraps v = true := by
  induction visits generalizing t with
  | nil =>
    rw [List.nil_append, leaves_cons hv, or_comm]
    exact or_congr (iff_of_false (not_leaves_nil _) (not_leaves_nil _)) Iff.rfl
  | cons w rest ih =>
    obtain ⟨hw, first, others⟩ := absorb_cons h
    rw [List.cons_append, leaves_cons hw, leaves_cons hw, first, or_assoc]
    refine or_congr_right (ih others ?_)
    rwa [extent_add]

/-- **What is remembered** is that a sum left the range. -/
theorem overflowed_iff (h : ∀ v ∈ visits, v.slot < t.extent.area) :
    (t.absorb visits).1.overflowed = true ↔ t.overflowed = true ∨ t.Leaves visits := by
  induction visits generalizing t with
  | nil => exact (or_iff_left (not_leaves_nil t)).symm
  | cons v rest ih =>
    obtain ⟨hv, first, others⟩ := absorb_cons h
    rw [first, ih others, overflowed_add, Bool.or_eq_true, leaves_cons hv, or_assoc]

/-- **Where no sum leaves the range, the stored sums are the exact ones.** -/
theorem toInt_sum_absorb (h : ∀ v ∈ visits, v.slot < t.extent.area) (inside : ¬ t.Leaves visits)
    {slot : Nat} {sum : Int32} (hs : t.sums[slot]? = some sum) :
    ∃ after, (t.absorb visits).1.sums[slot]? = some after ∧
      after.toInt = sum.toInt + balance slot visits := by
  induction visits generalizing t sum with
  | nil => exact ⟨sum, hs, (Int.add_zero _).symm⟩
  | cons v rest ih =>
    obtain ⟨hv, first, named⟩ := absorb_cons h
    obtain ⟨stays, later⟩ := not_or.mp fun out => inside ((leaves_cons hv).mpr out)
    have whole : balance slot (v :: rest) = v.amount slot + balance slot rest := by
      rw [← List.singleton_append, balance_append, balance_singleton]
    rw [first, whole, ← Int.add_assoc]
    by_cases here : v.slot = slot
    · subst here
      have next : (t.add v hv).sums[v.slot]? = some (sum + v.value) := by
        rw [sums_add, Array.getElem?_modify, if_pos rfl, hs]
        rfl
      have exact : (sum + v.value).toInt = sum.toInt + v.amount v.slot := by
        rw [wraps, hs, Option.getD_some, Bool.not_eq_true] at stays
        rw [Visit.amount, if_pos rfl, ← toInt_ofInt stays, Int32.ofInt_add, Int32.ofInt_toInt,
          Int32.ofInt_toInt]
      rw [← exact]
      exact ih named later next
    · have next : (t.add v hv).sums[slot]? = some sum := by
        rw [sums_add, Array.getElem?_modify, if_neg here, hs]
      rw [Visit.amount, if_neg here, Int.add_zero]
      exact ih named later next

/-! ## 3. Callers who share a tally -/

/-- Where a caller stands within an addition. -/
inductive Standing where
  /-- Between two additions. -/
  | between
  /-- A sum has wrapped, and the tally is to be told of it. -/
  | telling (v : Visit)
  /-- The count is still to be added. -/
  | counting (v : Visit)
  deriving DecidableEq

/-- The visit whose sum has been added and whose count has not. -/
def Standing.uncounted? : Standing → Option Visit
  | between => none
  | telling v => some v
  | counting v => some v

/-- Whether the tally is to be told of a sum that has wrapped. -/
def Standing.tells : Standing → Prop
  | telling _ => True
  | _ => False

/-- A caller: the visits that are still to be added, and the standing within the last one. -/
structure Caller where
  todo : List Visit
  standing : Standing
  deriving DecidableEq

/-- Callers who share a tally. -/
structure Party where
  callers : Nat → Caller
  tally : Tally

/-- The party after an access of one of them. -/
def Party.after (p : Party) (i : Nat) (c : Caller) (t : Tally) : Party :=
  ⟨Function.update p.callers i c, t⟩

theorem Party.callers_after_self (p : Party) (i : Nat) (c : Caller) (t : Tally) :
    (p.after i c t).callers i = c :=
  Function.update_self ..

theorem Party.callers_after_of_ne (p : Party) {i j : Nat} (h : j ≠ i) (c : Caller) (t : Tally) :
    (p.after i c t).callers j = p.callers j :=
  Function.update_of_ne h ..

/-- One access to the tally. -/
inductive Access where
  | sum (v : Visit)
  | tell
  | count (v : Visit)

/-- The visit whose sum is added. -/
def Access.summed? : Access → Option Visit
  | sum v => some v
  | _ => none

/-- The visit whose count is added. -/
def Access.counted? : Access → Option Visit
  | count v => some v
  | _ => none

/-- The caller's access to the sum of the next visit finds what is stored and adds to it at once;
    if that wraps, the tally is told of it, and then the count is added. Others may come between. -/
inductive Step (n : Nat) : Party → Nat × Access → Party → Prop where
  | sum (p : Party) (i : Nat) (v : Visit) (rest : List Visit) (hi : i < n)
      (h : p.callers i = ⟨v :: rest, .between⟩) (hv : v.slot < p.tally.extent.area) :
      Step n p (i, .sum v)
        (p.after i ⟨rest, if p.tally.wraps v then .telling v else .counting v⟩ (p.tally.addSum v))
  | tell (p : Party) (i : Nat) (v : Visit) (rest : List Visit) (hi : i < n)
      (h : p.callers i = ⟨rest, .telling v⟩) :
      Step n p (i, .tell) (p.after i ⟨rest, .counting v⟩ p.tally.raise)
  | count (p : Party) (i : Nat) (v : Visit) (rest : List Visit) (hi : i < n)
      (h : p.callers i = ⟨rest, .counting v⟩) :
      Step n p (i, .count v) (p.after i ⟨rest, .between⟩ (p.tally.addCount v))

/-- Accesses of `n` callers, one after the other. -/
inductive Run (n : Nat) (p : Party) : List (Nat × Access) → Party → Prop where
  | rest : Run n p [] p
  | step {p' p'' : Party} {trace : List (Nat × Access)} {a : Nat × Access} (h : Run n p trace p')
      (hs : Step n p' a p'') : Run n p (trace ++ [a]) p''

/-- Callers who have not added anything yet. -/
def Party.begin (t : Tally) (programs : Nat → List Visit) : Party :=
  ⟨fun i => ⟨programs i, .between⟩, t⟩

/-- Nobody has anything left to do. -/
def Party.IsDone (n : Nat) (p : Party) : Prop :=
  ∀ i < n, p.callers i = ⟨[], .between⟩

/-- The visits whose sums have been added, each under the number of its caller, in that order. -/
def summed (trace : List (Nat × Access)) : List (Nat × Visit) :=
  trace.filterMap fun a => a.2.summed?.map (a.1, ·)

/-- The visits whose counts have been added, likewise. -/
def counted (trace : List (Nat × Access)) : List (Nat × Visit) :=
  trace.filterMap fun a => a.2.counted?.map (a.1, ·)

theorem summed_concat (trace : List (Nat × Access)) (a : Nat × Access) :
    summed (trace ++ [a]) = summed trace ++ (a.2.summed?.map (a.1, ·)).toList := by
  rw [summed, List.filterMap_append]
  cases h : a.2.summed? <;> simp [h, summed]

theorem counted_concat (trace : List (Nat × Access)) (a : Nat × Access) :
    counted (trace ++ [a]) = counted trace ++ (a.2.counted?.map (a.1, ·)).toList := by
  rw [counted, List.filterMap_append]
  cases h : a.2.counted? <;> simp [h, counted]

/-- A caller has added the sums of the first visits of its program, and their counts but for the one
    that it is at. -/
structure Caller.Matches (c : Caller) (program sums counts : List Visit) : Prop where
  todo : sums ++ c.todo = program
  uncounted : counts ++ c.standing.uncounted?.toList = sums

/-- **What callers have left in a tally after some accesses.** -/
structure Keeps (n : Nat) (t : Tally) (programs : Nat → List Visit) (trace : List (Nat × Access))
    (p : Party) : Prop where
  extent : p.tally.extent = t.extent
  within : ∀ a ∈ trace, a.1 < n
  named : ∀ x ∈ summed trace, x.2.slot < t.extent.area
  callers : ∀ i, (p.callers i).Matches (programs i) (own i (summed trace)) (own i (counted trace))
  sums : p.tally.sums = post Visit.value ((summed trace).map Prod.snd) t.sums
  counts : p.tally.counts = post (fun _ => 1) ((counted trace).map Prod.snd) t.counts
  overflowed : (p.tally.overflowed = true ∨ ∃ i < n, (p.callers i).standing.tells) ↔
    t.overflowed = true ∨ t.Leaves ((summed trace).map Prod.snd)

theorem keeps_begin (n : Nat) (t : Tally) (programs : Nat → List Visit) :
    Keeps n t programs [] (.begin t programs) where
  extent := rfl
  within _ h := absurd h List.not_mem_nil
  named _ h := absurd h List.not_mem_nil
  callers _ := ⟨rfl, rfl⟩
  sums := rfl
  counts := rfl
  overflowed := by
    refine or_congr_right ⟨?_, fun h => absurd h (not_leaves_nil t)⟩
    rintro ⟨_, _, tells⟩
    exact tells.elim

section Steps

variable {n : Nat} {programs : Nat → List Visit} {trace : List (Nat × Access)} {p : Party}
variable {i : Nat} {v : Visit} {rest : List Visit}

/-- An access of one caller changes nothing about the others. -/
theorem Keeps.callers_after (h : Keeps n t programs trace p) {a : Access} {c : Caller}
    (u : Tally) (hc : c.Matches (programs i) (own i (summed trace) ++ a.summed?.toList)
      (own i (counted trace) ++ a.counted?.toList)) (j : Nat) :
    ((p.after i c u).callers j).Matches (programs j) (own j (summed (trace ++ [(i, a)])))
      (own j (counted (trace ++ [(i, a)]))) := by
  rw [summed_concat, counted_concat, own_append, own_append]
  by_cases hj : i = j
  · subst hj
    have own_toList : ∀ x : Option Visit, own i (x.map (i, ·)).toList = x.toList := fun x => by
      cases x <;> simp
    rw [own_toList, own_toList, Party.callers_after_self]
    exact hc
  · have own_toList : ∀ x : Option Visit, own j (x.map (i, ·)).toList = [] := fun x => by
      cases x <;> simp [own_singleton_of_ne hj]
    rw [own_toList, own_toList, p.callers_after_of_ne (Ne.symm hj), List.append_nil,
      List.append_nil]
    exact h.callers j

theorem Keeps.within_concat (h : Keeps n t programs trace p) (hi : i < n) (a : Access) :
    ∀ x ∈ trace ++ [(i, a)], x.1 < n :=
  List.forall_mem_append.mpr ⟨h.within, List.forall_mem_singleton.mpr hi⟩

theorem Keeps.named_visits (h : Keeps n t programs trace p) :
    ∀ w ∈ (summed trace).map Prod.snd, w.slot < t.extent.area := by
  intro w hw
  obtain ⟨x, hx, rfl⟩ := List.mem_map.mp hw
  exact h.named x hx

/-- A sum is added. -/
theorem Keeps.sum (h : Keeps n t programs trace p) (hi : i < n)
    (hc : p.callers i = ⟨v :: rest, .between⟩) (hv : v.slot < p.tally.extent.area) :
    Keeps n t programs (trace ++ [(i, .sum v)])
      (p.after i ⟨rest, if p.tally.wraps v then .telling v else .counting v⟩
        (p.tally.addSum v)) := by
  have added : summed (trace ++ [(i, .sum v)]) = summed trace ++ [(i, v)] := summed_concat _ _
  have same : counted (trace ++ [(i, .sum v)]) = counted trace := by
    rw [counted_concat]
    exact List.append_nil _
  have inside : v.slot < t.extent.area := h.extent ▸ hv
  have mine := h.callers i
  rw [hc] at mine
  refine ⟨h.extent, h.within_concat hi _, ?_, h.callers_after _ ⟨?_, ?_⟩, ?_, same ▸ h.counts, ?_⟩
  · rw [added]
    exact List.forall_mem_append.mpr ⟨h.named, List.forall_mem_singleton.mpr inside⟩
  · rw [List.append_assoc]
    exact mine.todo
  · have last : (if p.tally.wraps v then Standing.telling v else .counting v).uncounted?
        = some v := by
      cases p.tally.wraps v <;> rfl
    rw [last, ← mine.uncounted]
    exact congrArg (· ++ [v]) ((List.append_nil _).trans (List.append_nil _).symm)
  · rw [added, List.map_append, post_append, ← h.sums]
    rfl
  · have stored : (t.absorb ((summed trace).map Prod.snd)).1.wraps v = p.tally.wraps v := by
      rw [wraps, wraps, sums_absorb h.named_visits, h.sums]
    have before := h.overflowed
    rw [exists_split hi p.callers fun c => c.standing.tells, hc] at before
    rw [added, List.map_append, List.map_singleton, leaves_concat h.named_visits inside, stored,
      ← or_assoc, ← before, Party.after, exists_update hi p.callers _ fun c => c.standing.tells]
    show (p.tally.overflowed = true ∨ _) ↔ _
    cases p.tally.wraps v <;> simp [Standing.tells]

/-- The tally is told of a sum that has wrapped. -/
theorem Keeps.tell (h : Keeps n t programs trace p) (hi : i < n)
    (hc : p.callers i = ⟨rest, .telling v⟩) :
    Keeps n t programs (trace ++ [(i, .tell)])
      (p.after i ⟨rest, .counting v⟩ p.tally.raise) := by
  have same : summed (trace ++ [(i, .tell)]) = summed trace := by
    rw [summed_concat]
    exact List.append_nil _
  have same' : counted (trace ++ [(i, .tell)]) = counted trace := by
    rw [counted_concat]
    exact List.append_nil _
  have mine := h.callers i
  rw [hc] at mine
  refine ⟨h.extent, h.within_concat hi _, same ▸ h.named, h.callers_after _ ⟨?_, ?_⟩,
    same ▸ h.sums, same' ▸ h.counts, ?_⟩
  · simpa [Access.summed?] using mine.todo
  · simpa [Access.counted?, Access.summed?, Standing.uncounted?] using mine.uncounted
  · rw [same, ← h.overflowed]
    refine ⟨fun _ => .inr ⟨i, hi, ?_⟩, fun _ => .inl rfl⟩
    rw [hc]
    trivial

/-- A count is added. -/
theorem Keeps.count (h : Keeps n t programs trace p) (hi : i < n)
    (hc : p.callers i = ⟨rest, .counting v⟩) :
    Keeps n t programs (trace ++ [(i, .count v)])
      (p.after i ⟨rest, .between⟩ (p.tally.addCount v)) := by
  have same : summed (trace ++ [(i, .count v)]) = summed trace := by
    rw [summed_concat]
    exact List.append_nil _
  have added : counted (trace ++ [(i, .count v)]) = counted trace ++ [(i, v)] := counted_concat _ _
  have mine := h.callers i
  rw [hc] at mine
  refine ⟨h.extent, h.within_concat hi _, same ▸ h.named, h.callers_after _ ⟨?_, ?_⟩,
    same ▸ h.sums, ?_, ?_⟩
  · simpa [Access.summed?] using mine.todo
  · simpa [Access.counted?, Access.summed?, Standing.uncounted?] using mine.uncounted
  · rw [added, List.map_append, post_append, ← h.counts]
    rfl
  · have before := h.overflowed
    rw [exists_split hi p.callers fun c => c.standing.tells, hc] at before
    rw [same, ← before, Party.after, exists_update hi p.callers _ fun c => c.standing.tells]
    rfl

/-- **What is left after some accesses is kept by the next one.** -/
theorem Keeps.step {p' : Party} {a : Nat × Access} (h : Keeps n t programs trace p)
    (hs : Step n p a p') : Keeps n t programs (trace ++ [a]) p' := by
  cases hs with
  | sum i v rest hi hc hv => exact h.sum hi hc hv
  | tell i v rest hi hc => exact h.tell hi hc
  | count i v rest hi hc => exact h.count hi hc

theorem keeps_run (h : Run n (.begin t programs) trace p) : Keeps n t programs trace p := by
  induction h with
  | rest => exact keeps_begin n t programs
  | step _ hs ih => exact ih.step hs

/-- **What callers leave who have done everything is what their visits leave one after the other**,
    in the order in which the sums have been added, and each caller's own order is kept in it. -/
theorem Run.linear (h : Run n (.begin t programs) trace p) (hd : p.IsDone n) :
    ∃ order : List (Nat × Visit), (∀ x ∈ order, x.1 < n ∧ x.2.slot < t.extent.area) ∧
      (∀ i < n, own i order = programs i) ∧
      p.tally = (t.absorb (order.map Prod.snd)).1 := by
  have kept := keeps_run h
  have within : ∀ (what : Access → Option Visit),
      ∀ x ∈ trace.filterMap fun a => (what a.2).map (a.1, ·), x.1 < n := by
    intro what x hx
    obtain ⟨a, ha, e⟩ := List.mem_filterMap.mp hx
    obtain ⟨v, _, rfl⟩ := Option.map_eq_some_iff.mp e
    exact kept.within a ha
  have all : ∀ i < n, own i (counted trace) = own i (summed trace) := by
    intro i hi
    have mine := (kept.callers i).uncounted
    rw [hd i hi] at mine
    rwa [← List.append_nil (own i (counted trace))]
  have perm : ((summed trace).map Prod.snd).Perm ((counted trace).map Prod.snd) := by
    refine (perm_own (within _)).trans (.trans ?_ (perm_own (within _)).symm)
    refine List.Perm.of_eq (List.flatMap_congr fun i hi => ?_)
    exact (all i (List.mem_range.mp hi)).symm
  have told : ¬ ∃ i < n, (p.callers i).standing.tells := by
    rintro ⟨i, hi, tells⟩
    rw [hd i hi] at tells
    exact tells
  have flag : p.tally.overflowed = (t.absorb ((summed trace).map Prod.snd)).1.overflowed := by
    rw [Bool.eq_iff_iff, overflowed_iff kept.named_visits, ← kept.overflowed, or_iff_left told]
  refine ⟨summed trace, fun x hx => ⟨within _ x hx, kept.named x hx⟩, fun i hi => ?_,
    eq_of_parts ?_ ?_ ?_ flag⟩
  · have mine := (kept.callers i).todo
    rwa [hd i hi, List.append_nil] at mine
  · rw [kept.extent, extent_absorb]
  · rw [kept.sums, sums_absorb kept.named_visits]
  · rw [kept.counts, counts_absorb kept.named_visits, post_perm _ perm]

end Steps

/-! ## 4. Exactness -/

/-- A tally to which nothing has been added yet: a new one, or one with given sums and counts. -/
def IsFresh (t : Tally) : Prop :=
  (∃ e, t = new e) ∨ ∃ e sums counts, ofLists? e sums counts = .ok t

theorem IsFresh.overflowed (h : t.IsFresh) : t.overflowed = false := by
  rcases h with ⟨e, rfl⟩ | ⟨e, sums, counts, h⟩
  · rfl
  · unfold ofLists? at h
    split at h
    · cases h
      rfl
    · cases h

/-- **What a tally remembers of an overflow is exact.** After visits that all name a slot of a tally
    to which nothing had been added, an overflow is remembered if and only if at one of the visits
    what was stored and what was added to it had an exact sum out of the range of the words. If none
    is remembered, every stored sum is the exact one. In any case, sums and counts are the exact
    ones up to multiples of `2 ^ 32`. Callers who share a tally, with any accesses of others between
    those of one addition, leave what such visits leave one after the other: the visits of all
    callers, each caller's in its own order. -/
theorem overflow_is_exact (h : t.IsFresh) :
    (∀ visits : List Visit, (∀ v ∈ visits, v.slot < t.extent.area) →
      (t.absorb visits).2 = true ∧
      ((t.absorb visits).1.overflowed = true ↔ t.Leaves visits) ∧
      ∀ slot < t.extent.area, ∃ sum count sum' count',
        t.sums[slot]? = some sum ∧ t.counts[slot]? = some count ∧
        (t.absorb visits).1.sums[slot]? = some sum' ∧
        (t.absorb visits).1.counts[slot]? = some count' ∧
        ((t.absorb visits).1.overflowed = false →
          sum'.toInt = sum.toInt + balance slot visits) ∧
        sum'.toInt ≡ sum.toInt + balance slot visits [ZMOD 2 ^ 32] ∧
        count'.toNat ≡ count.toNat + visits.countP (·.slot == slot) [MOD 2 ^ 32]) ∧
    ∀ (n : Nat) (programs : Nat → List Visit) (trace : List (Nat × Access)) (p : Party),
      Run n (.begin t programs) trace p → p.IsDone n →
        ∃ order : List (Nat × Visit), (∀ x ∈ order, x.1 < n ∧ x.2.slot < t.extent.area) ∧
          (∀ i < n, own i order = programs i) ∧
          p.tally = (t.absorb (order.map Prod.snd)).1 := by
  refine ⟨fun visits named => ⟨absorb_of_named named, ?_, fun slot hs => ?_⟩, ?_⟩
  · rw [overflowed_iff named, h.overflowed]
    exact or_iff_right Bool.false_ne_true
  · have hsum := Array.getElem?_eq_getElem (show slot < t.sums.size from t.size_sums.symm ▸ hs)
    have hcount : t.counts[slot]? = some _ :=
      Array.getElem?_eq_getElem (show slot < t.counts.size from t.size_counts.symm ▸ hs)
    have after := sum_absorb named slot
    have after' := count_absorb named slot
    rw [hsum, Option.map_some] at after
    rw [hcount, Option.map_some] at after'
    refine ⟨_, _, _, _, hsum, hcount, after, after', fun clear => ?_, ?_, ?_⟩
    · have inside : ¬ t.Leaves visits := fun out => by
        rw [(overflowed_iff named).mpr (.inr out)] at clear
        cases clear
      obtain ⟨exact, stored, value⟩ := toInt_sum_absorb named inside hsum
      rw [Option.some.inj (after.symm.trans stored), value]
    · rw [Int32.toInt_ofInt]
      exact Int.bmod_emod
    · rw [UInt32.toNat_add, UInt32.toNat_ofNat']
      exact (Nat.mod_modEq _ _).trans ((Nat.mod_modEq _ _).add_left _)
  · intro n programs trace p run done
    exact run.linear done

/-- Two slots, one with a sum at the end of the range and one with a count there. -/
def brink : Tally where
  extent := ⟨2, 1⟩
  sums := #[2147483647, -5]
  counts := #[3, 4294967295]
  overflowed := false
  size_sums := rfl
  size_counts := rfl

/-- Two callers, one of whom brings back what the other has added. -/
def turns : Nat → List Visit
  | 0 => [⟨0, 1⟩]
  | 1 => [⟨0, -1⟩, ⟨1, 8⟩]
  | _ => []

/-- The additions of both wrap, and the tally is told of the first when the other caller has long
    finished. -/
theorem exists_brink_run : ∃ trace p, Run 2 (.begin brink turns) trace p ∧ p.IsDone 2 := by
  have first := Run.rest (n := 2) (p := .begin brink turns)
  have wrapped := first.step (.sum _ 0 ⟨0, 1⟩ [] (by decide) (by decide +kernel) (by decide))
  have back := wrapped.step (.sum _ 1 ⟨0, -1⟩ [⟨1, 8⟩] (by decide) (by decide +kernel) (by decide))
  have noticed := back.step (.tell _ 1 ⟨0, -1⟩ [⟨1, 8⟩] (by decide) (by decide +kernel))
  have counted := noticed.step (.count _ 1 ⟨0, -1⟩ [⟨1, 8⟩] (by decide) (by decide +kernel))
  have more := counted.step (.sum _ 1 ⟨1, 8⟩ [] (by decide) (by decide +kernel) (by decide))
  have finished := more.step (.count _ 1 ⟨1, 8⟩ [] (by decide) (by decide +kernel))
  have told := finished.step (.tell _ 0 ⟨0, 1⟩ [] (by decide) (by decide +kernel))
  have last := told.step (.count _ 0 ⟨0, 1⟩ [] (by decide) (by decide +kernel))
  refine ⟨_, _, last, fun i hi => ?_⟩
  match i, hi with
  | 0, _ => decide +kernel
  | 1, _ => decide +kernel

/-- A sum comes back to where it was, and the tally remembers that it wrapped on the way; the other
    sum is the exact one, and its count has wrapped. So it is with one caller, and with two. -/
theorem brink_is_exact :
    brink.IsFresh ∧
    (brink.absorb [⟨0, 1⟩, ⟨0, -1⟩, ⟨1, 8⟩]).1.overflowed = true ∧
    brink.Leaves [⟨0, 1⟩, ⟨0, -1⟩, ⟨1, 8⟩] ∧
    (∃ sum', (brink.absorb [⟨0, -1⟩, ⟨1, 8⟩]).1.sums[1]? = some sum' ∧ sum'.toInt = -5 + 8) ∧
    ∃ trace p order, Run 2 (.begin brink turns) trace p ∧ p.IsDone 2 ∧
      own 1 order = [⟨0, -1⟩, ⟨1, 8⟩] ∧ p.tally = (brink.absorb (order.map Prod.snd)).1 := by
  have fresh : brink.IsFresh := .inr ⟨⟨2, 1⟩, brink.sums, brink.counts, rfl⟩
  obtain ⟨inTurn, shared⟩ := overflow_is_exact fresh
  have remembered : (brink.absorb [⟨0, 1⟩, ⟨0, -1⟩, ⟨1, 8⟩]).1.overflowed = true := by decide
  obtain ⟨_, _, stored⟩ := inTurn [⟨0, -1⟩, ⟨1, 8⟩] (by decide)
  obtain ⟨sum, _, sum', _, before, _, after, _, exact, _⟩ := stored 1 (by decide)
  obtain ⟨trace, p, run, done⟩ := exists_brink_run
  obtain ⟨order, _, own, tally⟩ := shared 2 turns trace p run done
  refine ⟨fresh, remembered, ((inTurn _ (by decide)).2.1).mp remembered, ⟨sum', after, ?_⟩,
    trace, p, order, run, done, own 1 (by decide), tally⟩
  obtain rfl : -5 = sum := Option.some.inj before
  exact exact (by decide)

end Relief.Tally
