import Relief.Depth.Ray

/-!
# Posting visits

What a list of visits does to a tally, one slot at a time.

* `Tally.post`: adds an amount for each visit to the slot of the visit; the sums of a tally are
  posted the running integrals, the counts a one for each visit;
* `post_perm`: **the order of the visits does not matter**, since the words wrap;
* `post_one`: posting ones counts the visits of each slot;
* `addSum`, `addCount`, `raise`: the single accesses that an addition is made of (`add_eq`), so that
  others can come between them;
* `absorb_of_named`, `sums_absorb`, `counts_absorb`, `Holds.absorb`: visits that all name a slot are
  absorbed, and so posted;
* `Ray.slot_lt_of_mem_visits`: the visits of a ray all do.
-/

namespace Relief

namespace Tally

/-! ## 1. Posting amounts -/

/-- Adds an amount for each visit to what its slot holds. -/
def post {α : Type} [Add α] (amount : Visit → α) (visits : List Visit) (slots : Array α) :
    Array α :=
  visits.foldl (fun slots v => slots.modify v.slot (· + amount v)) slots

/-- Two changes of slots that commute on what a slot holds commute on the array. -/
theorem modify_comm {α : Type} (slots : Array α) (i j : Nat) (f g : α → α)
    (h : ∀ x, f (g x) = g (f x)) :
    (slots.modify i f).modify j g = (slots.modify j g).modify i f := by
  apply Array.ext_getElem?
  intro k
  simp only [Array.getElem?_modify]
  by_cases hi : i = k
  · by_cases hj : j = k
    · rw [if_pos hi, if_pos hj, if_pos hi, if_pos hj]
      cases slots[k]? with
      | none => rfl
      | some x => exact congrArg some (h x).symm
    · rw [if_pos hi, if_neg hj, if_pos hi, if_neg hj]
  · rw [if_neg hi, if_neg hi]

/-- To set a slot to what comes of what it holds is to change it. -/
theorem set_eq_modify {α : Type} (slots : Array α) (i : Nat) (f : α → α) (h : i < slots.size) :
    slots.set i (f slots[i]) = slots.modify i f := by
  apply Array.ext_getElem?
  intro k
  rw [Array.getElem?_set, Array.getElem?_modify]
  by_cases hk : i = k
  · subst hk
    rw [if_pos rfl, if_pos rfl, Array.getElem?_eq_getElem h]
    rfl
  · rw [if_neg hk, if_neg hk]

section Post

variable {α : Type} [Add α] (amount : Visit → α)

theorem post_append (visits later : List Visit) (slots : Array α) :
    post amount (visits ++ later) slots = post amount later (post amount visits slots) := by
  simp only [post, List.foldl_append]

/-- **The order of visits does not matter to what they add up to.** -/
theorem post_perm [Std.Commutative (α := α) (· + ·)] [Std.Associative (α := α) (· + ·)]
    {visits others : List Visit} (h : visits.Perm others) (slots : Array α) :
    post amount visits slots = post amount others slots := by
  refine h.foldl_eq' (fun v _ w _ slots => ?_) slots
  refine modify_comm slots v.slot w.slot _ _ fun x => ?_
  have assoc : ∀ a b c : α, a + b + c = a + (b + c) := Std.Associative.assoc
  have comm : ∀ a b : α, a + b = b + a := Std.Commutative.comm
  rw [assoc, assoc, comm (amount w)]

end Post

/-- **The count of a slot is the number of its visits**, as a word. -/
theorem post_one (visits : List Visit) (slots : Array UInt32) (slot : Nat) :
    (post (fun _ => 1) visits slots)[slot]?
      = slots[slot]?.map (· + .ofNat (visits.countP (·.slot == slot))) := by
  induction visits generalizing slots with
  | nil => simp [post]
  | cons v rest ih =>
    show (post (fun _ => 1) rest (slots.modify v.slot (· + 1)))[slot]? = _
    rw [ih, Array.getElem?_modify, List.countP_cons]
    by_cases here : v.slot = slot
    · rw [if_pos here, beq_iff_eq.mpr here, if_pos rfl]
      cases slots[slot]? with
      | none => rfl
      | some n =>
        show some (n + 1 + UInt32.ofNat _) = some (n + UInt32.ofNat (_ + 1))
        rw [UInt32.ofNat_add, UInt32.add_assoc, UInt32.add_comm 1]
        rfl
    · rw [if_neg here, if_neg (by simpa using here)]
      rfl

/-! ## 2. One addition in its single accesses -/

/-- A visit's running integral goes to the sum of its slot. -/
def addSum (t : Tally) (v : Visit) : Tally where
  extent := t.extent
  sums := t.sums.modify v.slot (· + v.value)
  counts := t.counts
  overflowed := t.overflowed
  size_sums := by rw [Array.size_modify]; exact t.size_sums
  size_counts := t.size_counts

/-- A visit's one goes to the count of its slot. -/
def addCount (t : Tally) (v : Visit) : Tally where
  extent := t.extent
  sums := t.sums
  counts := t.counts.modify v.slot (· + 1)
  overflowed := t.overflowed
  size_sums := t.size_sums
  size_counts := by rw [Array.size_modify]; exact t.size_counts

/-- The tally remembers that a sum wrapped. -/
def raise (t : Tally) : Tally :=
  { t with overflowed := true }

/-- Whether a visit's running integral makes the sum of its slot wrap. -/
def wraps (t : Tally) (v : Visit) : Bool :=
  leavesRange ((t.sums[v.slot]?.getD 0).toInt + v.value.toInt)

/-- **An addition is its single accesses, one after the other.** -/
theorem add_eq (t : Tally) (v : Visit) (h : v.slot < t.extent.area) :
    t.add v h = (if t.wraps v then (t.addSum v).raise else t.addSum v).addCount v := by
  obtain ⟨extent, sums, counts, overflowed, size_sums, size_counts⟩ := t
  have hs : v.slot < sums.size := size_sums.symm ▸ h
  have hc : v.slot < counts.size := size_counts.symm ▸ h
  have es : sums.set v.slot (sums[v.slot] + v.value) = sums.modify v.slot (· + v.value) :=
    set_eq_modify sums v.slot (· + v.value) hs
  have ec : counts.set v.slot (counts[v.slot] + 1) = counts.modify v.slot (· + 1) :=
    set_eq_modify counts v.slot (· + 1) hc
  have ew : wraps ⟨extent, sums, counts, overflowed, size_sums, size_counts⟩ v
      = leavesRange (sums[v.slot].toInt + v.value.toInt) := by
    simp only [wraps, Array.getElem?_eq_getElem hs, Option.getD_some]
  rw [ew]
  simp only [add, es, ec]
  cases leavesRange (sums[v.slot].toInt + v.value.toInt) <;>
    simp [addCount, addSum, raise]

theorem sums_add (t : Tally) (v : Visit) (h : v.slot < t.extent.area) :
    (t.add v h).sums = t.sums.modify v.slot (· + v.value) := by
  rw [add_eq]
  split <;> rfl

theorem counts_add (t : Tally) (v : Visit) (h : v.slot < t.extent.area) :
    (t.add v h).counts = t.counts.modify v.slot (· + 1) := by
  rw [add_eq]
  split <;> rfl

theorem extent_add (t : Tally) (v : Visit) (h : v.slot < t.extent.area) :
    (t.add v h).extent = t.extent := by
  rw [add_eq]
  split <;> rfl

/-! ## 3. Absorbing visits -/

/-- What a tally holds apart from the memory of an overflow, which depends on the order. -/
structure Holds (t : Tally) (e : Extent) (visits : List Visit) : Prop where
  extent : t.extent = e
  sums : t.sums = post Visit.value visits (new e).sums
  counts : t.counts = post (fun _ => 1) visits (new e).counts

theorem holds_new (e : Extent) : (new e).Holds e [] := ⟨rfl, rfl, rfl⟩

/-- Tallies that hold the visits of two lists with the same elements have the same numbers. -/
theorem Holds.perm {t : Tally} {e : Extent} {visits others : List Visit}
    (h : t.Holds e visits) (hp : visits.Perm others) : t.Holds e others :=
  ⟨h.extent, h.sums.trans (post_perm _ hp _), h.counts.trans (post_perm _ hp _)⟩

/-- Two tallies have the same numbers. -/
structure Agrees (t u : Tally) : Prop where
  sums : t.sums = u.sums
  counts : t.counts = u.counts

theorem Holds.agrees {t u : Tally} {e : Extent} {visits : List Visit} (ht : t.Holds e visits)
    (hu : u.Holds e visits) : t.Agrees u :=
  ⟨ht.sums.trans hu.sums.symm, ht.counts.trans hu.counts.symm⟩

theorem Holds.add {t : Tally} {e : Extent} {visits : List Visit} (ht : t.Holds e visits)
    (v : Visit) (h : v.slot < t.extent.area) : (t.add v h).Holds e (visits ++ [v]) where
  extent := (extent_add t v h).trans ht.extent
  sums := by rw [sums_add, ht.sums, post_append]; rfl
  counts := by rw [counts_add, ht.counts, post_append]; rfl

/-- The first of some visits that all name a slot is added, and the others still name one. -/
theorem absorb_cons {t : Tally} {v : Visit} {rest : List Visit}
    (h : ∀ w ∈ v :: rest, w.slot < t.extent.area) :
    ∃ hv : v.slot < t.extent.area, t.absorb (v :: rest) = (t.add v hv).absorb rest ∧
      ∀ w ∈ rest, w.slot < (t.add v hv).extent.area := by
  have hv : v.slot < t.extent.area := h v List.mem_cons_self
  refine ⟨hv, dif_pos hv, fun w hw => ?_⟩
  rw [extent_add]
  exact h w (List.mem_cons_of_mem v hw)

/-- **Visits that all name a slot are all absorbed.** -/
theorem absorb_of_named {t : Tally} {more : List Visit}
    (h : ∀ v ∈ more, v.slot < t.extent.area) : (t.absorb more).2 = true := by
  induction more generalizing t with
  | nil => rfl
  | cons v rest ih =>
    obtain ⟨hv, first, others⟩ := absorb_cons h
    rw [first]
    exact ih others

theorem extent_absorb (t : Tally) (visits : List Visit) :
    (t.absorb visits).1.extent = t.extent := by
  induction visits generalizing t with
  | nil => rfl
  | cons v rest ih =>
    rw [absorb]
    split
    · rename_i h
      rw [ih, extent_add]
    · rfl

theorem sums_absorb {t : Tally} {visits : List Visit} (h : ∀ v ∈ visits, v.slot < t.extent.area) :
    (t.absorb visits).1.sums = post Visit.value visits t.sums := by
  induction visits generalizing t with
  | nil => rfl
  | cons v rest ih =>
    obtain ⟨hv, first, others⟩ := absorb_cons h
    rw [first, ih others, sums_add]
    rfl

theorem counts_absorb {t : Tally} {visits : List Visit}
    (h : ∀ v ∈ visits, v.slot < t.extent.area) :
    (t.absorb visits).1.counts = post (fun _ => 1) visits t.counts := by
  induction visits generalizing t with
  | nil => rfl
  | cons v rest ih =>
    obtain ⟨hv, first, others⟩ := absorb_cons h
    rw [first, ih others, counts_add]
    rfl

/-- Visits that all name a slot are posted. -/
theorem Holds.absorb {t : Tally} {e : Extent} {visits : List Visit} (ht : t.Holds e visits)
    {more : List Visit} (h : ∀ v ∈ more, v.slot < e.area) :
    (t.absorb more).1.Holds e (visits ++ more) := by
  have named : ∀ v ∈ more, v.slot < t.extent.area := ht.extent ▸ h
  refine ⟨(extent_absorb t more).trans ht.extent, ?_, ?_⟩
  · rw [sums_absorb named, ht.sums, post_append]
  · rw [counts_absorb named, ht.counts, post_append]

end Tally

/-! ## 4. The visits of a ray -/

namespace Ray

theorem slot_lt_of_mem_march {slopes : Slopes} {launch : Launch} {step : Point} {fuel : Nat}
    {position : Point} {last : Option Cell} {integral : Float} {v : Visit}
    (h : v ∈ march slopes launch step fuel position last integral) :
    v.slot < slopes.extent.area := by
  fun_induction march slopes launch step fuel position last integral with
  | case1 => simp at h
  | case2 _ _ _ _ _ _ _ _ _ ih => exact ih h
  | case3 _ _ _ _ _ _ _ _ _ _ ih => exact ih h
  | case4 _ _ _ _ _ _ _ _ _ _ _ _ ih => exact ih h
  | case5 _ _ _ _ _ _ _ _ _ slot hslot _ _ _ ih =>
    rcases List.mem_cons.mp h with rfl | h
    · exact Extent.slot?_lt hslot
    · exact ih h
  | case6 => simp at h

/-- **Every visit of a ray names a pixel of the field that it crosses.** -/
theorem slot_lt_of_mem_visits {slopes : Slopes} {launch : Launch} {step start : Point} {v : Visit}
    (h : v ∈ visits slopes launch step start) : v.slot < slopes.extent.area :=
  slot_lt_of_mem_march h

end Ray

end Relief
