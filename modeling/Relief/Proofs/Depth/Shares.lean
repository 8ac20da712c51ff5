import Relief.Proofs.Depth.Dealing
import Relief.Proofs.Depth.InTurn

/-!
# Shares

Where a heading is to be found after dealing, and how much everybody gets. With `n` hands, the
heading at place `i` is dealt in round `i / n` to hand `i % n`.

* `getElem?_everyNth`: the elements of every `n`-th place;
* `IsShare`, `isShare_of_getElem?_deal`: **what a hand holds**, place by place;
* `getElem?_deal`: **where a heading is dealt to**;
* `IsShare.lt_length_iff`: hence how long it is, and that the hands are of one length but for one
  heading;
* `sweeps_are_shared_out`: **dealing loses and doubles nothing**, and no worker of an integration is
  left without a heading.
-/

namespace Relief.Sweep

variable {s : Sweep} {n : Nat}

/-! ## 1. What a hand holds -/

/-- The elements of every `n`-th place. -/
theorem getElem?_everyNth {α : Type} (n i k : Nat) (l : List α) :
    (everyNth (n + 1) i l)[k]? = l[k * (n + 1) + i]? := by
  induction l generalizing i k with
  | nil => simp
  | cons a rest ih =>
    cases i with
    | succ i => exact ih i k
    | zero =>
      cases k with
      | zero => simp [everyNth]
      | succ k =>
        -- a whole round after `a` is one element less than a round after what precedes `a`
        have round : (k + 1) * (n + 1) + 0 = k * (n + 1) + n + 1 := by
          rw [Nat.succ_mul]
          omega
        rw [round]
        exact ih n k

/-- A hand that holds every `n`-th heading of a sweep, from place `j` on, and nothing else. -/
def IsShare (s : Sweep) (n j : Nat) (hand : List Heading) : Prop :=
  ∀ k, hand[k]? = s.headings[k * n + j]?

/-- There is a hand for everybody. -/
theorem exists_share (s : Sweep) (parts : Nat) {j : Nat} (hj : j < max parts 1) :
    ∃ hand, (s.deal parts)[j]? = some hand ∧ s.IsShare (max parts 1) j hand := by
  obtain ⟨n, hn⟩ : ∃ n, max parts 1 = n + 1 := ⟨max parts 1 - 1, by omega⟩
  refine ⟨everyNth (n + 1) j s.headings, ?_, ?_⟩
  · rw [deal, hn, List.getElem?_map, List.getElem?_range (hn ▸ hj)]
    rfl
  · intro k
    rw [hn]
    exact getElem?_everyNth n j k s.headings

theorem length_deal_max (s : Sweep) (parts : Nat) : (s.deal parts).length = max parts 1 := by
  rw [deal, List.length_map, List.length_range]

/-- **What a hand holds.** -/
theorem isShare_of_getElem?_deal {parts j : Nat} {hand : List Heading}
    (h : (s.deal parts)[j]? = some hand) :
    j < max parts 1 ∧ s.IsShare (max parts 1) j hand := by
  have hj : j < max parts 1 := by
    rw [← s.length_deal_max]
    exact (List.getElem?_eq_some_iff.mp h).1
  obtain ⟨hand', found, share⟩ := s.exists_share parts hj
  obtain rfl : hand = hand' := Option.some.inj (h.symm.trans found)
  exact ⟨hj, share⟩

/-- **Where a heading is dealt to**: in its round to the hand whose turn it is. -/
theorem getElem?_deal (s : Sweep) (parts i : Nat) :
    ((s.deal parts)[i % max parts 1]?.bind fun hand => hand[i / max parts 1]?)
      = s.headings[i]? := by
  have turn : i % max parts 1 < max parts 1 := Nat.mod_lt i (by omega)
  obtain ⟨hand, found, share⟩ := s.exists_share parts turn
  rw [found, Option.bind_some, share, Nat.div_add_mod']

/-! ## 2. How much a hand holds -/

/-- A hand holds so many headings as there are rounds in which its turn comes. -/
theorem IsShare.lt_length_iff {j k : Nat} {hand : List Heading} (h : s.IsShare n j hand) :
    k < hand.length ↔ k * n + j < s.length := by
  have ends : hand[k]? = none ↔ s.headings[k * n + j]? = none := by rw [h k]
  rw [List.getElem?_eq_none_iff, List.getElem?_eq_none_iff] at ends
  show k < hand.length ↔ k * n + j < s.headings.length
  omega

/-- **Two hands differ by one heading at most.** -/
theorem IsShare.length_le {j j' : Nat} {hand hand' : List Heading} (h : s.IsShare n j hand)
    (h' : s.IsShare n j' hand') (hj' : j' < n) : hand.length ≤ hand'.length + 1 := by
  apply Nat.le_of_not_lt
  intro more
  have last := h.lt_length_iff.mp more
  have first := mt h'.lt_length_iff.mpr (Nat.lt_irrefl hand'.length)
  rw [Nat.succ_mul] at last
  omega

/-- A hand whose turn comes in the first round is not empty. -/
theorem IsShare.ne_nil {j : Nat} {hand : List Heading} (h : s.IsShare n j hand)
    (hj : j < s.length) : hand ≠ [] := by
  refine List.ne_nil_of_length_pos (h.lt_length_iff.mpr ?_)
  rwa [Nat.zero_mul, Nat.zero_add]

/-! ## 3. Sharing out -/

/-- **Dealing loses and doubles nothing.** A sweep is dealt into as many hands as there are parts, or
    into one. With `n` hands, the heading at place `i` of the sweep is at place `i / n` of hand
    `i % n`, and what is at place `k` of hand `j` is the heading at place `k * n + j`, so that the
    hands hold nothing else. All of them together are the sweep in another order, and two of them
    differ by one heading at most. An integration has no more workers than headings, and each of them
    is dealt at least one. -/
theorem sweeps_are_shared_out (s : Sweep) (parts : Nat) :
    (s.deal parts).length = max parts 1 ∧
    (∀ i, ((s.deal parts)[i % max parts 1]?.bind fun hand => hand[i / max parts 1]?)
      = s.headings[i]?) ∧
    (∀ j hand, (s.deal parts)[j]? = some hand →
      ∀ k, hand[k]? = s.headings[k * max parts 1 + j]?) ∧
    (s.deal parts).flatten.Perm s.headings ∧
    (∀ hand ∈ s.deal parts, ∀ hand' ∈ s.deal parts, hand.length ≤ hand'.length + 1) ∧
    ∀ threading processors workers,
      Integration.workerCount threading processors s.length = .ok workers →
        workers ≤ s.length ∧
        ∀ worker < workers, ∃ share, (s.deal workers)[worker]? = some share ∧ share ≠ [] := by
  refine ⟨s.length_deal_max parts, s.getElem?_deal parts, ?_, s.deal_perm parts, ?_, ?_⟩
  · intro j hand found
    exact (isShare_of_getElem?_deal found).2
  · intro hand mem hand' mem'
    obtain ⟨j, found⟩ := List.mem_iff_getElem?.mp mem
    obtain ⟨j', found'⟩ := List.mem_iff_getElem?.mp mem'
    have share := (isShare_of_getElem?_deal found).2
    obtain ⟨hj', share'⟩ := isShare_of_getElem?_deal found'
    exact share.length_le share' hj'
  · intro threading processors workers count
    have le := Integration.workerCount_le count
    refine ⟨le, fun worker hw => ?_⟩
    obtain ⟨share, found, isShare⟩ := s.exists_share workers (j := worker) (by omega)
    exact ⟨share, found, isShare.ne_nil (Nat.lt_of_lt_of_le hw le)⟩

/-- Five headings. -/
def fan : Sweep :=
  ⟨[⟨0⟩, ⟨180⟩, ⟨90⟩, ⟨270⟩, ⟨45⟩]⟩

/-- Three workers get two, two and one of them. -/
theorem fan_is_shared_out :
    (fan.deal 3)[1]? = some [⟨180⟩, ⟨45⟩] ∧ ([⟨180⟩, ⟨45⟩] : List Heading)[1]? = fan.headings[4]? ∧
    ([⟨180⟩, ⟨45⟩] : List Heading) ∈ fan.deal 3 ∧ [⟨90⟩] ∈ fan.deal 3 ∧
    ([⟨180⟩, ⟨45⟩] : List Heading).length ≤ ([⟨90⟩] : List Heading).length + 1 ∧
    Integration.workerCount ⟨some 3, 4⟩ 1 fan.length = .ok 3 ∧
    ∀ worker < 3, ∃ share, (fan.deal 3)[worker]? = some share ∧ share ≠ [] := by
  obtain ⟨-, -, places, -, even, workers⟩ := sweeps_are_shared_out fan 3
  have found : (fan.deal 3)[1]? = some [⟨180⟩, ⟨45⟩] := rfl
  have mem : ([⟨180⟩, ⟨45⟩] : List Heading) ∈ fan.deal 3 := List.mem_of_getElem? found
  have mem' : [⟨90⟩] ∈ fan.deal 3 := List.mem_of_getElem? (i := 2) rfl
  have count : Integration.workerCount ⟨some 3, 4⟩ 1 fan.length = .ok 3 := rfl
  exact ⟨found, places 1 _ found 1, mem, mem', even _ mem _ mem', count, (workers _ _ _ count).2⟩

end Relief.Sweep
