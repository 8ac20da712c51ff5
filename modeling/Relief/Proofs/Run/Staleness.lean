import Relief.Number.Power
import Relief.Run.Generation

/-!
# How long a token stays stale

A generation counts in a word of 64 bits, so a token that has become stale stays so until the
generation has been advanced `2 ^ 64` times.

* `advanceBy`: a generation advanced so many times;
* `isStale_advanceBy`: when a token is stale then;
* `stale_mono`: **a stale token stays stale**, as long as there are fewer than `2 ^ 64` advances.
-/

namespace Relief.Generations

/-- All counters after a generation has been advanced so many times. -/
def advanceBy (g : Generations) (gen : Generation) : Nat → Generations
  | 0 => g
  | times + 1 => (g.advanceBy gen times).advance gen

@[simp] theorem advanceBy_zero (g : Generations) (gen : Generation) : g.advanceBy gen 0 = g := rfl

theorem advanceBy_succ (g : Generations) (gen : Generation) (times : Nat) :
    g.advanceBy gen (times + 1) = (g.advanceBy gen times).advance gen := rfl

theorem size_advanceBy (g : Generations) (gen : Generation) (times : Nat) :
    (g.advanceBy gen times).counts.size = g.counts.size := by
  induction times with
  | zero => rfl
  | succ times ih => rw [advanceBy_succ, advance, Array.size_setIfInBounds, ih]

/-- An advance counts one further. -/
theorem current_advance {g : Generations} {gen : Generation} (h : gen.place < g.counts.size) :
    (g.advance gen).current gen = g.current gen + 1 := by
  simp [current, advance, h]

theorem current_advanceBy {g : Generations} {gen : Generation} (h : gen.place < g.counts.size)
    (times : Nat) : (g.advanceBy gen times).current gen = g.current gen + .ofNat times := by
  induction times with
  | zero =>
    have zero : UInt64.ofNat 0 = 0 := rfl
    rw [advanceBy_zero, zero, UInt64.add_zero]
  | succ times ih =>
    have hs : gen.place < (g.advanceBy gen times).counts.size := by rwa [size_advanceBy]
    rw [advanceBy_succ, current_advance hs, ih, UInt64.add_assoc]
    congr 1
    exact (UInt64.ofNat_add times 1).symm

/-- A counter that does not exist is never advanced. -/
theorem advanceBy_of_le {g : Generations} {gen : Generation} (h : g.counts.size ≤ gen.place)
    (times : Nat) : g.advanceBy gen times = g := by
  induction times with
  | zero => rfl
  | succ times ih =>
    rw [advanceBy_succ, ih, advance, Array.setIfInBounds_eq_of_size_le h]

/-- **When a token is stale**: its counter exists and has not come round to where it was. -/
theorem isStale_advanceBy (g : Generations) (gen : Generation) (times : Nat) :
    (g.advanceBy gen times).isStale (g.issue gen) = true ↔
      gen.place < g.counts.size ∧ times % 2 ^ 64 ≠ 0 := by
  have stale : (g.advanceBy gen times).isStale (g.issue gen) = true ↔
      (g.advanceBy gen times).current gen ≠ g.current gen := decide_eq_true_iff
  rw [stale]
  by_cases h : gen.place < g.counts.size
  · rw [current_advanceBy h]
    have round : g.current gen + .ofNat times = g.current gen ↔ times % 2 ^ 64 = 0 := by
      constructor
      · intro e
        have e' := congrArg (fun x => x - g.current gen) e
        simp only [UInt64.sub_self, UInt64.add_comm (g.current gen), UInt64.add_sub_cancel] at e'
        simpa using congrArg UInt64.toNat e'
      · intro e
        have e' : UInt64.ofNat times = 0 := UInt64.toNat_inj.mp (by simpa using e)
        rw [e', UInt64.add_zero]
    rw [ne_eq, round]
    exact ⟨fun hr => ⟨h, hr⟩, fun hr => hr.2⟩
  · rw [advanceBy_of_le (Nat.le_of_not_lt h)]
    exact ⟨fun hr => absurd rfl hr, fun hr => absurd hr.1 h⟩

/-- **A stale token stays stale** for fewer than `2 ^ 64` advances. -/
theorem stale_mono {g : Generations} {gen : Generation} {times later : Nat}
    (h : (g.advanceBy gen times).isStale (g.issue gen) = true) (hle : times ≤ later)
    (hlt : later < 2 ^ 64) : (g.advanceBy gen later).isStale (g.issue gen) = true := by
  rw [isStale_advanceBy] at h ⊢
  refine ⟨h.1, ?_⟩
  have hpos := h.2
  rw [Nat.mod_eq_of_lt (Nat.lt_of_le_of_lt hle hlt)] at hpos
  rw [Nat.mod_eq_of_lt hlt]
  omega

end Relief.Generations
