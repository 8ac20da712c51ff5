import Relief.Failure

/-!
# Tallies

A tally holds a sum and a count for each pixel of an extent. Every ray that visits a pixel adds its
running integral to the sum and one to the count. Sums and counts are 32-bit words and wrap, and the
tally remembers whether a sum ever did.

* `Tally.add?`: one visit; none where there is no such slot;
* `Tally.absorb`: the visits of a ray, up to the first that names no slot.
-/

namespace Relief

/-- A visit of a ray: the slot of the pixel, and the running integral there. -/
structure Visit where
  slot : Nat
  value : Int32
  deriving DecidableEq, Repr

/-- Sums and counts for the pixels of an extent. -/
structure Tally where
  extent : Extent
  sums : Array Int32
  counts : Array UInt32
  overflowed : Bool
  size_sums : sums.size = extent.area
  size_counts : counts.size = extent.area

namespace Tally

/-- The tally before the first visit. -/
def new (e : Extent) : Tally where
  extent := e
  sums := Array.replicate e.area 0
  counts := Array.replicate e.area 0
  overflowed := false
  size_sums := by simp
  size_counts := by simp

/-- The tally before the first visit, if memory can hold it. -/
def new? (e : Extent) : Option Tally :=
  if e.isHoldable then some (new e) else none

/-- The tally with given sums and counts, in which nothing has overflowed yet. -/
def ofLists? (e : Extent) (sums : Array Int32) (counts : Array UInt32) : Except Failure Tally :=
  if h : sums.size = e.area ∧ counts.size = e.area then
    .ok { extent := e, sums, counts, overflowed := false, size_sums := h.1, size_counts := h.2 }
  else .error (.tallyLength sums.size counts.size e.area)

/-- Whether an exact sum lies outside the range of the stored ones. -/
def leavesRange (sum : Int) : Bool :=
  sum < -2 ^ 31 || 2 ^ 31 ≤ sum

/-- The tally after a visit to one of its pixels. -/
def add (t : Tally) (v : Visit) (h : v.slot < t.extent.area) : Tally :=
  match t, h with
  | ⟨extent, sums, counts, overflowed, size_sums, size_counts⟩, h =>
    have hs : v.slot < sums.size := size_sums.symm ▸ h
    have hc : v.slot < counts.size := size_counts.symm ▸ h
    let sum := sums[v.slot]
    let count := counts[v.slot]
    { extent
      sums := sums.set v.slot (sum + v.value)
      counts := counts.set v.slot (count + 1)
      overflowed := overflowed || leavesRange (sum.toInt + v.value.toInt)
      size_sums := by rw [Array.size_set]; exact size_sums
      size_counts := by rw [Array.size_set]; exact size_counts }

/-- The tally after a visit; none where it names no pixel. -/
def add? (t : Tally) (v : Visit) : Option Tally :=
  if h : v.slot < t.extent.area then some (t.add v h) else none

/-- The tally after the visits of a list, in order, up to the first that names no pixel; and
    whether all of them named one. -/
def absorb (t : Tally) : List Visit → Tally × Bool
  | [] => (t, true)
  | v :: rest => if h : v.slot < t.extent.area then (t.add v h).absorb rest else (t, false)

end Tally

end Relief
