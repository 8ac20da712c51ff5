import Relief.Json.Record
import Mathlib.Data.List.Nodup

/-!
# Records read from objects

The members of an object are taken one by one, in the order in which they stand. What a record is by
then depends on the fields that have been said only, not on their order, if each field is set apart
from the others.

* `Record.mentions`: how often members have a name;
* `Record.Holds`: members that say some fields of a record, once each, among members of other names;
* `Record.Stages`: the record for each choice of fields, and what saying one more field does;
* `Record.read?_of_holds`: **what is read is the record of the fields that are said**;
* `Record.read?_of_twice`, `Record.read?_of_refused`: **nothing is read where a field is said
  twice**, nor where a field refuses its value.
-/

namespace Relief.Record

variable {α : Type}

/-! ## 1. Members -/

/-- How often members have a name. -/
def mentions (name : String) (members : List (Option String × Json)) : Nat :=
  members.countP fun m => m.1 = some name

theorem mentions_cons_self (name : String) (value : Json) (members : List (Option String × Json)) :
    mentions name ((some name, value) :: members) = mentions name members + 1 := by
  rw [mentions, List.countP_cons_of_pos (by simp)]
  rfl

theorem mentions_cons_of_ne {name name' : String} (h : name' ≠ name) (value : Json)
    (members : List (Option String × Json)) :
    mentions name ((some name', value) :: members) = mentions name members := by
  rw [mentions, List.countP_cons_of_neg (by simpa using h)]
  rfl

/-- Members that say the chosen fields of a record, once each and in any order, and no other field.
    Members of other names may stand among them, with whatever values. -/
structure Holds (fields : List (Field α)) (gives : Field α → Json → Prop) (chosen : List String)
    (members : List (Option String × Json)) : Prop where
  texts : ∀ m ∈ members, m.1 ≠ none
  gives : ∀ f ∈ fields, ∀ value, (some f.name, value) ∈ members → gives f value
  once : ∀ f ∈ fields, mentions f.name members = if f.name ∈ chosen then 1 else 0

/-- **What is written for a record says all of its fields.** -/
theorem holds_write {fields : List (Field α)} (names : (fields.map Field.name).Nodup) {a : α}
    {gives : Field α → Json → Prop} (all : ∀ f ∈ fields, gives f (f.get a)) :
    Holds fields gives (fields.map Field.name) (fields.map fun f => (some f.name, f.get a)) where
  texts := by
    intro m hm
    obtain ⟨f, _, rfl⟩ := List.mem_map.mp hm
    exact Option.some_ne_none _
  gives := by
    intro f hf value hv
    obtain ⟨g, hg, same⟩ := List.mem_map.mp hv
    obtain ⟨name, rfl⟩ : g.name = f.name ∧ g.get a = value := by simpa using same
    obtain rfl := List.inj_on_of_nodup_map names hg hf name
    exact all g hg
  once := by
    intro f hf
    have mem := List.mem_map_of_mem (f := Field.name) hf
    rw [if_pos mem, ← List.count_eq_one_of_mem names mem, mentions, List.countP_map, List.count,
      List.countP_map]
    refine List.countP_congr fun g _ => ?_
    simp

/-! ## 2. Reading them -/

/-- The record that is there when some fields have been said: one field more makes it the record of
    these fields and that one, and it does not matter in which order they have been said. -/
structure Stages (fields : List (Field α)) (gives : Field α → Json → Prop)
    (stage : List String → α) : Prop where
  step : ∀ f ∈ fields, ∀ said value, gives f value →
    f.set? (stage said) value = some (stage (f.name :: said))
  same : ∀ said said', (∀ f ∈ fields, f.name ∈ said ↔ f.name ∈ said') → stage said = stage said'

section Reading

variable {fields : List (Field α)} {gives : Field α → Json → Prop} {stage : List String → α}
variable {members : List (Option String × Json)}

/-- **What members make of a record**, when no field is said again. -/
theorem Stages.setMembers? (h : Stages fields gives stage) (said : List String)
    (texts : ∀ m ∈ members, m.1 ≠ none)
    (all : ∀ f ∈ fields, ∀ value, (some f.name, value) ∈ members → gives f value)
    (once : ∀ f ∈ fields, mentions f.name members + (if f.name ∈ said then 1 else 0) ≤ 1) :
    ∃ said', Record.setMembers? fields said members (stage said) = some (stage said') ∧
      ∀ f ∈ fields, f.name ∈ said' ↔ f.name ∈ said ∨ 0 < mentions f.name members := by
  induction members generalizing said with
  | nil => exact ⟨said, rfl, fun f _ => by simp [mentions]⟩
  | cons m rest ih =>
    obtain ⟨name, value⟩ := m
    have texts' : ∀ m ∈ rest, m.1 ≠ none := fun m hm => texts m (List.mem_cons_of_mem _ hm)
    have all' : ∀ f ∈ fields, ∀ value, (some f.name, value) ∈ rest → gives f value :=
      fun f hf value hv => all f hf value (List.mem_cons_of_mem _ hv)
    cases name with
    | none => exact absurd rfl (texts _ List.mem_cons_self)
    | some name =>
      rw [Record.setMembers?]
      cases found : fields.find? fun f => f.name = name with
      | none =>
        have other : ∀ f ∈ fields, name ≠ f.name := fun f hf same =>
          List.find?_eq_none.mp found f hf (decide_eq_true same.symm)
        obtain ⟨said', read, names⟩ := ih said texts' all' fun f hf => by
          rw [← mentions_cons_of_ne (other f hf) value]
          exact once f hf
        refine ⟨said', read, fun f hf => ?_⟩
        rw [names f hf, mentions_cons_of_ne (other f hf)]
      | some f =>
        have hf : f ∈ fields := List.mem_of_find?_eq_some found
        obtain rfl : f.name = name := by simpa using List.find?_some found
        have new := once f hf
        rw [mentions_cons_self] at new
        have unsaid : f.name ∉ said := fun said => by
          rw [if_pos said] at new
          omega
        obtain ⟨said', read, names⟩ := ih (f.name :: said) texts' all' fun g hg => by
          by_cases same : f.name = g.name
          · rw [← same, if_pos List.mem_cons_self]
            omega
          · have before := once g hg
            rw [mentions_cons_of_ne same] at before
            simpa [List.mem_cons, Ne.symm same] using before
        refine ⟨said', ?_, fun g hg => ?_⟩
        · simp only [if_neg unsaid, h.step f hf said value (all f hf value List.mem_cons_self),
            Option.bind_some]
          exact read
        · rw [names g hg, List.mem_cons]
          by_cases same : f.name = g.name
          · rw [← same, mentions_cons_self]
            simp
          · rw [mentions_cons_of_ne same]
            simp [Ne.symm same]

/-- **What is read is the record of the fields that are said.** -/
theorem read?_of_holds (h : Stages fields gives stage) {chosen : List String}
    (holds : Holds fields gives chosen members) :
    read? fields (stage []) (.object members) = some (stage chosen) := by
  obtain ⟨said, read, names⟩ := h.setMembers? [] holds.texts holds.gives fun f hf => by
    rw [holds.once f hf]
    split <;> simp
  rw [read?, read, h.same said chosen fun f hf => ?_]
  rw [names f hf, holds.once f hf]
  split <;> simp_all

/-- Members that can be read say no field again. -/
theorem once_of_setMembers? {said : List String} {a b : α}
    (h : Record.setMembers? fields said members a = some b) :
    ∀ f ∈ fields, mentions f.name members + (if f.name ∈ said then 1 else 0) ≤ 1 := by
  induction members generalizing said a with
  | nil =>
    intro f _
    rw [mentions, List.countP_nil]
    split <;> simp
  | cons m rest ih =>
    obtain ⟨_ | name, value⟩ := m
    · cases h
    rw [Record.setMembers?] at h
    intro g hg
    cases found : fields.find? fun f => f.name = name with
    | none =>
      rw [found] at h
      have other : name ≠ g.name := fun same =>
        List.find?_eq_none.mp found g hg (decide_eq_true same.symm)
      rw [mentions_cons_of_ne other]
      exact ih h g hg
    | some f =>
      rw [found] at h
      obtain rfl : f.name = name := by simpa using List.find?_some found
      dsimp only at h
      split at h
      · cases h
      · rename_i unsaid
        obtain ⟨a', _, later⟩ := Option.bind_eq_some_iff.mp h
        have after := ih later g hg
        by_cases same : f.name = g.name
        · rw [← same, if_pos List.mem_cons_self] at after
          rw [← same, mentions_cons_self, if_neg unsaid]
          omega
        · rw [mentions_cons_of_ne same]
          simpa [List.mem_cons, Ne.symm same] using after

/-- **Nothing is read where a field is said twice.** -/
theorem read?_of_twice {f : Field α} (hf : f ∈ fields) (twice : 2 ≤ mentions f.name members)
    (a : α) : read? fields a (.object members) = none := by
  refine Option.eq_none_iff_forall_ne_some.mpr fun b read => ?_
  have once := once_of_setMembers? read f hf
  omega

/-- **Nothing is read where a field refuses its value.** -/
theorem read?_of_refused {f : Field α} (found : fields.find? (fun g => g.name = f.name) = some f)
    {value : Json} (refused : ∀ a, f.set? a value = none)
    (mem : (some f.name, value) ∈ members) (a : α) : read? fields a (.object members) = none := by
  suffices all : ∀ said a, Record.setMembers? fields said members a = none from all [] a
  induction members with
  | nil => cases mem
  | cons m rest ih =>
    intro said a
    obtain ⟨_ | name, value'⟩ := m
    · rfl
    rw [Record.setMembers?]
    rcases List.mem_cons.mp mem with here | later
    · obtain ⟨rfl, rfl⟩ : f.name = name ∧ value = value' := by simpa using here
      simp only [found, refused, Option.bind_none, ite_self]
    · cases fields.find? fun f => f.name = name with
      | none => exact ih later said a
      | some g =>
        dsimp only
        split
        · rfl
        · cases g.set? a value' with
          | none => rfl
          | some a' => exact ih later _ a'

end Reading

end Relief.Record
