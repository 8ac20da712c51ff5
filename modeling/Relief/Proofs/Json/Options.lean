import Relief.Options
import Relief.Proofs.Json.Records
import Relief.Proofs.Json.Writing

/-!
# Options read field by field

Options are read from an object that may say any of the fields, in any order, with anything else
among them. What is not said keeps its default. The worker settings are an object in the object, and
the same holds of it.

* `Threading.only`, `Options.only`: only some fields of a record, the others being the defaults;
* `Options.Tells`: what an object says of a field;
* `Options.read_of_holds`: **what is read are the fields that are said**;
* `Options.read_text`: **options are read as they were written**;
* `Options.read_of_repeats`: **a field that is said twice is refused**, in either object;
* `Options.options_are_read_field_by_field`: all of it together.

A single is written with the fewest digits, and read through double precision. That it is read as it
was written is asked of the two numbers of the options where it is needed.
-/

namespace Relief

open Record (Holds Stages mentions)

/-! ## 1. Worker settings -/

namespace Threading

/-- Only some fields of the worker settings; the others are the defaults. -/
def only (t : Threading) (chosen : List String) : Threading where
  threads := if "threads" ∈ chosen then t.threads else ({} : Threading).threads
  pollInterval :=
    if "poll_interval_ms" ∈ chosen then t.pollInterval else ({} : Threading).pollInterval

/-- A field is written as it is in these settings. -/
def Tells (t : Threading) (f : Field Threading) (value : Json) : Prop :=
  value = f.get t

/-- How many workers there are is read as it was written, be it said or not. -/
theorem optional?_threads (t : Threading) :
    Json.optional? Json.word? (match t.threads with
      | some n => .ofWord n
      | none => .null) = some t.threads := by
  cases t.threads with
  | none => rfl
  | some n =>
    show (Json.ofWord n).word?.map some = _
    rw [Json.word?_ofWord, Option.map_some]

theorem stages (t : Threading) : Stages fields t.Tells t.only where
  step := by
    intro f hf said value told
    simp only [fields, List.mem_cons, List.not_mem_nil, or_false] at hf
    rcases hf with rfl | rfl <;> rw [told]
    · refine (congrArg (Option.map _) (optional?_threads t)).trans ?_
      simp [only]
    · simp only [Json.word?_ofWord, Option.map_some]
      simp [only]
  same := by
    intro said said' alike
    have threads := alike _ List.mem_cons_self
    have pollInterval := alike _ (List.mem_cons_of_mem _ List.mem_cons_self)
    simp only [only, threads, pollInterval]

/-- What is written for worker settings says all of their fields. -/
theorem holds_write (t : Threading) : Holds fields t.Tells (fields.map Field.name)
    (fields.map fun f => (some f.name, f.get t)) :=
  Record.holds_write (by decide) fun _ _ => rfl

/-- **The worker settings that an object says.** -/
theorem ofJson?_of_holds (t : Threading) {chosen : List String}
    {members : List (Option String × Json)} (h : Holds fields t.Tells chosen members) :
    ofJson? (.object members) = some (t.only chosen) :=
  Record.read?_of_holds t.stages h

end Threading

/-! ## 2. Options -/

namespace Options

/-- Only some fields of the options, and of their worker settings; the others are the defaults. -/
def only (o : Options) (inner chosen : List String) : Options :=
  let plain : Options := {}
  { quality := if "quality" ∈ chosen then o.quality else plain.quality
    perspective := if "perspective_factor" ∈ chosen then o.perspective else plain.perspective
    layout := if "frame" ∈ chosen then o.layout else plain.layout
    blackens := if "mask" ∈ chosen then o.blackens else plain.blackens
    clears := if "alpha_from_mask" ∈ chosen then o.clears else plain.clears
    convention := if "convention" ∈ chosen then o.convention else plain.convention
    threading := if "threading" ∈ chosen then o.threading.only inner else plain.threading }

/-- What an object says of a field of these options: what is written for it. Of the worker settings
    it may say some fields only. -/
def Tells (o : Options) (inner : List String) (f : Field Options) (value : Json) : Prop :=
  if f.name = "threading" then
    ∃ members, value = .object members ∧ Holds Threading.fields o.threading.Tells inner members
  else value = f.get o

/-- The two numbers of the options are read as they were written. -/
structure IsLegible (o : Options) : Prop where
  quality : (Json.ofSingle o.quality).single? = some o.quality
  perspective : (Json.ofSingle o.perspective).single? = some o.perspective

theorem read?_layout (l : Layout) :
    Choice.read? Layout.all Layout.name (Choice.write Layout.name l) = some l := by
  cases l <;> rfl

theorem read?_convention (c : Convention) :
    Choice.read? Convention.all Convention.name (Choice.write Convention.name c) = some c := by
  cases c <;> rfl

variable {o : Options}

theorem stages (h : o.IsLegible) (inner : List String) :
    Stages fields (o.Tells inner) (o.only inner) where
  step := by
    intro f hf said value told
    simp only [fields, List.mem_cons, List.not_mem_nil, or_false] at hf
    rcases hf with rfl | rfl | rfl | rfl | rfl | rfl | rfl
    · obtain rfl : value = .ofSingle o.quality := told
      simp only [h.quality, Option.map_some]
      simp [only]
    · obtain rfl : value = .ofSingle o.perspective := told
      simp only [h.perspective, Option.map_some]
      simp [only]
    · obtain rfl : value = Choice.write Layout.name o.layout := told
      simp only [read?_layout, Option.map_some]
      simp [only]
    · obtain rfl : value = .boolean o.blackens := told
      simp [only, Json.boolean?]
    · obtain rfl : value = .boolean o.clears := told
      simp [only, Json.boolean?]
    · obtain rfl : value = Choice.write Convention.name o.convention := told
      simp only [read?_convention, Option.map_some]
      simp [only]
    · obtain ⟨members, rfl, holds⟩ := told
      simp only [o.threading.ofJson?_of_holds holds, Option.map_some]
      simp [only]
  same := by
    intro said said' alike
    simp only [fields, List.forall_mem_cons] at alike
    obtain ⟨quality, perspective, layout, blackens, clears, convention, threading, _⟩ := alike
    simp only [only, quality, perspective, layout, blackens, clears, convention, threading]

/-- **What is read are the fields that are said**; the others keep their defaults. -/
theorem read_of_holds (h : o.IsLegible) {inner chosen : List String}
    {members : List (Option String × Json)} (holds : Holds fields (o.Tells inner) chosen members)
    {text : String} (spelt : Json.Padded text.toList (.object members)) :
    read text = .ok (o.only inner chosen) := by
  have found : ofJson? (.object members) = some (o.only inner chosen) :=
    Record.read?_of_holds (stages h inner) holds
  rw [read, read?, Json.read?_of_padded spelt, Option.bind_some, found]

theorem only_all (o : Options) :
    o.only (Threading.fields.map Field.name) (fields.map Field.name) = o := by
  simp [only, Threading.only, fields, Threading.fields]

/-- **What is written for options says all of their fields.** -/
theorem holds_write (o : Options) :
    Holds fields (o.Tells (Threading.fields.map Field.name)) (fields.map Field.name)
      (fields.map fun f => (some f.name, f.get o)) := by
  refine Record.holds_write (by decide) fun f hf => ?_
  unfold Tells
  split
  · rename_i threading
    refine ⟨_, ?_, o.threading.holds_write⟩
    simp only [fields, List.mem_cons, List.not_mem_nil, or_false] at hf
    rcases hf with rfl | rfl | rfl | rfl | rfl | rfl | rfl
    iterate 6 exact absurd threading (by decide)
    rfl
  · rfl

/-- **Options are read as they were written.** -/
theorem read_text (h : o.IsLegible) : read o.text = .ok o := by
  have threading : (Record.write Threading.fields o.threading).WellFormed := by
    cases threads : o.threading.threads <;> simp [Record.write, Threading.fields, threads]
  have options : (Record.write fields o).WellFormed := by
    simpa [Record.write, fields, Choice.write] using threading
  have all := read_of_holds h o.holds_write (Json.padded_text options)
  rwa [only_all] at all

/-- Members that say a field twice, or whose worker settings do. -/
def Repeats (members : List (Option String × Json)) : Prop :=
  (∃ f ∈ fields, 2 ≤ mentions f.name members) ∨
  ∃ inner, (some "threading", .object inner) ∈ members ∧
    ∃ f ∈ Threading.fields, 2 ≤ mentions f.name inner

/-- **A field that is said twice is refused**, whatever else is said. -/
theorem read_of_repeats {members : List (Option String × Json)} (h : Repeats members)
    {text : String} (spelt : Json.Padded text.toList (.object members)) :
    read text = .error .unreadableOptions := by
  have refused : ofJson? (.object members) = none := by
    rcases h with ⟨f, hf, twice⟩ | ⟨inner, mem, f, hf, twice⟩
    · exact Record.read?_of_twice hf twice _
    · obtain ⟨threading, found, name, set⟩ : ∃ f : Field Options,
          fields.find? (fun g => g.name = "threading") = some f ∧ f.name = "threading" ∧
          ∀ o j, f.set? o j = (Threading.ofJson? j).map fun threading => { o with threading } :=
        ⟨_, rfl, rfl, fun _ _ => rfl⟩
      rw [← name] at found mem
      refine Record.read?_of_refused found (fun o => ?_) mem _
      rw [set, Threading.ofJson?, Record.read?_of_twice hf twice, Option.map_none]
  rw [read, read?, Json.read?_of_padded spelt, Option.bind_some, refused]

/-- **Options are read field by field.** Take options whose two numbers are read as they were
    written. From a text that says some of their fields and some of their worker settings, once each
    and in any order, among any members of other names in either object, the options are read that
    take these fields, and the others from the defaults. So the text of all options is read as these
    options. A text in which a field is said twice, of the options or of the worker settings, is
    refused as invalid, whatever else it holds. Blanks may stand in all these texts wherever the
    grammar has them, and values may be nested however deeply. -/
theorem options_are_read_field_by_field (o : Options) (h : o.IsLegible) :
    (∀ inner chosen members text, Holds fields (o.Tells inner) chosen members →
      Json.Padded text.toList (.object members) → read text = .ok (o.only inner chosen)) ∧
    read o.text = .ok o ∧
    ∀ members text, Repeats members → Json.Padded text.toList (.object members) →
      ∃ failure, read text = .error failure ∧ failure.category = .validation :=
  ⟨fun _ _ _ _ holds spelt => read_of_holds h holds spelt, read_text h,
    fun _ _ repeats spelt => ⟨_, read_of_repeats repeats spelt, rfl⟩⟩

/-- Options far from the defaults. -/
def brisk : Options where
  quality := 0.75
  perspective := -1.5e-7
  layout := .rectangular
  clears := true
  threading := { threads := some 3, pollInterval := 0 }

/-- An object that says three fields of them and one of the worker settings, and other things, of
    which one has names of fields in it. -/
def memo : List (Option String × Json) := [
  (some "notes", .array [.object [(some "mask", .null), (some "mask", .null)], .null]),
  (some "threading", .object [(some "", .boolean true), (some "threads", .ofWord 3)]),
  (some "frame", .string (some "rectangular")),
  (some "quality", .ofSingle 0.75)]

/-- Its text, with blanks around it. -/
def memoText : String :=
  "\t\x7b\"notes\":[\x7b\"mask\":null,\"mask\":null\x7d,null],"
    ++ "\"threading\":\x7b\"\":true,\"threads\":3\x7d,"
    ++ "\"frame\":\"rectangular\",\"quality\":0.75\x7d\n"

/-- An object whose worker settings say one field twice. -/
def stutter : List (Option String × Json) :=
  [(some "threading", .object [(some "threads", .null), (some "threads", .ofWord 3)])]

theorem holds_memo :
    Holds fields (brisk.Tells ["threads"]) ["quality", "frame", "threading"] memo where
  texts := by decide
  gives := by
    have inner : Holds Threading.fields brisk.threading.Tells ["threads"]
        [(some "", .boolean true), (some "threads", .ofWord 3)] := by
      refine ⟨by decide, fun f hf value hv => ?_, by decide⟩
      simp only [Threading.fields, List.mem_cons, List.not_mem_nil, or_false] at hf
      rcases hf with rfl | rfl <;> simp at hv
      exact hv
    intro f hf value hv
    simp only [fields, List.mem_cons, List.not_mem_nil, or_false] at hf
    rcases hf with rfl | rfl | rfl | rfl | rfl | rfl | rfl <;> simp [memo] at hv
    · exact hv
    · exact hv
    · exact ⟨_, hv, inner⟩
  once := by decide

theorem padded_memoText : Json.Padded memoText.toList (.object memo) := by
  have wellFormed : (Json.object memo).WellFormed := by simp [memo]
  have chars : memoText.toList = ['\t'] ++ ((Json.object memo).chars ++ ['\n']) := by
    decide +kernel
  rw [chars]
  exact .mk (by decide) (Json.spells_chars wellFormed) (by decide)

theorem memo_is_read : brisk.IsLegible ∧
    Holds fields (brisk.Tells ["threads"]) ["quality", "frame", "threading"] memo ∧
    Json.Padded memoText.toList (.object memo) ∧ Repeats stutter ∧
    Json.Padded (Json.object stutter).text.toList (.object stutter) ∧
    read memoText
      = .ok { quality := 0.75, layout := .rectangular, threading := { threads := some 3 } } ∧
    read brisk.text = .ok brisk ∧
    ∃ failure, read (Json.object stutter).text = .error failure ∧
      failure.category = .validation := by
  have legible : brisk.IsLegible := ⟨rfl, rfl⟩
  have repeats : Repeats stutter := .inr ⟨_, List.mem_cons_self, by decide⟩
  have spelt : Json.Padded (Json.object stutter).text.toList (.object stutter) :=
    Json.padded_text (by simp [stutter])
  obtain ⟨some_, all, twice⟩ := options_are_read_field_by_field brisk legible
  exact ⟨legible, holds_memo, padded_memoText, repeats, spelt,
    some_ _ _ _ _ holds_memo padded_memoText, all, twice _ _ repeats spelt⟩

end Options

end Relief
