import Relief.Proofs.Wgsl.Rows

/-!
# Closed source

The source of a fragment stage is written by passes that do not know of each other: declarations by
the number of textures, the helper function by a look at all instructions, and one row for each
instruction, whose numbers have holes. The text that comes of it is closed all the same.

* `Scoped`, `definitions`, `IsClosed`: what it means that rows are closed, said of their names
  alone;
* `IsRow`: what a row of a stage can be;
* `IsLowered`: what lowering sees to;
* `IsLowered.scoped_lets`: **values are used behind the rows that define them**;
* `IsLowered.definitions_varName`, `definitions_textureName`, `length_definitions_inverse3`:
  **values, textures and the helper function are defined once**;
* `emitted_source_is_closed`: so **the source of every program is closed**.
-/

namespace Relief.Wgsl

open Shading (Instruction Program)

/-! ## 1. Closed text -/

/-- Read from the top, rows use words of the language, and what rows above them have defined. -/
def Scoped : (known rows : List String) → Prop
  | _, [] => True
  | known, row :: rest =>
    (∀ name ∈ used row, name ∈ ownWords ∨ name ∈ known) ∧ Scoped (known ++ defined row) rest

instance Scoped.decidable : ∀ known rows, Decidable (Scoped known rows)
  | _, [] => .isTrue trivial
  | known, row :: rest =>
    have := Scoped.decidable (known ++ defined row) rest
    inferInstanceAs (Decidable ((∀ name ∈ used row, name ∈ ownWords ∨ name ∈ known) ∧
      Scoped (known ++ defined row) rest))

/-- The rows that define a name. -/
def definitions (name : String) (rows : List String) : List String :=
  rows.filter fun row => name ∈ defined row

/-- Rows of a fragment stage that is closed. -/
structure IsClosed (rows : List String) : Prop where
  /-- What stands on the right of a row is defined above it. -/
  ordered : Scoped [] rows
  /-- A value that is named anywhere is defined in one row, by `let`. -/
  values : ∀ id, (∃ row ∈ rows, varName id ∈ names row) →
    ∃ row, definitions (varName id) rows = [row] ∧ (names row).head? = some "let"
  /-- The last value, and nothing else, is returned. -/
  result : ∃ before last result, rows = before ++ [last, result, "\x7d", ""] ∧
    (names last).head? = some "let" ∧ (names result).head? = some "return" ∧
    ∃ name, defined last = [name] ∧ name ∈ used result ∧
      ∀ other ∈ used result, other ∈ ownWords ∨ other = name
  /-- A texture that is used is declared once, and bound at its number. -/
  textures : ∀ k, (∃ row ∈ rows, textureName k ∈ used row) →
    definitions (textureName k) rows = [declaration k]
  /-- What is declared is a texture, and is used. -/
  declared : ∀ row ∈ rows, (names row).head? = some "group" →
    ∃ k, row = declaration k ∧ ∃ other ∈ rows, textureName k ∈ used other
  /-- The helper function is there once if there is need of it, and otherwise not at all. -/
  inverse : (definitions "inverse3" rows).length =
    if ∃ row ∈ rows, "inverse3" ∈ used row then 1 else 0

theorem Scoped.append {known rows more : List String} (h : Scoped known rows)
    (hm : Scoped (known ++ rows.flatMap defined) more) : Scoped known (rows ++ more) := by
  induction rows generalizing known with
  | nil => simpa using hm
  | cons row rest ih =>
    refine ⟨h.1, ih h.2 ?_⟩
    rwa [List.append_assoc, ← List.flatMap_cons]

theorem Scoped.mono {known more rows : List String} (h : Scoped known rows) (sub : known ⊆ more) :
    Scoped more rows := by
  induction rows generalizing known more with
  | nil => trivial
  | cons row rest ih =>
    refine ⟨fun name use => (h.1 name use).imp id (sub ·), ih h.2 ?_⟩
    exact List.append_subset.mpr ⟨fun _ hk => List.mem_append_left _ (sub hk),
      List.subset_append_right _ _⟩

theorem scoped_of_unused {rows : List String} (h : ∀ row ∈ rows, used row = [])
    (known : List String) : Scoped known rows := by
  induction rows generalizing known with
  | nil => trivial
  | cons row rest ih =>
    refine ⟨?_, ih (fun r hr => h r (List.mem_cons_of_mem _ hr)) _⟩
    rw [h row List.mem_cons_self]
    exact nofun

theorem definitions_append (name : String) (rows more : List String) :
    definitions name (rows ++ more) = definitions name rows ++ definitions name more :=
  List.filter_append ..

theorem definitions_eq_nil {name : String} {rows : List String}
    (h : ∀ row ∈ rows, name ∉ defined row) : definitions name rows = [] :=
  List.filter_eq_nil_iff.mpr fun row hr => by simpa using h row hr

/-- Of rows that define different names, one defines this name. -/
theorem definitions_map_eq_singleton {α : Type} {items : List α} (distinct : items.Nodup) {a : α}
    (ha : a ∈ items) {row : α → String} {name : String}
    (h : ∀ b ∈ items, name ∈ defined (row b) ↔ b = a) :
    definitions name (items.map row) = [row a] := by
  obtain ⟨before, after, rfl⟩ := List.append_of_mem ha
  obtain ⟨-, behind, apart⟩ := List.nodup_append.mp distinct
  have fore : definitions name (before.map row) = [] := definitions_eq_nil fun r hr => by
    obtain ⟨b, hb, rfl⟩ := List.mem_map.mp hr
    rw [h b (List.mem_append_left _ hb)]
    exact apart b hb a List.mem_cons_self
  have aft : definitions name (after.map row) = [] := definitions_eq_nil fun r hr => by
    obtain ⟨b, hb, rfl⟩ := List.mem_map.mp hr
    rw [h b (List.mem_append_right _ (List.mem_cons_of_mem _ hb))]
    rintro rfl
    exact (List.nodup_cons.mp behind).1 hb
  rw [List.map_append, List.map_cons, definitions_append, fore, List.nil_append, definitions,
    List.filter_cons, if_pos (decide_eq_true ((h a ha).mpr rfl)), ← definitions, aft]

/-! ## 2. Rows of a stage -/

/-- The rows that every stage has. -/
def plainRows : List String :=
  "" :: "\x7d" :: headRows

/-- What a row of a stage can be. -/
inductive IsRow (f : Fragment) : String → Prop where
  | texture {k : Nat} (lt : k < f.textures) : IsRow f (declaration k)
  | written {row : String} (h : row ∈ plainRows ++ inverseRows) : IsRow f row
  | value {l : Let} (h : l ∈ f.lines) : IsRow f l.row
  | colour : IsRow f (returnRow f.colour)

theorem written_of_mem_middle {f : Fragment} {row : String} (h : row ∈ f.middle) :
    row ∈ plainRows ++ inverseRows := by
  rcases List.mem_append.mp h with h | h
  · split at h
    · cases h
    · exact List.mem_append_left _ (List.mem_singleton.mp h ▸ List.mem_cons_self)
  rcases List.mem_append.mp h with h | h
  · split at h
    · exact List.mem_append_right _ h
    · cases h
  · exact List.mem_append_left _ (List.mem_cons_of_mem _ (List.mem_cons_of_mem _ h))

theorem written_of_mem_end : ∀ row ∈ ["\x7d", ""], row ∈ plainRows ++ inverseRows := by
  decide

theorem isRow_of_mem {f : Fragment} {row : String} (h : row ∈ f.rows) : IsRow f row := by
  rcases List.mem_append.mp h with h | h
  · obtain ⟨k, hk, rfl⟩ := List.mem_map.mp h
    exact .texture (List.mem_range.mp hk)
  rcases List.mem_append.mp h with h | h
  · exact .written (written_of_mem_middle h)
  rcases List.mem_append.mp h with h | h
  · obtain ⟨l, hl, rfl⟩ := List.mem_map.mp h
    exact .value hl
  rcases List.mem_cons.mp h with rfl | h
  · exact .colour
  · exact .written (written_of_mem_end row h)

/-- In the rows that have been written out, there are no values and no textures, and nothing is
    inverted. -/
theorem written_rows : ∀ row ∈ plainRows ++ inverseRows,
    (∀ name ∈ names row ++ defined row ++ used row,
      Shading.readVar name.toList = none ∧ Shading.readTexture name.toList = none) ∧
    "inverse3" ∉ used row ∧ (names row).head? ≠ some "group" := by
  decide +kernel

/-- No word is a value or a texture. -/
theorem written_words : ∀ name ∈ "inverse3" :: "frag" :: "px" :: ownWords,
    Shading.readVar name.toList = none ∧ Shading.readTexture name.toList = none := by
  decide +kernel

theorem varName_ne {name : String} (h : Shading.readVar name.toList = none) (id : Nat) :
    varName id ≠ name := by
  rintro rfl
  rw [Shading.readVar_varName] at h
  cases h

theorem textureName_ne {name : String} (h : Shading.readTexture name.toList = none) (k : Nat) :
    textureName k ≠ name := by
  rintro rfl
  rw [Shading.readTexture_textureName] at h
  cases h

theorem varName_not_mem {words : List String}
    (h : ∀ word ∈ words, Shading.readVar word.toList = none) (id : Nat) : varName id ∉ words :=
  fun mem => varName_ne (h _ mem) id rfl

theorem textureName_not_mem {words : List String}
    (h : ∀ word ∈ words, Shading.readTexture word.toList = none) (k : Nat) : textureName k ∉ words :=
  fun mem => textureName_ne (h _ mem) k rfl

theorem readTexture_varName (id : Nat) : Shading.readTexture (varName id).toList = none := by
  rw [Shading.toList_varName]
  rfl

theorem readVar_textureName (k : Nat) : Shading.readVar (textureName k).toList = none := by
  rw [Shading.toList_textureName]
  rfl

theorem textureName_injective {k k' : Nat} (h : textureName k = textureName k') : k = k' := by
  have read := Shading.readTexture_textureName k
  rw [h, Shading.readTexture_textureName] at read
  exact (Option.some.inj read).symm

theorem varName_not_mem_ownWords (id : Nat) : varName id ∉ ownWords :=
  varName_not_mem (fun word h => (written_words word (by simp [h])).1) id

theorem textureName_not_mem_ownWords (k : Nat) : textureName k ∉ ownWords :=
  textureName_not_mem (fun word h => (written_words word (by simp [h])).2) k

theorem varName_not_mem_written {row : String} (hr : row ∈ plainRows ++ inverseRows) (id : Nat) :
    varName id ∉ names row ∧ varName id ∉ defined row := by
  have absent := varName_not_mem (fun word hw => ((written_rows row hr).1 word hw).1) id
  rw [List.mem_append, List.mem_append, not_or, not_or] at absent
  exact absent.1

theorem textureName_not_mem_written {row : String} (hr : row ∈ plainRows ++ inverseRows)
    (k : Nat) : textureName k ∉ defined row ∧ textureName k ∉ used row := by
  have absent := textureName_not_mem (fun word hw => ((written_rows row hr).1 word hw).2) k
  rw [List.mem_append, List.mem_append, not_or, not_or] at absent
  exact ⟨absent.1.2, absent.2⟩

/-! ## 3. What is named -/

section MayName

variable {i : Instruction}

theorem mem_operands_of_mayName {id : Nat} (h : MayName i (varName id)) :
    id ∈ i.term.operands := by
  generalize e : varName id = name at h
  cases h with
  | word h => exact absurd e (varName_ne (written_words name (List.mem_cons_of_mem _ h)).1 id)
  | operand h => exact varName_injective e ▸ h
  | texture h => exact absurd e (textureName_ne (readTexture_varName id) _).symm
  | inverse h => exact absurd e (varName_ne (written_words _ List.mem_cons_self).1 id)

theorem texture?_of_mayName {k : Nat} (h : MayName i (textureName k)) : i.texture? = some k := by
  generalize e : textureName k = name at h
  cases h with
  | word h => exact absurd e (textureName_ne (written_words name (List.mem_cons_of_mem _ h)).2 k)
  | operand h => exact absurd e (textureName_ne (readTexture_varName _) k)
  | texture h => exact textureName_injective e ▸ h
  | inverse h => exact absurd e (textureName_ne (written_words _ List.mem_cons_self).2 k)

theorem inverts_of_mayName (h : MayName i "inverse3") : i.inverts = true := by
  have other : "inverse3" ∉ "frag" :: "px" :: ownWords := by decide
  generalize e : "inverse3" = name at h
  cases h with
  | word h => exact absurd (e ▸ h) other
  | operand h => exact absurd e.symm (varName_ne (written_words _ List.mem_cons_self).1 _)
  | texture h => exact absurd e.symm (textureName_ne (written_words _ List.mem_cons_self).2 _)
  | inverse h => exact h

/-- What is sampled is bound. -/
theorem lt_of_texture? {L : List Instruction} {textures k : Nat} (fits : i.Fits L textures)
    (h : i.texture? = some k) : k < textures := by
  obtain ⟨id, kind, term⟩ := i
  cases term <;> cases h
  exact fits.2

end MayName

/-! ## 4. Programs -/

/-- What lowering sees to: the output comes last, and every texture that is bound is sampled. -/
structure IsLowered (p : Program) : Prop where
  wellTyped : Shading.WellTyped p.inputs.length p.instructions
  finite : ∀ i ∈ p.instructions, i.IsFinite
  last : ∃ before o, p.instructions = before ++ [o] ∧ o.id = p.output
  sampled : ∀ k < p.inputs.length, ∃ i ∈ p.instructions, i.texture? = some k

/-- The programs of recorded graphs are lowered. -/
theorem isLowered_of_recorded {id : Nat} {target : Extent} {g : Shading.Graph}
    {nodes : List Shading.Node} (h : Shading.Recorded id target g nodes) {out : Shading.Node}
    (hout : out ∈ nodes) (hd : out.kind.isDrawable = true) :
    ∃ p, g.compile out = .ok p ∧ IsLowered p := by
  have sound := h.sound
  have small : ∀ i ∈ g.instructions.toList, i.id < g.instructions.toList.length :=
    fun i hi => sound.id_lt_length hi
  obtain ⟨compiled, lowered⟩ := sound.compile hout hd
  refine ⟨_, compiled, lowered.wellTyped, Shading.isFinite_lower h.isFinite out.id g.target, ?_, ?_⟩
  · obtain ⟨_, o, ho, hid, _⟩ := sound.nodes out hout
    have output := sound.wellTyped.getLast?_slice small ho
    have last := congrArg List.getLast? (Shading.map_of_rebinds
      (Shading.lower_rebinds g.instructions.toList out.id g.target) fun id _ => id)
    rw [hid] at output
    rw [List.getLast?_map, List.getLast?_map, output] at last
    obtain ⟨o', found, same⟩ := Option.map_eq_some_iff.mp last
    obtain ⟨before, split⟩ := List.getLast?_eq_some_iff.mp found
    exact ⟨before, o', split, same.trans hid⟩
  · intro k lt
    obtain ⟨-, first⟩ := Shading.lower_firstUses g.instructions.toList out.id g.target
    have use := List.mem_range.mpr lt
    rw [← first, List.mem_eraseDups] at use
    exact List.mem_filterMap.mp use

section Rows

variable {p : Program} {row : String}

theorem row_mem_rows {i : Instruction} (hi : i ∈ p.instructions) :
    (lineOf p.target i).row ∈ p.fragment.rows :=
  List.mem_append_right _ (List.mem_append_right _ (List.mem_append_left _
    (List.mem_map_of_mem (List.mem_map_of_mem hi))))

variable (h : IsLowered p) (hrow : row ∈ p.fragment.rows)
include h hrow

/-- **What a row uses** is named by an instruction or in the colour, unless the row is written
    out. -/
theorem IsLowered.used_cases {name : String} (use : name ∈ used row) :
    row ∈ plainRows ++ inverseRows ∨ (∃ i ∈ p.instructions, MayName i name) ∨
      name ∈ ownWords ∨ name = varName p.output := by
  cases isRow_of_mem hrow with
  | texture lt =>
    rw [used_declaration] at use
    cases use
  | written hr => exact .inl hr
  | value hl =>
    obtain ⟨i, hi, rfl⟩ := List.mem_map.mp hl
    rw [Let.used_row] at use
    exact .inr (.inl ⟨i, hi, mayName_of_mem_names (h.finite i hi) use⟩)
  | colour =>
    rw [used_returnRow] at use
    exact .inr (.inr (mem_names_colour use))

theorem IsLowered.exists_texture {k : Nat} (use : textureName k ∈ used row) :
    ∃ i ∈ p.instructions, i.texture? = some k := by
  rcases h.used_cases hrow use with written | ⟨i, hi, name⟩ | own | output
  · exact absurd use (textureName_not_mem_written written k).2
  · exact ⟨i, hi, texture?_of_mayName name⟩
  · exact absurd own (textureName_not_mem_ownWords k)
  · exact absurd output (textureName_ne (readTexture_varName _) k)

theorem IsLowered.exists_inverts (use : "inverse3" ∈ used row) :
    ∃ i ∈ p.instructions, i.inverts = true := by
  rcases h.used_cases hrow use with written | ⟨i, hi, name⟩ | own | output
  · exact absurd use (written_rows row written).2.1
  · exact ⟨i, hi, inverts_of_mayName name⟩
  · exact absurd own (by decide)
  · exact absurd output.symm (varName_ne (written_words _ List.mem_cons_self).1 _)

/-- **A value that is named anywhere is that of an instruction.** -/
theorem IsLowered.exists_id {id : Nat} (name : varName id ∈ names row) :
    ∃ i ∈ p.instructions, i.id = id := by
  cases isRow_of_mem hrow with
  | @texture k lt =>
    rw [names_declaration] at name
    refine absurd name (varName_not_mem ?_ id)
    simp only [List.forall_mem_cons]
    exact ⟨rfl, rfl, rfl, readVar_textureName k, rfl, rfl, nofun⟩
  | written hr => exact absurd name (varName_not_mem_written hr id).1
  | value hl =>
    obtain ⟨i, hi, rfl⟩ := List.mem_map.mp hl
    rw [Let.names_row] at name
    rcases List.mem_cons.mp name with e | name
    · exact absurd e (varName_ne rfl id)
    rcases List.mem_cons.mp name with e | name
    · exact ⟨i, hi, (varName_injective e).symm⟩
    rcases List.mem_append.mp name with kind | value
    · exact absurd (mem_ownWords_of_kind kind) (varName_not_mem_ownWords id)
    · have reads := mem_operands_of_mayName (mayName_of_mem_names (h.finite i hi) value)
      exact ((h.wellTyped.fits i hi).refers id reads).2
  | colour =>
    rw [names_returnRow] at name
    rcases List.mem_cons.mp name with e | name
    · exact absurd e (varName_ne rfl id)
    · have e := (mem_names_colour name).resolve_left (varName_not_mem_ownWords id)
      obtain ⟨before, o, split, output⟩ := h.last
      refine ⟨o, by rw [split]; exact List.mem_append_right _ (List.mem_singleton_self o), ?_⟩
      rw [output, varName_injective e]

end Rows

/-! ## 5. Scope -/

/-- What a stage provides for its values. -/
structure Fragment.Provides (f : Fragment) (known : List String) : Prop where
  words : ∀ name ∈ ["frag", "px"], name ∈ known
  textures : ∀ k < f.textures, textureName k ∈ known
  inverse : f.invertsMatrices = true → "inverse3" ∈ known

namespace Fragment

variable {f : Fragment} {known more : List String}

theorem Provides.mono (h : f.Provides known) (sub : known ⊆ more) : f.Provides more where
  words name hn := sub (h.words name hn)
  textures k lt := sub (h.textures k lt)
  inverse inverts := sub (h.inverse inverts)

/-- The helper function is closed, and defines what it is called. -/
theorem scoped_inverseRows :
    Scoped [] inverseRows ∧ "inverse3" ∈ inverseRows.flatMap defined := by
  decide +kernel

theorem scoped_headRows :
    Scoped [] headRows ∧ ∀ name ∈ ["frag", "px"], name ∈ headRows.flatMap defined := by
  decide +kernel

/-- **In front of the values, everything is in scope.** -/
theorem scoped_middle (f : Fragment) (known : List String) : Scoped known f.middle := by
  rw [middle]
  refine (scoped_of_unused ?_ _).append
    (Scoped.append ?_ (scoped_headRows.1.mono (List.nil_subset _)))
  · intro row hr
    split at hr
    · cases hr
    · rw [List.mem_singleton.mp hr]
      rfl
  · by_cases inverts : f.invertsMatrices = true
    · rw [if_pos inverts]
      exact scoped_inverseRows.1.mono (List.nil_subset _)
    · rw [if_neg inverts]
      trivial

theorem provides_front (f : Fragment) :
    f.Provides (((List.range f.textures).map declaration).flatMap defined
      ++ f.middle.flatMap defined) where
  words name hn := by
    rw [middle, List.flatMap_append, List.flatMap_append]
    exact List.mem_append_right _ (List.mem_append_right _
      (List.mem_append_right _ (scoped_headRows.2 name hn)))
  textures k lt := by
    refine List.mem_append_left _ (List.mem_flatMap.mpr ⟨declaration k, ?_, ?_⟩)
    · exact List.mem_map_of_mem (List.mem_range.mpr lt)
    · rw [defined_declaration]
      exact List.mem_singleton_self _
  inverse inverts := by
    rw [middle, if_pos inverts, List.flatMap_append, List.flatMap_append]
    exact List.mem_append_right _ (List.mem_append_right _
      (List.mem_append_left _ scoped_inverseRows.2))

end Fragment

/-- **Values are used behind the rows that define them**, by induction on the rows that are left. -/
theorem IsLowered.scoped_lets {p : Program} (h : IsLowered p) {done rest : List Instruction}
    (split : p.instructions = done ++ rest) {known : List String}
    (provides : p.fragment.Provides known) (named : ∀ i ∈ done, varName i.id ∈ known) :
    Scoped known (rest.map fun i => (lineOf p.target i).row) := by
  induction rest generalizing done known with
  | nil => trivial
  | cons i rest ih =>
    have hi : i ∈ p.instructions := by
      rw [split]
      exact List.mem_append_right _ List.mem_cons_self
    have fits := h.wellTyped.fits i hi
    have ordered := split ▸ h.wellTyped.ordered
    have further : p.instructions = (done ++ [i]) ++ rest := by
      rw [split, List.append_assoc, List.singleton_append]
    refine ⟨fun name use => ?_, ih further (provides.mono (List.subset_append_left _ _)) ?_⟩
    · rw [Let.used_row] at use
      cases mayName_of_mem_names (h.finite i hi) use with
      | word hw =>
        rcases List.mem_cons.mp hw with rfl | hw
        · exact .inr (provides.words _ (by decide))
        rcases List.mem_cons.mp hw with rfl | hw
        · exact .inr (provides.words _ (by decide))
        · exact .inl hw
      | operand ho =>
        obtain ⟨lt, e, he, rfl⟩ := fits.refers _ ho
        exact .inr (named e (Shading.mem_of_id_lt ordered (split ▸ he) lt))
      | texture ht => exact .inr (provides.textures _ (lt_of_texture? fits ht))
      | inverse inverts => exact .inr (provides.inverse (List.any_eq_true.mpr ⟨i, hi, inverts⟩))
    · intro e he
      rw [Let.defined_row]
      rcases List.mem_append.mp he with he | he
      · exact List.mem_append_left _ (named e he)
      · rw [List.mem_singleton.mp he]
        exact List.mem_append_right _ (List.mem_singleton_self _)

/-- **What stands on the right of a row is defined above it.** -/
theorem IsLowered.scoped_rows {p : Program} (h : IsLowered p) : Scoped [] p.fragment.rows := by
  have lets : p.fragment.lines.map Let.row
      = p.instructions.map fun i => (lineOf p.target i).row := List.map_map
  refine (scoped_of_unused ?_ _).append ((p.fragment.scoped_middle _).append ?_)
  · intro row hr
    obtain ⟨k, -, rfl⟩ := List.mem_map.mp hr
    exact used_declaration k
  rw [List.nil_append, lets]
  refine (h.scoped_lets (List.nil_append _).symm p.fragment.provides_front nofun).append ?_
  refine ⟨fun name use => ?_, nofun, nofun, trivial⟩
  rw [used_returnRow] at use
  rcases mem_names_colour use with own | rfl
  · exact .inl own
  · obtain ⟨before, o, split, output⟩ := h.last
    have ho : o ∈ p.instructions := by
      rw [split]
      exact List.mem_append_right _ (List.mem_singleton_self o)
    refine .inr (List.mem_append_right _ (List.mem_flatMap.mpr
      ⟨(lineOf p.target o).row, List.mem_map_of_mem ho, ?_⟩))
    · rw [Let.defined_row, ← output]
      exact List.mem_singleton_self _

/-! ## 6. Definitions -/

/-- Nothing is defined behind the values. -/
theorem definitions_end (name : String) (colour : Expr) :
    definitions name [returnRow colour, "\x7d", ""] = [] := by
  have last : ∀ row ∈ ["\x7d", ""], defined row = [] := by decide
  refine definitions_eq_nil fun row hr => ?_
  rcases List.mem_cons.mp hr with rfl | hr
  · rw [defined_returnRow]
    exact List.not_mem_nil
  · rw [last row hr]
    exact List.not_mem_nil

/-- What is not defined in rows that are written out is defined in declarations and values. -/
theorem definitions_rows {name : String} (f : Fragment)
    (h : ∀ row ∈ plainRows ++ inverseRows, name ∉ defined row) :
    definitions name f.rows = definitions name ((List.range f.textures).map declaration)
      ++ definitions name (f.lines.map Let.row) := by
  rw [Fragment.rows, definitions_append, definitions_append, definitions_append,
    definitions_eq_nil fun row hr => h row (written_of_mem_middle hr), definitions_end,
    List.nil_append, List.append_nil]

/-- Declarations define textures only. -/
theorem definitions_declarations {name : String} (h : ∀ k, textureName k ≠ name) (textures : Nat) :
    definitions name ((List.range textures).map declaration) = [] := by
  refine definitions_eq_nil fun row hr => ?_
  obtain ⟨k, -, rfl⟩ := List.mem_map.mp hr
  rw [defined_declaration, List.mem_singleton]
  exact (h k).symm

/-- Values are all that `let` defines in the stage itself. -/
theorem definitions_lets {name : String} (h : ∀ id, varName id ≠ name) (lines : List Let) :
    definitions name (lines.map Let.row) = [] := by
  refine definitions_eq_nil fun row hr => ?_
  obtain ⟨l, -, rfl⟩ := List.mem_map.mp hr
  rw [Let.defined_row, List.mem_singleton]
  exact (h l.id).symm

/-- **A value is defined once**, in the row of its instruction. -/
theorem IsLowered.definitions_varName {p : Program} (h : IsLowered p) {e : Instruction}
    (he : e ∈ p.instructions) :
    definitions (varName e.id) p.fragment.rows = [(lineOf p.target e).row] := by
  have lets : p.fragment.lines.map Let.row
      = p.instructions.map fun i => (lineOf p.target i).row := List.map_map
  have distinct : p.instructions.Nodup := h.wellTyped.ordered.imp fun lt same => by
    rw [same] at lt
    exact Nat.lt_irrefl _ lt
  rw [definitions_rows, definitions_declarations, lets, List.nil_append,
    definitions_map_eq_singleton distinct he]
  · intro i hi
    rw [Let.defined_row, List.mem_singleton]
    constructor
    · intro name
      have found := find?_id h.wellTyped.ordered hi
      have same : e.id = i.id := varName_injective name
      rw [← same, find?_id h.wellTyped.ordered he] at found
      exact (Option.some.inj found).symm
    · rintro rfl
      rfl
  · exact fun k => textureName_ne (readTexture_varName _) k
  · exact fun row hr => (varName_not_mem_written hr e.id).2

/-- **A texture is declared once**, if it is bound. -/
theorem definitions_textureName (f : Fragment) {k : Nat} (lt : k < f.textures) :
    definitions (textureName k) f.rows = [declaration k] := by
  rw [definitions_rows, definitions_lets, List.append_nil,
    definitions_map_eq_singleton List.nodup_range (List.mem_range.mpr lt)]
  · intro b _
    rw [defined_declaration, List.mem_singleton]
    exact ⟨fun name => (textureName_injective name).symm, fun same => by rw [same]⟩
  · exact fun id => varName_ne (readVar_textureName k) id
  · exact fun row hr => (textureName_not_mem_written hr k).1

/-- **The helper function is there once or not at all.** -/
theorem length_definitions_inverse3 (f : Fragment) :
    (definitions "inverse3" f.rows).length = if f.invertsMatrices then 1 else 0 := by
  have head : definitions "inverse3" headRows = [] := by decide +kernel
  have gap : definitions "inverse3" (if f.textures = 0 then [] else [""]) = [] := by
    split <;> decide
  have helper : (definitions "inverse3" inverseRows).length = 1 := by decide +kernel
  have textures : ∀ k, textureName k ≠ "inverse3" :=
    textureName_ne (written_words _ List.mem_cons_self).2
  have values : ∀ id, varName id ≠ "inverse3" := varName_ne (written_words _ List.mem_cons_self).1
  rw [Fragment.rows, Fragment.middle]
  simp only [definitions_append, definitions_declarations textures, definitions_lets values,
    definitions_end, gap, head, List.nil_append, List.append_nil]
  split
  · exact helper
  · rfl

/-! ## 7. Closed stages -/

/-- **The rows of a lowered program are closed.** -/
theorem IsLowered.isClosed {p : Program} (h : IsLowered p) : IsClosed p.fragment.rows where
  ordered := h.scoped_rows
  values id := by
    rintro ⟨row, hrow, name⟩
    obtain ⟨e, he, rfl⟩ := h.exists_id hrow name
    refine ⟨_, h.definitions_varName he, ?_⟩
    rw [Let.names_row]
    rfl
  result := by
    obtain ⟨before, o, split, output⟩ := h.last
    refine ⟨(List.range p.fragment.textures).map declaration ++ (p.fragment.middle ++
      (before.map (lineOf p.target)).map Let.row), (lineOf p.target o).row,
      returnRow p.fragment.colour, ?_, ?_, ?_, varName o.id, Let.defined_row _, ?_,
      fun other use => ?_⟩
    · rw [Fragment.rows, lines_fragment, split]
      simp only [List.map_append, List.map_cons, List.map_nil, List.append_assoc, List.cons_append,
        List.nil_append]
    · rw [Let.names_row]
      rfl
    · rw [names_returnRow]
      rfl
    · rw [used_returnRow, output]
      exact varName_mem_names_colour p.outputKind p.output
    · rw [used_returnRow] at use
      rw [output]
      exact mem_names_colour use
  textures k := by
    rintro ⟨row, hrow, use⟩
    obtain ⟨i, hi, texture⟩ := h.exists_texture hrow use
    exact definitions_textureName _ (lt_of_texture? (h.wellTyped.fits i hi) texture)
  declared row hrow first := by
    cases isRow_of_mem hrow with
    | @texture k lt =>
      obtain ⟨i, hi, texture⟩ := h.sampled k lt
      refine ⟨k, rfl, _, row_mem_rows hi, ?_⟩
      rw [Let.used_row]
      exact textureName_mem_names texture p.target
    | written hr => exact absurd first (written_rows row hr).2.2
    | value hl =>
      rw [Let.names_row] at first
      exact absurd first (by simp)
    | colour =>
      rw [names_returnRow] at first
      exact absurd first (by simp)
  inverse := by
    have called : p.fragment.invertsMatrices = true ↔
        ∃ row ∈ p.fragment.rows, "inverse3" ∈ used row := by
      constructor
      · intro inverts
        obtain ⟨i, hi, inverts⟩ := List.any_eq_true.mp inverts
        refine ⟨_, row_mem_rows hi, ?_⟩
        rw [Let.used_row]
        exact inverse3_mem_names (h.wellTyped.fits i hi) inverts p.target
      · rintro ⟨row, hrow, use⟩
        exact List.any_eq_true.mpr (h.exists_inverts hrow use)
    rw [length_definitions_inverse3]
    exact if_congr called rfl rfl

/-- **The source of a fragment stage is closed.** For every recorded graph and every node of it that
    can be drawn, every value that is named in the source is defined in one row, by `let`; what stands
    on the right of a row is a word of the language or defined above it; what is returned is made of
    the last value alone; the textures in use are the declared ones, each of them declared once and at
    its own number; and the function that inverts matrices is there once if a row calls it, and
    otherwise not at all. -/
theorem emitted_source_is_closed {id : Nat} {target : Extent} {g : Shading.Graph}
    {nodes : List Shading.Node} (h : Shading.Recorded id target g nodes) {out : Shading.Node}
    (hout : out ∈ nodes) (hd : out.kind.isDrawable = true) :
    ∃ p, g.compile out = .ok p ∧ IsClosed (rowsOf p.source.toList) := by
  obtain ⟨p, compiled, lowered⟩ := isLowered_of_recorded h hout hd
  refine ⟨p, compiled, ?_⟩
  rw [Program.source, Fragment.rowsOf_text]
  exact lowered.isClosed

/-- A texel under the inverse of a matrix, behind a number that is not in use. -/
def thornInstructions : List Instruction :=
  [⟨0, .i32, .integer 7⟩, ⟨1, .vec4, .texel 0⟩, ⟨2, .vec3, .apply .xyz [1]⟩,
    ⟨3, .mat3, .construct [2, 2, 2]⟩, ⟨4, .mat3, .apply .inverse [3]⟩,
    ⟨5, .vec3, .apply (.binary .mul) [4, 2]⟩]

/-- The graph after so many calls, the second of which binds the texture. -/
def thornGraph (calls : Nat) : Shading.Graph where
  id := 0
  target := ⟨1, 1⟩
  instructions := (thornInstructions.take calls).toArray
  textures := ([Shading.moss].take (calls - 1)).toArray

/-- The nodes that so many calls have answered, the last one first. -/
def thornNodes (calls : Nat) : List Shading.Node :=
  ((thornInstructions.take calls).map fun i => ⟨0, i.id, i.kind⟩).reverse

theorem recorded_thornGraph : Shading.Recorded 0 ⟨1, 1⟩ (thornGraph 6) (thornNodes 6) := by
  have start : Shading.Recorded 0 ⟨1, 1⟩ (thornGraph 0) (thornNodes 0) := .empty
  have seven : Shading.Recorded 0 ⟨1, 1⟩ (thornGraph 1) (thornNodes 1) :=
    .record start (.integer 7) (by decide) rfl
  have texel : Shading.Recorded 0 ⟨1, 1⟩ (thornGraph 2) (thornNodes 2) :=
    .record seven (.texture Shading.moss) (by decide) (Shading.Graph.record_texture rfl (by decide))
  have vector : Shading.Recorded 0 ⟨1, 1⟩ (thornGraph 3) (thornNodes 3) :=
    .record texel (.apply .xyz [⟨0, 1, .vec4⟩]) (by decide) rfl
  have matrix : Shading.Recorded 0 ⟨1, 1⟩ (thornGraph 4) (thornNodes 4) :=
    .record vector (.construct [⟨0, 2, .vec3⟩, ⟨0, 2, .vec3⟩, ⟨0, 2, .vec3⟩]) (by decide) rfl
  have inverse : Shading.Recorded 0 ⟨1, 1⟩ (thornGraph 5) (thornNodes 5) :=
    .record matrix (.apply .inverse [⟨0, 3, .mat3⟩]) (by decide) rfl
  exact .record inverse (.apply (.binary .mul) [⟨0, 4, .mat3⟩, ⟨0, 2, .vec3⟩]) (by decide) rfl

/-- Its source has a hole in the numbers, a texture and the helper function, and is closed. -/
theorem thornGraph_is_closed :
    ∃ p, Shading.Recorded 0 ⟨1, 1⟩ (thornGraph 6) (thornNodes 6) ∧
      (⟨0, 5, .vec3⟩ : Shading.Node) ∈ thornNodes 6 ∧ Shading.Kind.isDrawable .vec3 = true ∧
      (thornGraph 6).compile ⟨0, 5, .vec3⟩ = .ok p ∧
      p.fragment.lines.map Let.id = [1, 2, 3, 4, 5] ∧ p.fragment.textures = 1 ∧
      p.fragment.invertsMatrices = true ∧ IsClosed (rowsOf p.source.toList) := by
  have mem : (⟨0, 5, .vec3⟩ : Shading.Node) ∈ thornNodes 6 := List.mem_cons_self
  obtain ⟨p, compiled, closed⟩ := emitted_source_is_closed recorded_thornGraph mem rfl
  obtain rfl := Except.ok.inj compiled
  exact ⟨_, recorded_thornGraph, mem, rfl, compiled, rfl, rfl, rfl, closed⟩

end Relief.Wgsl
