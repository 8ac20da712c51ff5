import Relief.Proofs.Wgsl.Emission
import Relief.Proofs.Wgsl.Names

/-!
# Rows of source

The rows of a fragment stage, and what they define and use as far as one can see without knowing how
they have been made.

* `rowsOf`, `defined`, `used`: the rows of a text, the names that a row defines, and those that
  stand on the right of it;
* `Fragment.rows`: the rows that a stage is meant to have;
* `Fragment.rowsOf_text`: **the text of a stage has these rows**;
* `defined_row`, `used_row` and the like: what they define and use.
-/

namespace Relief.Wgsl

open Shading (Kind Instruction Program)

/-! ## 1. Rows of any text -/

/-- The rows of a text. What follows the last break is a row, too. -/
def rowsOf (text : List Char) : List String :=
  (text.splitOn '\n').map .ofList

/-- The parameters of a function: the last names before colons. -/
def parameters (row : String) : List String :=
  (row.toList.splitOn ':').dropLast.filterMap fun part => (namesOf part).getLast?

/-- What a row defines: a value, a function with its parameters, or a texture. -/
def defined (row : String) : List String :=
  match names row with
  | "let" :: name :: _ => [name]
  | "fn" :: name :: _ => name :: parameters row
  | "group" :: "binding" :: "var" :: name :: _ => [name]
  | _ => []

/-- What stands on the right of a row: behind its first equals sign, or behind `return`. -/
def used (row : String) : List String :=
  match names row with
  | "let" :: _ => namesOf (row.toList.dropWhile (· ≠ '='))
  | "return" :: rest => rest
  | _ => []

theorem rowsOf_append_break (front rest : List Char) :
    rowsOf (front ++ '\n' :: rest) = rowsOf front ++ rowsOf rest := by
  rw [rowsOf, List.splitOn, List.splitOnP_append_cons front rest (by rfl), List.map_append]
  rfl

/-- A text without breaks is one row. -/
theorem rowsOf_breakless {row : String} (h : Breakless row) (rest : List Char) :
    rowsOf (row.toList ++ '\n' :: rest) = row :: rowsOf rest := by
  have plain : row.toList.splitOnP (· == '\n') = [row.toList] :=
    List.splitOnP_eq_singleton fun c hc => beq_false_of_ne fun e => h (e ▸ hc)
  rw [rowsOf_append_break, rowsOf, List.splitOn, plain, List.map_singleton, String.ofList_toList,
    List.singleton_append]

/-- A text that is written out, and ends in a break, has the rows that it has by itself. -/
theorem rowsOf_written {text : List Char} {rows : List String}
    (h : rowsOf text = rows ++ [""] ∧ text.getLast? = some '\n') (rest : List Char) :
    rowsOf (text ++ rest) = rows ++ rowsOf rest := by
  obtain ⟨split, last⟩ := h
  obtain ⟨front, rfl⟩ := List.getLast?_eq_some_iff.mp last
  rw [rowsOf_append_break] at split
  rw [List.append_assoc, List.singleton_append, rowsOf_append_break,
    List.append_cancel_right split]

/-- Texts that are made one by one have their rows one by one. -/
theorem rowsOf_join {α : Type} {text row : α → String} (h : ∀ a, Breakless (row a))
    (ht : ∀ a, text a = row a ++ "\n") (items : List α) (rest : List Char) :
    rowsOf ((String.join (items.map text)).toList ++ rest) = items.map row ++ rowsOf rest := by
  induction items with
  | nil => rfl
  | cons a items ih =>
    rw [List.map_cons, String.join_cons, String.toList_append, ht a, String.toList_append,
      List.append_assoc, List.append_assoc]
    exact (rowsOf_breakless (h a) _).trans (congrArg (row a :: ·) ih)

/-! ## 2. The rows of a stage -/

/-- The declaration of a texture. -/
def declaration (binding : Nat) : String :=
  "@group(0) @binding(" ++ toString binding ++ ") var " ++ textureName binding
    ++ ": texture_2d<f32>;"

/-- The row that names a value. -/
def Let.row (l : Let) : String :=
  "  let " ++ varName l.id ++ ": " ++ l.kind.text ++ " = " ++ l.value.text ++ ";"

/-- The row that returns a colour. -/
def returnRow (colour : Expr) : String :=
  "  return " ++ colour.text ++ ";"

/-- The function that inverts matrices, and a gap behind it. -/
def inverseRows : List String :=
  ["fn inverse3(m: mat3x3<f32>) -> mat3x3<f32> \x7b",
    "  let r0 = cross(m[1], m[2]);",
    "  let r1 = cross(m[2], m[0]);",
    "  let r2 = cross(m[0], m[1]);",
    "  let det = dot(m[0], r0);",
    "  return transpose(mat3x3<f32>(r0, r1, r2)) * (1.0 / det);",
    "\x7d",
    ""]

/-- The head of a stage, and the first value in it. -/
def headRows : List String :=
  ["@fragment",
    "fn fs(@builtin(position) frag: vec4<f32>) -> @location(0) vec4<f32> \x7b",
    "  let px = vec2<i32>(floor(frag.xy));"]

/-- The rows between the textures and the values. -/
def Fragment.middle (f : Fragment) : List String :=
  (if f.textures = 0 then [] else [""]) ++
  ((if f.invertsMatrices then inverseRows else []) ++ headRows)

/-- The rows of a stage. -/
def Fragment.rows (f : Fragment) : List String :=
  (List.range f.textures).map declaration ++ (f.middle ++
  (f.lines.map Let.row ++ [returnRow f.colour, "\x7d", ""]))

theorem textureLine_eq (binding : Nat) : textureLine binding = declaration binding ++ "\n" := by
  have last : (": texture_2d<f32>;\n" : String) = ": texture_2d<f32>;" ++ "\n" := by decide
  show _ ++ (": texture_2d<f32>;\n" : String) = (_ ++ ": texture_2d<f32>;") ++ "\n"
  rw [last, ← String.append_assoc]

theorem Let.text_eq (l : Let) : l.text = l.row ++ "\n" := by
  have last : (";\n" : String) = ";" ++ "\n" := by decide
  rw [Let.text, Let.row, last, ← String.append_assoc]

theorem breakless_declaration (binding : Nat) : Breakless (declaration binding) := by
  have number : Breakless (toString binding) := by
    refine breakless_of_isPlain ?_
    rw [Nat.toString_eq_repr, Nat.toList_repr]
    exact Shading.isPlain_toDigits binding
  have name := breakless_of_isPlain (Shading.isPlain_textureName binding)
  exact ((((Breakless.append (by simp [Breakless]) number).append (by simp [Breakless])).append
    name).append (by simp [Breakless]))

theorem Let.breakless_row (l : Let) : Breakless l.row := by
  have name := breakless_of_isPlain (Shading.isPlain_varName l.id)
  have kind := breakless_of_isPlain (Shading.isPlain_kindText l.kind)
  exact ((((((Breakless.append (by simp [Breakless]) name).append (by simp [Breakless])).append
    kind).append (by simp [Breakless])).append l.value.breakless).append (by simp [Breakless]))

theorem breakless_returnRow (colour : Expr) : Breakless (returnRow colour) :=
  (Breakless.append (by simp [Breakless]) colour.breakless).append (by simp [Breakless])

theorem rowsOf_gap (textures : Nat) (rest : List Char) :
    rowsOf ((if textures = 0 then "" else "\n").toList ++ rest)
      = (if textures = 0 then [] else [""]) ++ rowsOf rest := by
  split
  · rfl
  · exact rowsOf_append_break [] rest

theorem rowsOf_inverseText (inverts : Bool) (rest : List Char) :
    rowsOf (Fragment.inverseText inverts ++ rest)
      = (if inverts then inverseRows else []) ++ rowsOf rest := by
  rw [Fragment.inverseText]
  split
  · refine rowsOf_written ?_ rest
    -- the text is not put together before it is cut again
    show rowsOf (((((((((_ : String) ++ _) ++ _) ++ _) ++ _) ++ _) ++ _) ++ "\n").toList) = _ ∧
      (((((((((_ : String) ++ _) ++ _) ++ _) ++ _) ++ _) ++ _) ++ "\n").toList).getLast? = _
    simp only [String.toList_append]
    decide +kernel
  · rfl

theorem rowsOf_head (rest : List Char) :
    rowsOf ("@fragment\n".toList ++
      ("fn fs(@builtin(position) frag: vec4<f32>) -> @location(0) vec4<f32> \x7b\n".toList ++
      ("  let px = vec2<i32>(floor(frag.xy));\n".toList ++ rest))) = headRows ++ rowsOf rest := by
  rw [← List.append_assoc, ← List.append_assoc, List.append_assoc "@fragment\n".toList]
  exact rowsOf_written (by decide +kernel) rest

theorem Fragment.rowsOf_stageText (f : Fragment) :
    rowsOf f.stageText = headRows ++ (f.lines.map Let.row ++ [returnRow f.colour, "\x7d", ""]) := by
  have stage : f.stageText = "@fragment\n".toList ++
      ("fn fs(@builtin(position) frag: vec4<f32>) -> @location(0) vec4<f32> \x7b\n".toList ++
      ("  let px = vec2<i32>(floor(frag.xy));\n".toList ++
      (linesText f.lines ++ colourText f.colour))) := rfl
  have colour : colourText f.colour = (returnRow f.colour).toList ++ '\n' :: "\x7d\n".toList := by
    have text : colourText f.colour = "  return ".toList ++ (f.colour.text.toList ++
        (";".toList ++ '\n' :: "\x7d\n".toList)) := rfl
    rw [text, returnRow, String.toList_append, String.toList_append, List.append_assoc,
      List.append_assoc]
  have last : rowsOf "\x7d\n".toList = ["\x7d", ""] := by decide
  rw [stage, rowsOf_head, linesText, rowsOf_join Let.breakless_row Let.text_eq, colour,
    rowsOf_breakless (breakless_returnRow f.colour), last]

/-- **The text of a stage has the rows that it is meant to have.** -/
theorem Fragment.rowsOf_text (f : Fragment) : rowsOf f.text.toList = f.rows := by
  rw [toList_text, textureText, rowsOf_join breakless_declaration textureLine_eq, rowsOf_gap,
    rowsOf_inverseText, rowsOf_stageText, rows, middle]
  simp only [List.append_assoc]

/-! ## 3. What rows define and use -/

theorem names_declaration (binding : Nat) :
    names (declaration binding)
      = ["group", "binding", "var", textureName binding, "texture_2d", "f32"] := by
  have number : names (toString binding) = [] := by
    rw [names, Nat.toString_eq_repr, Nat.toList_repr, namesOf_digits isDigit_toDigits]
  have first : names "@group(0) @binding(" = ["group", "binding"] := by rfl
  have second : names ") var " = ["var"] := by rfl
  have third : names ": texture_2d<f32>;" = ["texture_2d", "f32"] := by rfl
  show names (_ ++ ") var " ++ textureName binding ++ ": texture_2d<f32>;") = _
  rw [names_append_of_starts _ ⟨':', _, rfl, rfl⟩, names_append_of_ends,
    names_append_of_starts _ ⟨')', _, rfl, rfl⟩,
    names_append_of_ends ⟨"@group(0) @binding".toList, '(', rfl, rfl⟩, number, first, second, third,
    names_textureName]
  · rfl
  · exact EndsInSign.append ⟨") var".toList, ' ', rfl, rfl⟩ _

theorem Let.names_row (l : Let) :
    names l.row = "let" :: varName l.id :: (names l.kind.text ++ names l.value.text) := by
  have first : names "  let " = ["let"] := by rfl
  have signs : names ": " = [] ∧ names " = " = [] ∧ names ";" = [] := ⟨rfl, rfl, rfl⟩
  rw [row, names_append_of_starts _ ⟨';', [], rfl, rfl⟩, names_append_of_ends,
    names_append_of_starts _ ⟨' ', _, rfl, rfl⟩, names_append_of_ends,
    names_append_of_starts _ ⟨':', _, rfl, rfl⟩,
    names_append_of_ends ⟨"  let".toList, ' ', rfl, rfl⟩, first, names_varName]
  · simp [signs]
  · exact EndsInSign.append ⟨[':'], ' ', rfl, rfl⟩ _
  · exact EndsInSign.append ⟨[' ', '='], ' ', rfl, rfl⟩ _

theorem names_returnRow (colour : Expr) :
    names (returnRow colour) = "return" :: names colour.text := by
  have first : names "  return " = ["return"] := by rfl
  have last : names ";" = [] := rfl
  rw [returnRow, names_append_of_starts _ ⟨';', [], rfl, rfl⟩,
    names_append_of_ends ⟨"  return".toList, ' ', rfl, rfl⟩, first, last, List.append_nil,
    List.singleton_append]

@[simp] theorem defined_declaration (binding : Nat) :
    defined (declaration binding) = [textureName binding] := by
  rw [defined, names_declaration]
  rfl

@[simp] theorem used_declaration (binding : Nat) : used (declaration binding) = [] := by
  rw [used, names_declaration]
  rfl

@[simp] theorem Let.defined_row (l : Let) : defined l.row = [varName l.id] := by
  rw [defined, names_row]
  rfl

/-- There is no equals sign in front of the one that the value follows. -/
theorem Let.equals_not_mem (l : Let) :
    '=' ∉ ("  let " ++ varName l.id ++ ": " ++ l.kind.text ++ " ").toList := by
  have digits : '=' ∉ Nat.toDigits 10 l.id :=
    fun mem => absurd (isDigit_toDigits '=' mem) (by decide)
  have kind : '=' ∉ l.kind.text.toList := by cases l.kind <;> simp [Kind.text]
  simp [String.toList_append, Shading.toList_varName, digits, kind]

@[simp] theorem Let.used_row (l : Let) : used l.row = names l.value.text := by
  have text : l.row.toList = ("  let " ++ varName l.id ++ ": " ++ l.kind.text ++ " ").toList ++
      '=' :: (" " ++ l.value.text ++ ";").toList := by
    have sign : (" = " : String).toList = ' ' :: '=' :: (" " : String).toList := rfl
    have blank : (" " : String).toList = [' '] := rfl
    simp only [row, String.toList_append, sign, blank, List.append_assoc, List.cons_append,
      List.nil_append]
  have right : l.row.toList.dropWhile (· ≠ '=') = '=' :: (" " ++ l.value.text ++ ";").toList := by
    rw [text, List.dropWhile_append_of_pos]
    · rfl
    · intro c hc
      rw [decide_eq_true_iff]
      rintro rfl
      exact l.equals_not_mem hc
  have value : names (" " ++ l.value.text ++ ";") = names l.value.text := by
    rw [names_append_of_starts _ ⟨';', [], rfl, rfl⟩, names_append_of_ends endsInSign_blank]
    exact List.append_nil _
  calc used l.row = namesOf (l.row.toList.dropWhile (· ≠ '=')) := by
        rw [used, names_row]
        rfl
    _ = names l.value.text := by rw [right, namesOf_sign rfl, ← names, value]

example : used "  let v3: vec3<f32> = (v1 * vec3<f32>(v2));" = ["v1", "vec3", "f32", "v2"] := by decide

@[simp] theorem defined_returnRow (colour : Expr) : defined (returnRow colour) = [] := by
  rw [defined, names_returnRow]
  rfl

@[simp] theorem used_returnRow (colour : Expr) : used (returnRow colour) = names colour.text := by
  rw [used, names_returnRow]
  rfl

end Relief.Wgsl
