import Relief.Proofs.Number.Range
import Relief.Proofs.Shading.Slices
import Relief.Proofs.Shading.Source

/-!
# Names in source

Source as somebody sees it who knows nothing of expressions: words between signs, some of which are
names.

* `names`: the names in a text;
* `names_append_of_ends`, `names_append_of_starts`: at a sign, texts can be read one by one;
* `names_single`: finite numbers have no names in them;
* `Expr.names_text`: **the names in the text of an expression are those of its parts**;
* `mayName_of_mem_names`: so **an instruction names its operands, its texture and the helper
  function**, and otherwise words only that every stage has;
* `mem_names_colour`: and the colour names the output.
-/

namespace Relief.Wgsl

open Shading (Kind BinaryOp UnaryOp Builtin Operator Instruction)

/-! ## 1. Words -/

/-- What names and numbers are made of. -/
def isNameChar (c : Char) : Bool :=
  c.isAlphanum || c = '_'

/-- A word is a name unless it begins with a digit. -/
def isName (word : List Char) : Bool :=
  word.head?.any fun c => !c.isDigit

/-- The names among some characters, in their order. -/
def namesOf (text : List Char) : List String :=
  ((text.splitOnP fun c => !isNameChar c).filter isName).map .ofList

/-- The names in a text. -/
def names (text : String) : List String :=
  namesOf text.toList

@[simp] theorem namesOf_nil : namesOf [] = [] := rfl

/-- A sign cuts a text in two. -/
theorem namesOf_append_sign {sign : Char} (hs : isNameChar sign = false) (front rest : List Char) :
    namesOf (front ++ sign :: rest) = namesOf front ++ namesOf rest := by
  rw [namesOf, List.splitOnP_append_cons front rest (by rw [hs]; rfl), List.filter_append,
    List.map_append, namesOf, namesOf]

theorem namesOf_sign {sign : Char} (hs : isNameChar sign = false) (rest : List Char) :
    namesOf (sign :: rest) = namesOf rest :=
  namesOf_append_sign hs [] rest

/-- A text without signs is one word. -/
theorem namesOf_word {text : List Char} (h : ∀ c ∈ text, isNameChar c = true) :
    namesOf text = if isName text then [.ofList text] else [] := by
  rw [namesOf, List.splitOnP_eq_singleton fun c hc => by rw [h c hc]; rfl]
  cases named : isName text <;> simp [named]

/-- A text ends in a sign. -/
def EndsInSign (text : String) : Prop :=
  ∃ front sign, text.toList = front ++ [sign] ∧ isNameChar sign = false

/-- A text starts with a sign. -/
def StartsWithSign (text : String) : Prop :=
  ∃ sign rest, text.toList = sign :: rest ∧ isNameChar sign = false

theorem EndsInSign.append {b : String} (h : EndsInSign b) (a : String) : EndsInSign (a ++ b) := by
  obtain ⟨front, sign, text, hs⟩ := h
  exact ⟨a.toList ++ front, sign, by rw [String.toList_append, text, List.append_assoc], hs⟩

/-- **Behind a sign, a text is read for itself.** -/
theorem names_append_of_ends {a : String} (h : EndsInSign a) (b : String) :
    names (a ++ b) = names a ++ names b := by
  obtain ⟨front, sign, text, hs⟩ := h
  rw [names, names, names, String.toList_append, text, List.append_assoc, List.singleton_append,
    namesOf_append_sign hs, namesOf_append_sign hs, namesOf_nil, List.append_nil]

/-- **Before a sign, a text is read for itself.** -/
theorem names_append_of_starts (a : String) {b : String} (h : StartsWithSign b) :
    names (a ++ b) = names a ++ names b := by
  obtain ⟨sign, rest, text, hs⟩ := h
  rw [names, names, names, String.toList_append, text, namesOf_append_sign hs, namesOf_sign hs]

/-! ## 2. Numbers -/

theorem isNameChar_of_isDigit {c : Char} (h : c.isDigit = true) : isNameChar c = true := by
  simp [isNameChar, Char.isAlphanum, h]

/-- What begins with a digit is no name. -/
theorem namesOf_digits_append {digits rest : List Char} (ne : digits ≠ [])
    (h : ∀ c ∈ digits, c.isDigit = true) (hr : ∀ d ∈ rest, isNameChar d = true) :
    namesOf (digits ++ rest) = [] := by
  obtain ⟨c, digits, rfl⟩ := List.exists_cons_of_ne_nil ne
  have digit := h c List.mem_cons_self
  rw [namesOf_word, if_neg]
  · rw [List.cons_append, isName, List.head?_cons, Option.any_some, digit]
    exact Bool.false_ne_true
  · intro d hd
    rcases List.mem_append.mp hd with hd | hd
    · exact isNameChar_of_isDigit (h d hd)
    · exact hr d hd

theorem namesOf_digits {digits : List Char} (h : ∀ c ∈ digits, c.isDigit = true) :
    namesOf digits = [] := by
  by_cases ne : digits = []
  · rw [ne, namesOf_nil]
  · rw [← List.append_nil digits]
    exact namesOf_digits_append ne h nofun

/-- A power of ten belongs to the digits in front of it. -/
theorem namesOf_digits_power {digits : List Char} (ne : digits ≠ [])
    (h : ∀ c ∈ digits, c.isDigit = true) (power : Int) :
    namesOf (digits ++ 'e' :: (toString power).toList) = [] := by
  have mark : ∀ d ∈ ['e'], isNameChar d = true := List.all_eq_true.mp rfl
  rw [toList_toString_int]
  split
  · refine namesOf_digits_append ne h fun d hd => ?_
    rcases List.mem_cons.mp hd with rfl | hd
    · rfl
    · exact isNameChar_of_isDigit (isDigit_toDigits d hd)
  · rw [← List.singleton_append, ← List.append_assoc, namesOf_append_sign rfl,
      namesOf_digits_append ne h mark, namesOf_digits isDigit_toDigits, List.append_nil]

theorem namesOf_body {n : Numeral} (h : n.IsLiteral) : namesOf n.body = [] := by
  rw [Numeral.body]
  split
  · rw [List.nil_append]
    cases n.power with
    | none =>
      rw [List.append_nil]
      exact namesOf_digits h.whole_digits
    | some power => exact namesOf_digits_power h.whole h.whole_digits power
  · rename_i marked
    have ne : n.fraction ≠ [] := fun empty => marked (by rw [empty]; rfl)
    rw [List.cons_append, namesOf_append_sign rfl, namesOf_digits h.whole_digits, List.nil_append]
    cases n.power with
    | none =>
      rw [List.append_nil]
      exact namesOf_digits h.fraction_digits
    | some power => exact namesOf_digits_power ne h.fraction_digits power

/-- **Finite singles have no names in them**; others would. -/
theorem names_single {x : Float32} (h : x.isFinite = true) : names (Single.text x) = [] := by
  obtain ⟨n, text, literal, -⟩ := Single.exists_numeral h
  rw [text, names, Numeral.toList_text]
  split
  · rw [List.singleton_append, namesOf_sign rfl, namesOf_body literal]
  · rw [List.nil_append, namesOf_body literal]

theorem names_int (i : Int) : names (toString i ++ "i") = [] := by
  have unit : ∀ d ∈ ['i'], isNameChar d = true := List.all_eq_true.mp rfl
  have digits := fun n => namesOf_digits_append (Nat.toDigits_ne_nil (n := n) (b := 10))
    isDigit_toDigits unit
  have suffix : ("i" : String).toList = ['i'] := rfl
  rw [names, String.toList_append, suffix, toList_toString_int]
  split
  · exact digits _
  · rw [List.cons_append, namesOf_sign rfl, digits]

/-! ## 3. Expressions -/

theorem names_varName (id : Nat) : names (varName id) = [varName id] := by
  have text := Shading.toList_varName id
  rw [names, namesOf_word, String.ofList_toList, if_pos (by rw [text]; rfl)]
  · intro c hc
    rw [text] at hc
    rcases List.mem_cons.mp hc with rfl | hc
    · rfl
    · exact isNameChar_of_isDigit (isDigit_toDigits c hc)

theorem names_textureName (binding : Nat) :
    names (textureName binding) = [textureName binding] := by
  have text := Shading.toList_textureName binding
  have start : ∀ c ∈ ['t', '_', 'i', 'n'], isNameChar c = true := List.all_eq_true.mp rfl
  rw [names, namesOf_word, String.ofList_toList, if_pos (by rw [text]; rfl)]
  · intro c hc
    rw [text] at hc
    rcases List.mem_append.mp hc with hc | hc
    · exact start c hc
    · exact isNameChar_of_isDigit (isDigit_toDigits c hc)

mutual

/-- What an expression mentions, from left to right. -/
def Expr.mentions : Expr → List String
  | .var id => [varName id]
  | .float x => names (Single.text x)
  | .integer _ => []
  | .boolean b => [if b then "true" else "false"]
  | .texel binding => ["textureLoad", textureName binding, "px"]
  | .position => ["frag", "xy"]
  | .unary _ a => a.mentions
  | .binary _ a b => a.mentions ++ b.mentions
  | .call f args => builtinName f :: Expr.mentionsAll args
  | .make kind args => names kind.text ++ Expr.mentionsAll args
  | .inverse a => "inverse3" :: a.mentions
  | .member a m => a.mentions ++ [memberName m]

/-- What operands mention. -/
def Expr.mentionsAll : List Expr → List String
  | [] => []
  | a :: rest => a.mentions ++ Expr.mentionsAll rest

end

theorem endsInSign_bracket : EndsInSign "(" := ⟨[], _, rfl, rfl⟩

theorem startsWithSign_bracket : StartsWithSign ")" := ⟨_, [], rfl, rfl⟩

theorem endsInSign_blank : EndsInSign " " := ⟨[], _, rfl, rfl⟩

/-- Signs alone have no names in them. -/
theorem names_signs :
    names "(" = [] ∧ names ")" = [] ∧ names " " = [] ∧ names ", " = [] ∧ names "." = [] :=
  ⟨rfl, rfl, rfl, rfl, rfl⟩

mutual

/-- **The names in the text of an expression are what it mentions.** -/
theorem Expr.names_text : ∀ e : Expr, names e.text = e.mentions
  | .var id => by rw [text, mentions, names_varName]
  | .float x => by rw [text, mentions]
  | .integer i => by rw [text, mentions, names_int]
  | .boolean b => by
    rw [text, mentions]
    cases b <;> rfl
  | .texel binding => by
    rw [text, mentions, names_append_of_starts _ ⟨_, _, rfl, rfl⟩,
      names_append_of_ends ⟨"textureLoad".toList, '(', rfl, rfl⟩, names_textureName]
    rfl
  | .position => by
    rw [text, mentions]
    rfl
  | .unary op a => by
    have sign : EndsInSign (unarySign op) := by cases op <;> exact ⟨[], _, rfl, rfl⟩
    have start : names ("(" ++ unarySign op) = [] := by cases op <;> rfl
    rw [text, mentions, names_append_of_starts _ startsWithSign_bracket,
      names_append_of_ends (sign.append "("), start, a.names_text]
    simp [names_signs]
  | .binary op a b => by
    have sign : StartsWithSign (binarySign op) := by cases op <;> exact ⟨_, _, rfl, rfl⟩
    have unnamed : names (binarySign op) = [] := by cases op <;> rfl
    rw [text, mentions, names_append_of_starts _ startsWithSign_bracket,
      names_append_of_ends (endsInSign_blank.append _),
      names_append_of_starts _ ⟨' ', [], rfl, rfl⟩, names_append_of_starts _ sign,
      names_append_of_starts _ ⟨' ', [], rfl, rfl⟩, names_append_of_ends endsInSign_bracket,
      unnamed, a.names_text, b.names_text]
    simp [names_signs]
  | .call f args => by
    have name : names (builtinName f) = [builtinName f] := by cases f <;> rfl
    rw [text, mentions, names_append_of_starts _ startsWithSign_bracket,
      names_append_of_ends (endsInSign_bracket.append _),
      names_append_of_starts _ ⟨'(', [], rfl, rfl⟩, name, Expr.names_listText]
    simp [names_signs]
  | .make kind args => by
    rw [text, mentions, names_append_of_starts _ startsWithSign_bracket,
      names_append_of_ends (endsInSign_bracket.append _),
      names_append_of_starts _ ⟨'(', [], rfl, rfl⟩, Expr.names_listText]
    simp [names_signs]
  | .inverse a => by
    have name : names "inverse3(" = ["inverse3"] := rfl
    rw [text, mentions, names_append_of_starts _ startsWithSign_bracket,
      names_append_of_ends ⟨"inverse3".toList, '(', rfl, rfl⟩, name, a.names_text]
    simp [names_signs]
  | .member a m => by
    have name : names (memberName m) = [memberName m] := by cases m <;> rfl
    rw [text, mentions, names_append_of_ends (EndsInSign.append ⟨[], '.', rfl, rfl⟩ _),
      names_append_of_starts _ ⟨'.', [], rfl, rfl⟩, a.names_text, name]
    simp [names_signs]

theorem Expr.names_listText : ∀ es : List Expr, names (Expr.listText es) = Expr.mentionsAll es
  | [] => rfl
  | [a] => by
    rw [Expr.listText, mentionsAll, mentionsAll, a.names_text, List.append_nil]
  | a :: b :: rest => by
    have comma : EndsInSign ", " := ⟨[','], ' ', rfl, rfl⟩
    rw [Expr.listText, mentionsAll, names_append_of_ends (comma.append _),
      names_append_of_starts _ ⟨',', [' '], rfl, rfl⟩, a.names_text,
      Expr.names_listText (b :: rest)]
    simp [names_signs]

end

theorem Expr.mentionsAll_var (ids : List Nat) :
    Expr.mentionsAll (ids.map .var) = ids.map varName := by
  induction ids with
  | nil => rfl
  | cons id rest ih =>
    rw [List.map_cons, mentionsAll, mentions, ih, List.map_cons, List.singleton_append]

/-! ## 4. Instructions -/

/-- Words of the language: values, types, functions that every stage has, and members. -/
def ownWords : List String :=
  ["true", "false", "f32", "i32", "bool", "vec2", "vec3", "vec4", "mat3x3", "textureLoad", "sin",
    "cos", "tan", "atan2", "sqrt", "abs", "pow", "floor", "length", "normalize", "dot", "min",
    "max", "clamp", "mix", "step", "select", "cross", "transpose", "x", "y", "z", "w", "xy", "xyz"]

theorem builtinName_mem_ownWords (f : Builtin) : builtinName f ∈ ownWords := by
  cases f <;> decide

theorem memberName_mem_ownWords (m : Member) : memberName m ∈ ownWords := by
  cases m <;> decide

theorem mem_ownWords_of_kind {k : Kind} {name : String} (h : name ∈ names k.text) :
    name ∈ ownWords := by
  revert name
  cases k <;> decide

/-- An operator adds a word of the language to what its operands mention, or the helper function. -/
theorem mem_mentions_operator {op : Operator} {args : List Expr} {name : String}
    (h : name ∈ (op.expr args).mentions) :
    name ∈ ownWords ∨ name ∈ Expr.mentionsAll args ∨ (op = .inverse ∧ name = "inverse3") := by
  have of_make : ∀ kind, name ∈ (Expr.make kind args).mentions →
      name ∈ ownWords ∨ name ∈ Expr.mentionsAll args ∨ (op = .inverse ∧ name = "inverse3") := by
    intro kind h
    rw [Expr.mentions] at h
    exact (List.mem_append.mp h).imp mem_ownWords_of_kind .inl
  have of_member : ∀ a m, name ∈ (Expr.member a m).mentions →
      name ∈ ownWords ∨ name ∈ Expr.mentionsAll [a] ∨ (op = .inverse ∧ name = "inverse3") := by
    intro a m h
    rw [Expr.mentions] at h
    rcases List.mem_append.mp h with h | h
    · exact .inr (.inl (List.mem_append_left _ h))
    · exact .inl (List.mem_singleton.mp h ▸ memberName_mem_ownWords m)
  unfold Operator.expr at h
  split at h
  · exact .inr (.inl (List.mem_append_left _ h))
  · rename_i a b
    rw [Expr.mentions, ← List.append_nil b.mentions] at h
    exact .inr (.inl h)
  · rename_i f
    rw [Expr.mentions] at h
    rcases List.mem_cons.mp h with rfl | h
    · exact .inl (builtinName_mem_ownWords f)
    · exact .inr (.inl h)
  · exact of_member _ _ h
  · exact of_member _ _ h
  · rename_i a
    rw [Expr.mentions] at h
    rcases List.mem_cons.mp h with rfl | h
    · exact .inr (.inr ⟨rfl, rfl⟩)
    · exact .inr (.inl (List.mem_append_left _ h))
  · exact of_make .f32 h
  · exact of_make .i32 h
  · exact of_make .f32 h

/-- What the line of an instruction may name. -/
inductive MayName (i : Instruction) : String → Prop where
  /-- A word of the language, the place of the fragment or that of its texel. -/
  | word {name : String} (h : name ∈ "frag" :: "px" :: ownWords) : MayName i name
  | operand {id : Nat} (h : id ∈ i.term.operands) : MayName i (varName id)
  | texture {binding : Nat} (h : i.texture? = some binding) : MayName i (textureName binding)
  | inverse (h : i.inverts = true) : MayName i "inverse3"

/-- **An instruction names its operands, its texture and the helper function**, and otherwise words
    of the language and the place only. -/
theorem mayName_of_mem_names {i : Instruction} (finite : i.IsFinite) {target : Extent}
    {name : String} (h : name ∈ names (i.expr target).text) : MayName i name := by
  have own : ∀ {name}, name ∈ ownWords → MayName i name :=
    fun h => .word (List.mem_cons_of_mem _ (List.mem_cons_of_mem _ h))
  obtain ⟨id, kind, term⟩ := i
  rw [Expr.names_text] at h
  cases term with
  | float x =>
    rw [Instruction.expr, Expr.mentions, names_single (finite x rfl)] at h
    cases h
  | integer n => cases h
  | boolean b => cases b <;> exact own (List.mem_singleton.mp h ▸ by decide)
  | texel binding =>
    rcases List.mem_cons.mp h with rfl | h
    · exact own (by decide)
    rcases List.mem_cons.mp h with rfl | h
    · exact .texture rfl
    · obtain rfl := List.mem_singleton.mp h
      exact .word (by decide)
  | position =>
    rcases List.mem_cons.mp h with rfl | h
    · exact .word (by decide)
    · exact own (List.mem_singleton.mp h ▸ by decide)
  | resolution =>
    have size : ∀ n : UInt32, names (Single.text n.toFloat32) = [] :=
      fun n => names_single (Single.isFinite_toFloat32 n)
    simp only [Instruction.expr, Expr.mentions, Expr.mentionsAll, size, List.append_nil] at h
    exact own (mem_ownWords_of_kind h)
  | construct parts =>
    rw [Instruction.expr, Expr.mentions, Expr.mentionsAll_var] at h
    rcases List.mem_append.mp h with h | h
    · exact own (mem_ownWords_of_kind h)
    · obtain ⟨part, hp, rfl⟩ := List.mem_map.mp h
      exact .operand hp
  | apply op operands =>
    rcases mem_mentions_operator h with h | h | ⟨rfl, rfl⟩
    · exact own h
    · rw [Expr.mentionsAll_var] at h
      obtain ⟨operand, ho, rfl⟩ := List.mem_map.mp h
      exact .operand ho
    · exact .inverse rfl

/-- The texture of an instruction is named in its line. -/
theorem textureName_mem_names {i : Instruction} {binding : Nat} (h : i.texture? = some binding)
    (target : Extent) : textureName binding ∈ names (i.expr target).text := by
  obtain ⟨id, kind, term⟩ := i
  rw [Expr.names_text]
  cases term <;> cases h
  exact List.mem_cons_of_mem _ List.mem_cons_self

/-- The helper function is named where a matrix is inverted. -/
theorem inverse3_mem_names {i : Instruction} {L : List Instruction} {textures : Nat}
    (fits : i.Fits L textures) (h : i.inverts = true) (target : Extent) :
    "inverse3" ∈ names (i.expr target).text := by
  obtain ⟨id, kind, term⟩ := i
  rw [Expr.names_text]
  cases term with
  | apply op operands =>
    cases op with
    | inverse =>
      obtain ⟨kinds, refers, result, -⟩ := fits
      match kinds, operands, refers.length_eq, result with
      | [.mat3], [_], _, _ => exact List.mem_cons_self
    | _ => cases h
  | _ => cases h

/-! ## 5. The colour -/

theorem names_zero : names (Single.text 0) = [] :=
  names_single (by decide)

theorem names_one : names (Single.text 1) = [] :=
  names_single (by decide)

/-- **The colour names the output only**, next to words of the language. -/
theorem mem_names_colour {kind : Kind} {id : Nat} {name : String}
    (h : name ∈ names (Shading.colourExpr kind (.var id)).text) :
    name ∈ ownWords ∨ name = varName id := by
  have choice : "select" ∈ ownWords := by decide
  rw [Expr.names_text] at h
  cases kind <;>
    simp only [Shading.colourExpr, Expr.mentions, Expr.mentionsAll, names_zero, names_one,
      List.append_nil, List.nil_append, List.mem_append, List.mem_cons, List.not_mem_nil, or_false,
      builtinName] at h <;>
    grind [mem_ownWords_of_kind]

theorem varName_mem_names_colour (kind : Kind) (id : Nat) :
    varName id ∈ names (Shading.colourExpr kind (.var id)).text := by
  rw [Expr.names_text]
  cases kind <;> simp [Shading.colourExpr, Expr.mentions, Expr.mentionsAll]

end Relief.Wgsl
