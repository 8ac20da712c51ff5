import Relief.Proofs.Shading.Drawing
import Relief.Proofs.Shading.Reading

/-!
# Source and program

The text of a fragment stage tells the program that it has been made of.

* `Expr.breakless`: every expression is written on one line;
* `Let.of_text_append`: **a line tells what it names, the kind of it and the text of its value**, and
  where it ends;
* `Fragment.of_text_eq`: **stages of one text** have the same textures, lines and colour, as far as
  these are written;
* `readOutput_colour`: the output can be read off the colour;
* `Program.WellFormed.of_source_eq`: **well-formed programs of one source** have the same
  instructions and the same output;
* `source_determines_program`: so caching by source never mixes up two programs.
-/

namespace Relief.Wgsl

open Shading (Kind)

/-! ## 1. Lines -/

/-- A text on one line. -/
def Breakless (text : String) : Prop :=
  '\n' ∉ text.toList

theorem Breakless.append {a b : String} (ha : Breakless a) (hb : Breakless b) :
    Breakless (a ++ b) := by
  rw [Breakless, String.toList_append, List.mem_append, not_or]
  exact ⟨ha, hb⟩

theorem breakless_of_isPlain {text : String} (h : Shading.IsPlain text.toList) : Breakless text :=
  fun mem => (h _ mem).2 rfl

mutual

/-- **Every expression is written on one line.** -/
theorem Expr.breakless : ∀ e : Expr, Breakless e.text
  | .var id => by
    rw [text]
    exact breakless_of_isPlain (Shading.isPlain_varName id)
  | .float x => by
    rw [text]
    exact breakless_of_isPlain (Shading.isPlain_single x)
  | .integer i => by
    rw [text]
    exact (breakless_of_isPlain (Shading.isPlain_int _)).append (by simp [Breakless])
  | .boolean b => by
    rw [text]
    cases b <;> simp [Breakless]
  | .texel binding => by
    rw [text]
    have name := breakless_of_isPlain (Shading.isPlain_textureName binding)
    exact (Breakless.append (by simp [Breakless]) name).append (by simp [Breakless])
  | .position => by simp [text, Breakless]
  | .unary op a => by
    rw [text]
    have sign : Breakless (unarySign op) := by cases op <;> simp [unarySign, Breakless]
    exact ((Breakless.append (by simp [Breakless]) sign).append a.breakless).append
      (by simp [Breakless])
  | .binary op a b => by
    rw [text]
    have sign := breakless_of_isPlain (Shading.isPlain_binarySign op)
    have blank : Breakless " " := by simp [Breakless]
    exact (((((Breakless.append (by simp [Breakless]) a.breakless).append blank).append sign).append
      blank).append b.breakless).append (by simp [Breakless])
  | .call f args => by
    rw [text]
    have name := breakless_of_isPlain (Shading.isPlain_builtinName f)
    exact ((name.append (by simp [Breakless])).append (Expr.breakless_list args)).append
      (by simp [Breakless])
  | .make kind args => by
    rw [text]
    have name := breakless_of_isPlain (Shading.isPlain_kindText kind)
    exact ((name.append (by simp [Breakless])).append (Expr.breakless_list args)).append
      (by simp [Breakless])
  | .inverse a => by
    rw [text]
    exact (Breakless.append (by simp [Breakless]) a.breakless).append (by simp [Breakless])
  | .member a m => by
    rw [text]
    have name : Breakless (memberName m) := by cases m <;> simp [memberName, Breakless]
    exact (a.breakless.append (by simp [Breakless])).append name

theorem Expr.breakless_list : ∀ es : List Expr, Breakless (Expr.listText es)
  | [] => by simp [Expr.listText, Breakless]
  | [a] => by
    rw [Expr.listText]
    exact a.breakless
  | a :: b :: rest => by
    rw [Expr.listText]
    exact (a.breakless.append (by simp [Breakless])).append (Expr.breakless_list (b :: rest))

end

/-- What stands before the first break can be told from what stands behind it. -/
theorem of_append_break {sep : Char} {a b : String} {rest rest' : List Char}
    (ha : sep ∉ a.toList) (hb : sep ∉ b.toList)
    (h : a.toList ++ sep :: rest = b.toList ++ sep :: rest') : a = b ∧ rest = rest' := by
  have cut : ∀ {text : String} (rest : List Char), sep ∉ text.toList →
      (text.toList ++ sep :: rest).span (· ≠ sep) = (text.toList, sep :: rest) := by
    intro text rest absent
    refine span_append (fun c hc => ?_) (by simp)
    rw [decide_eq_true_iff]
    rintro rfl
    exact absent hc
  have pieces := cut rest ha
  rw [h, cut rest' hb] at pieces
  obtain ⟨front, behind⟩ := Prod.mk.inj pieces
  exact ⟨(String.toList_inj.mp front).symm, (List.cons.inj behind).2.symm⟩

/-- What a line shows of a value. -/
def Let.shown (l : Let) : Nat × Kind × String :=
  (l.id, l.kind, l.value.text)

theorem text_injective {k k' : Kind} (h : k.text = k'.text) : k = k' := by
  cases k <;> cases k' <;> first | rfl | exact absurd h (by decide)

theorem varName_injective {id id' : Nat} (h : varName id = varName id') : id = id' := by
  have read := Shading.readVar_varName id
  rw [h, Shading.readVar_varName] at read
  exact (Option.some.inj read).symm

/-- **A line tells what it shows, and where it ends.** -/
theorem Let.of_text_append {l l' : Let} {rest rest' : List Char}
    (h : l.text.toList ++ rest = l'.text.toList ++ rest') : l.shown = l'.shown ∧ rest = rest' := by
  have colon : (": " : String).toList = [':', ' '] := rfl
  have sign : (" = " : String).toList = [' ', '=', ' '] := rfl
  have last : (";\n" : String).toList = [';', '\n'] := rfl
  simp only [Let.text, String.toList_append, colon, sign, last, List.append_assoc,
    List.cons_append, List.nil_append] at h
  have plainVar := fun id => Shading.isPlain_varName id
  have plainKind := fun k => Shading.isPlain_kindText k
  obtain ⟨name, h⟩ := of_append_break (fun mem => absurd (plainVar _ _ mem).1 (by decide))
    (fun mem => absurd (plainVar _ _ mem).1 (by decide)) (List.append_cancel_left h)
  obtain ⟨kind, h⟩ := of_append_break (fun mem => absurd (plainKind _ _ mem).1 (by decide))
    (fun mem => absurd (plainKind _ _ mem).1 (by decide)) (List.cons.inj h).2
  have ends : ∀ value : String, ∀ rest, value.toList ++ ';' :: '\n' :: rest =
      (value ++ ";").toList ++ '\n' :: rest := by
    intro value rest
    rw [String.toList_append, List.append_assoc]
    rfl
  simp only [List.cons.injEq, true_and, ends] at h
  have plainValue := fun e : Expr => e.breakless.append (b := ";") (by simp [Breakless])
  obtain ⟨value, h⟩ := of_append_break (plainValue _) (plainValue _) h
  have texts := congrArg String.toList value
  rw [String.toList_append, String.toList_append, List.append_left_inj] at texts
  refine ⟨?_, h⟩
  rw [Let.shown, Let.shown, varName_injective name, text_injective kind, String.toList_inj.mp texts]

/-! ## 2. Stages -/

namespace Fragment

/-- The declarations of textures. -/
def textureText (textures : Nat) : List Char :=
  (String.join ((List.range textures).map textureLine)).toList

/-- The lines of values. -/
def linesText (lines : List Let) : List Char :=
  (String.join (lines.map Let.text)).toList

/-- The function that inverts matrices, where there is need of it. -/
def inverseText (inverts : Bool) : List Char :=
  (if inverts then inverseHelper ++ "\n" else "").toList

/-- What follows the lines. -/
def colourText (colour : Expr) : List Char :=
  "  return ".toList ++ (colour.text.toList ++ (";\n".toList ++ "\x7d\n".toList))

/-- The stage itself. -/
def stageText (f : Fragment) : List Char :=
  "@fragment\n".toList ++
  ("fn fs(@builtin(position) frag: vec4<f32>) -> @location(0) vec4<f32> \x7b\n".toList ++
  ("  let px = vec2<i32>(floor(frag.xy));\n".toList ++
  (linesText f.lines ++ colourText f.colour)))

theorem toList_text (f : Fragment) :
    f.text.toList = textureText f.textures ++ ((if f.textures = 0 then "" else "\n").toList ++
      (inverseText f.invertsMatrices ++ f.stageText)) := by
  simp only [text, String.toList_append, List.append_assoc]
  rfl

/-- Texts of declarations begin with `@g`, and nothing behind them does. -/
def StartsTexture (text : List Char) : Prop :=
  ∃ rest, text = '@' :: 'g' :: rest

theorem textureText_succ (textures : Nat) :
    textureText (textures + 1) = textureText textures ++ (textureLine textures).toList := by
  simp only [textureText, String.toList_join, List.range_succ, List.map_append, List.flatMap_append,
    List.map_cons, List.map_nil, List.flatMap_cons, List.flatMap_nil, List.append_nil]

theorem toList_textureLine (binding : Nat) :
    ∃ rest, (textureLine binding).toList = '@' :: 'g' :: 'r' :: 'o' :: rest := by
  have line : textureLine binding = "@group(0) @binding(" ++ toString binding ++ ") var " ++
      textureName binding ++ ": texture_2d<f32>;\n" := rfl
  have first : ("@group(0) @binding(" : String) = "@gro" ++ "up(0) @binding(" := by decide
  have start : ("@gro" : String).toList = ['@', 'g', 'r', 'o'] := rfl
  rw [line, first]
  simp only [String.toList_append, start, List.append_assoc, List.cons_append, List.nil_append]
  exact ⟨_, rfl⟩

theorem startsTexture_textureLine (binding : Nat) (rest : List Char) :
    StartsTexture ((textureLine binding).toList ++ rest) := by
  obtain ⟨more, line⟩ := toList_textureLine binding
  rw [line]
  exact ⟨_, rfl⟩

/-- More declarations go on with one. -/
theorem textureText_of_lt {n m : Nat} (lt : n < m) (rest : List Char) :
    ∃ behind, textureText m ++ rest = textureText n ++ ((textureLine n).toList ++ behind) := by
  induction m, lt using Nat.le_induction generalizing rest with
  | base => exact ⟨rest, by rw [textureText_succ, List.append_assoc]⟩
  | succ m _ ih =>
    rw [textureText_succ, List.append_assoc]
    exact ih _

theorem startsTexture_of_lt {n m : Nat} (lt : n < m) (rest : List Char) :
    ∃ more, textureText m ++ rest = textureText n ++ more ∧ StartsTexture more := by
  obtain ⟨behind, declared⟩ := textureText_of_lt lt rest
  exact ⟨_, declared, startsTexture_textureLine n behind⟩

/-- **Declarations of textures tell how many they are**, where no more follow. -/
theorem of_textureText_append {n m : Nat} {rest rest' : List Char} (hr : ¬ StartsTexture rest)
    (hr' : ¬ StartsTexture rest') (h : textureText n ++ rest = textureText m ++ rest') :
    n = m ∧ rest = rest' := by
  rcases Nat.lt_trichotomy n m with lt | rfl | lt
  · obtain ⟨more, e, starts⟩ := startsTexture_of_lt lt rest'
    rw [e] at h
    exact absurd (List.append_cancel_left h ▸ starts) hr
  · exact ⟨rfl, List.append_cancel_left h⟩
  · obtain ⟨more, e, starts⟩ := startsTexture_of_lt lt rest
    rw [e] at h
    exact absurd (List.append_cancel_left h ▸ starts) hr'

theorem stageText_eq (f : Fragment) : ∃ rest, f.stageText = '@' :: 'f' :: 'r' :: 'a' :: rest := by
  have first : ("@fragment\n" : String) = "@fra" ++ "gment\n" := by decide
  have start : ("@fra" : String).toList = ['@', 'f', 'r', 'a'] := rfl
  have text : f.stageText = "@fragment\n".toList ++ (_ ++ (_ ++ _)) := rfl
  rw [text, first, String.toList_append, start]
  exact ⟨_, rfl⟩

theorem inverseText_true : ∃ rest, inverseText true = 'f' :: 'n' :: rest := by
  have text : inverseHelper = "fn inverse3(m: mat3x3<f32>) -> mat3x3<f32> \x7b\n" ++
    "  let r0 = cross(m[1], m[2]);\n" ++
    "  let r1 = cross(m[2], m[0]);\n" ++
    "  let r2 = cross(m[0], m[1]);\n" ++
    "  let det = dot(m[0], r0);\n" ++
    "  return transpose(mat3x3<f32>(r0, r1, r2)) * (1.0 / det);\n" ++
    "\x7d\n" := rfl
  have first : ("fn inverse3(m: mat3x3<f32>) -> mat3x3<f32> \x7b\n" : String) =
      "fn" ++ " inverse3(m: mat3x3<f32>) -> mat3x3<f32> \x7b\n" := by decide
  have start : ("fn" : String).toList = ['f', 'n'] := rfl
  rw [inverseText, if_pos rfl, text, first]
  simp only [String.toList_append, start, List.append_assoc, List.cons_append]
  exact ⟨_, rfl⟩

/-- A break behind the textures is no texture, and neither is what follows it. -/
theorem not_startsTexture (f : Fragment) :
    ¬ StartsTexture ((if f.textures = 0 then "" else "\n").toList ++
      (inverseText f.invertsMatrices ++ f.stageText)) := by
  have break_ : ("\n" : String).toList = ['\n'] := rfl
  have nothing : ("" : String).toList = [] := rfl
  obtain ⟨stage, hs⟩ := f.stageText_eq
  obtain ⟨inverse, hi⟩ := inverseText_true
  rintro ⟨rest, e⟩
  rw [hs] at e
  split at e
  · rw [nothing, List.nil_append] at e
    cases inverts : f.invertsMatrices with
    | true =>
      rw [inverts, hi] at e
      cases e
    | false =>
      rw [inverts] at e
      cases e
  · rw [break_] at e
    cases e

/-- The function that inverts matrices is there on both sides, or on neither. -/
theorem of_inverseText_append {b b' : Bool} {f f' : Fragment}
    (h : inverseText b ++ f.stageText = inverseText b' ++ f'.stageText) :
    f.stageText = f'.stageText := by
  obtain ⟨stage, hs⟩ := f.stageText_eq
  obtain ⟨stage', hs'⟩ := f'.stageText_eq
  obtain ⟨inverse, hi⟩ := inverseText_true
  cases b <;> cases b'
  · exact List.append_cancel_left h
  · rw [hs, hi] at h
    cases h
  · rw [hs', hi] at h
    cases h
  · exact List.append_cancel_left h

theorem linesText_cons (l : Let) (rest : List Let) :
    linesText (l :: rest) = l.text.toList ++ linesText rest := by
  rw [linesText, List.map_cons, String.join_cons, String.toList_append, linesText]

/-- No line is the last one. -/
theorem letText_ne_colourText (l : Let) (colour : Expr) (rest : List Char) :
    l.text.toList ++ rest ≠ colourText colour := by
  have line : ("  let " : String).toList = [' ', ' ', 'l', 'e', 't', ' '] := rfl
  have last : ("  return " : String).toList = ' ' :: ' ' :: 'r' :: "eturn ".toList := rfl
  have text : colourText colour = "  return ".toList ++ (_ ++ (_ ++ _)) := rfl
  rw [text, last, Let.text]
  simp only [String.toList_append, line, List.append_assoc]
  intro h
  cases h

/-- **Lines and colour tell what they show.** -/
theorem of_linesText_append {lines lines' : List Let} {colour colour' : Expr}
    (h : linesText lines ++ colourText colour = linesText lines' ++ colourText colour') :
    lines.map Let.shown = lines'.map Let.shown ∧ colourText colour = colourText colour' := by
  induction lines generalizing lines' with
  | nil =>
    cases lines' with
    | nil => exact ⟨rfl, h⟩
    | cons l rest =>
      rw [linesText_cons, List.append_assoc] at h
      exact absurd h.symm (letText_ne_colourText l colour _)
  | cons l rest ih =>
    cases lines' with
    | nil =>
      rw [linesText_cons, List.append_assoc] at h
      exact absurd h (letText_ne_colourText l colour' _)
    | cons l' rest' =>
      rw [linesText_cons, linesText_cons, List.append_assoc, List.append_assoc] at h
      obtain ⟨shown, h⟩ := Let.of_text_append h
      obtain ⟨all, colour⟩ := ih h
      exact ⟨by rw [List.map_cons, List.map_cons, shown, all], colour⟩

/-- **Stages of one text** have as many textures, and show the same lines and the same colour. -/
theorem of_text_eq {f f' : Fragment} (h : f.text = f'.text) :
    f.textures = f'.textures ∧ f.lines.map Let.shown = f'.lines.map Let.shown ∧
      f.colour.text = f'.colour.text := by
  have texts := congrArg String.toList h
  rw [toList_text, toList_text] at texts
  obtain ⟨textures, rest⟩ := of_textureText_append f.not_startsTexture f'.not_startsTexture texts
  rw [textures] at rest
  have stages := of_inverseText_append (List.append_cancel_left rest)
  have behind : linesText f.lines ++ colourText f.colour =
      linesText f'.lines ++ colourText f'.colour :=
    List.append_cancel_left (List.append_cancel_left (List.append_cancel_left stages))
  obtain ⟨lines, colours⟩ := of_linesText_append behind
  exact ⟨textures, lines, String.toList_inj.mp
    (List.append_cancel_right (List.append_cancel_left colours))⟩

end Fragment

end Relief.Wgsl

namespace Relief.Shading

open Wgsl (Expr varName)

/-! ## 3. The output -/

/-- The first value that a text names. -/
def firstVar (text : List Char) : Option Nat :=
  (words text).findSome? readVar

/-- The words in front of it are no values. -/
theorem firstVar_skip {w : List Char} (plain : IsPlain w) (h : readVar w = none) {sep : Char}
    (hs : isSeparator sep = true) (rest : List Char) : firstVar (w ++ sep :: rest) = firstVar rest := by
  rw [firstVar, words_plain_sep plain hs, List.findSome?_cons, h]
  rfl

theorem firstVar_sep {sep : Char} (hs : isSeparator sep = true) (rest : List Char) :
    firstVar (sep :: rest) = firstVar rest :=
  firstVar_skip (w := []) (fun _ mem => absurd mem List.not_mem_nil) rfl hs rest

theorem firstVar_here (id : Nat) {sep : Char} (hs : isSeparator sep = true) (rest : List Char) :
    firstVar ((varName id).toList ++ sep :: rest) = some id := by
  rw [firstVar, words_plain_sep (isPlain_varName id) hs, List.findSome?_cons, readVar_varName]

theorem readVar_kindText (k : Kind) : readVar k.text.toList = none := by
  cases k <;> rfl

/-- **The output can be read off the colour**: it is the first value there. -/
theorem firstVar_colour (kind : Kind) (id : Nat) :
    firstVar (colourExpr kind (.var id)).text.toList = some id := by
  have opening : ("(" : String).toList = ['('] := rfl
  have comma : (", " : String).toList = [',', ' '] := rfl
  have closing : (")" : String).toList = [')'] := rfl
  have skipKind : ∀ (k : Kind) rest, firstVar (k.text.toList ++ '(' :: rest) = firstVar rest :=
    fun k => firstVar_skip (isPlain_kindText k) (readVar_kindText k) rfl
  have skipSelect : ∀ rest, firstVar ((Wgsl.builtinName .select).toList ++ '(' :: rest) =
      firstVar rest := firstVar_skip (isPlain_builtinName .select) rfl rfl
  have skipNumber : ∀ (x : Float32) rest, firstVar ((Single.text x).toList ++ ',' :: rest) =
      firstVar rest :=
    fun x => firstVar_skip (isPlain_single x) (startsNumber_single x).readVar rfl
  have whole : firstVar (varName id).toList = some id := by
    rw [firstVar, words_of_isPlain (isPlain_varName id), List.findSome?_cons, readVar_varName]
  cases kind with
  | vec4 => simpa only [colourExpr, Expr.text] using whole
  | mat3 => simpa only [colourExpr, Expr.text] using whole
  | bool =>
    simp only [colourExpr, Expr.text, Expr.listText, String.toList_append, opening, comma, closing,
      List.append_assoc, List.cons_append, List.nil_append, skipKind, skipSelect, skipNumber]
    rw [firstVar_sep rfl, skipNumber, firstVar_sep rfl, firstVar_here id rfl]
  | i32 =>
    simp only [colourExpr, Expr.text, Expr.listText, String.toList_append, opening, comma, closing,
      List.append_assoc, List.cons_append, List.nil_append, skipKind]
    rw [firstVar_here id rfl]
  | _ =>
    simp only [colourExpr, Expr.text, Expr.listText, String.toList_append, opening, comma, closing,
      List.append_assoc, List.cons_append, List.nil_append, skipKind]
    rw [firstVar_here id rfl]

/-! ## 4. Programs -/

/-- What is written of a program can be written and read: its instructions fit, and their numbers are
    finite. -/
structure Program.WellFormed (p : Program) : Prop where
  fits : ∀ i ∈ p.instructions, i.Fits p.instructions p.inputs.length
  finite : ∀ i ∈ p.instructions, i.IsFinite

/-- What a line shows of an instruction. -/
theorem shown_fragment (p : Program) :
    p.fragment.lines.map Wgsl.Let.shown =
      p.instructions.map fun i => (i.id, i.kind, (i.expr p.target).text) := by
  rw [Program.fragment, List.map_map]
  rfl

/-- **Instructions that are shown alike are the same.** -/
theorem eq_of_shown {L L' M M' : List Instruction} {textures textures' : Nat}
    {target target' : Extent} (fits : ∀ i ∈ L, i.Fits M textures)
    (fits' : ∀ i ∈ L', i.Fits M' textures') (finite : ∀ i ∈ L, i.IsFinite)
    (finite' : ∀ i ∈ L', i.IsFinite)
    (h : L.map (fun i => (i.id, i.kind, (i.expr target).text))
      = L'.map fun i => (i.id, i.kind, (i.expr target').text)) : L = L' := by
  induction L generalizing L' with
  | nil => exact (List.map_eq_nil_iff.mp h.symm).symm
  | cons i rest ih =>
    match L', h, fits', finite' with
    | j :: rest', h, fits', finite' =>
      obtain ⟨first, others⟩ := List.cons.inj h
      obtain ⟨id, kind, text⟩ : i.id = j.id ∧ i.kind = j.kind ∧
          (i.expr target).text = (j.expr target').text := by
        simpa only [Prod.mk.injEq] using first
      have term := term_eq_of_text (fits i List.mem_cons_self) (fits' j List.mem_cons_self)
        (finite i List.mem_cons_self) (finite' j List.mem_cons_self) kind text
      have same : i = j := by
        obtain ⟨_, _, _⟩ := i
        obtain ⟨_, _, _⟩ := j
        simp only at id kind term
        subst id kind term
        rfl
      rw [same, ih (fun k hk => fits k (List.mem_cons_of_mem _ hk))
        (fun k hk => fits' k (List.mem_cons_of_mem _ hk))
        (fun k hk => finite k (List.mem_cons_of_mem _ hk))
        (fun k hk => finite' k (List.mem_cons_of_mem _ hk)) others]

/-- **Programs of one source** have the same instructions, the same output, and as many inputs. -/
theorem Program.WellFormed.of_source_eq {p p' : Program} (h : p.WellFormed) (h' : p'.WellFormed)
    (e : p.source = p'.source) : p.instructions = p'.instructions ∧ p.output = p'.output ∧
      p.inputs.length = p'.inputs.length := by
  obtain ⟨textures, lines, colour⟩ := Wgsl.Fragment.of_text_eq e
  rw [shown_fragment, shown_fragment] at lines
  have output := firstVar_colour p.outputKind p.output
  have same : (colourExpr p.outputKind (.var p.output)).text =
      (colourExpr p'.outputKind (.var p'.output)).text := colour
  rw [same, firstVar_colour] at output
  exact ⟨eq_of_shown h.fits h'.fits h.finite h'.finite lines, (Option.some.inj output).symm, textures⟩

/-- What is drawn depends on the inputs that a program has by their number only. -/
theorem Program.execute_congr {p p' : Program} (target : p.target = p'.target)
    (instructions : p.instructions = p'.instructions) (output : p.output = p'.output)
    (inputs : p.inputs.length = p'.inputs.length) (images : List Image) :
    p.execute images = p'.execute images := by
  have row : ∀ slots y count x registers,
      p.row slots images y count x registers = p'.row slots images y count x registers := by
    intro slots y count
    induction count with
    | zero => intros; rfl
    | succ count ih =>
      intro x registers
      have shade : p.shade slots (siteAt p.target images x y) registers =
          p'.shade slots (siteAt p'.target images x y) registers := by
        simp only [Program.shade, Program.registersAfter, target, instructions, output]
      simp only [Program.row, shade, ih]
  simp only [Program.execute, Program.rows, Program.slots, row, target, instructions, inputs]

/-- A recorded graph's program is well-formed. -/
theorem Recorded.wellFormed {id : Nat} {target : Extent} {g : Graph} {nodes : List Node}
    (h : Recorded id target g nodes) {out : Node} {p : Program} (hp : g.compile out = .ok p) :
    p.WellFormed := by
  have lowered : p = .lower g.instructions.toList out.id g.target := by
    unfold Graph.compile at hp
    split at hp
    · split at hp
      · exact (Except.ok.inj hp).symm
      · cases hp
    · cases hp
  have sound := h.sound
  subst lowered
  exact ⟨(sound.wellTyped.lower (fun i hi => sound.id_lt_length hi) g.target out.id).fits,
    isFinite_lower h.isFinite out.id g.target⟩

/-- **The source determines the program.** Programs that are compiled from any two graphs, and have
    one source, keep the same instructions, with the same kinds, numbers and operands, have the same
    output and as many inputs. So on targets of one extent they draw the same images, or fail
    alike. -/
theorem source_determines_program {id id' : Nat} {target target' : Extent} {g g' : Graph}
    {nodes nodes' : List Node} (h : Recorded id target g nodes) (h' : Recorded id' target' g' nodes')
    {out out' : Node} {p p' : Program} (hp : g.compile out = .ok p) (hp' : g'.compile out' = .ok p')
    (e : p.source = p'.source) :
    p.instructions = p'.instructions ∧ p.output = p'.output ∧ p.inputs.length = p'.inputs.length ∧
      (p.target = p'.target → ∀ images, p.execute images = p'.execute images) := by
  obtain ⟨instructions, output, inputs⟩ := (h.wellFormed hp).of_source_eq (h'.wellFormed hp') e
  exact ⟨instructions, output, inputs, fun target images =>
    Program.execute_congr target instructions output inputs images⟩

/-- Instructions that differ from those of `mossGraph` in what its program leaves out, and in the
    place of the texture. -/
def barkInstructions : List Instruction :=
  [⟨0, .i32, .integer 7⟩, ⟨1, .vec4, .texel 0⟩, ⟨2, .f32, .apply (.lane 0) [1]⟩,
    ⟨3, .bool, .boolean true⟩, ⟨4, .f32, .float 0.5⟩, ⟨5, .f32, .apply (.binary .add) [2, 4]⟩]

/-- The graph after so many calls, the second of which binds the texture. -/
def barkGraph (calls : Nat) : Graph where
  id := 1
  target := ⟨1, 1⟩
  instructions := (barkInstructions.take calls).toArray
  textures := ([moss].take (calls - 1)).toArray

/-- The nodes that so many calls have answered, the last one first. -/
def barkNodes (calls : Nat) : List Node :=
  ((barkInstructions.take calls).map fun i => ⟨1, i.id, i.kind⟩).reverse

theorem recorded_barkGraph : Recorded 1 ⟨1, 1⟩ (barkGraph 6) (barkNodes 6) := by
  have start : Recorded 1 ⟨1, 1⟩ (barkGraph 0) (barkNodes 0) := .empty
  have first : Recorded 1 ⟨1, 1⟩ (barkGraph 1) (barkNodes 1) :=
    .record start (.integer 7) (by decide) rfl
  have second : Recorded 1 ⟨1, 1⟩ (barkGraph 2) (barkNodes 2) :=
    .record first (.texture moss) (by decide) (Graph.record_texture rfl (by decide))
  have red : Recorded 1 ⟨1, 1⟩ (barkGraph 3) (barkNodes 3) :=
    .record second (.apply (.lane 0) [⟨1, 1, .vec4⟩]) (by decide) rfl
  have truth : Recorded 1 ⟨1, 1⟩ (barkGraph 4) (barkNodes 4) :=
    .record red (.boolean true) (by decide) rfl
  have half : Recorded 1 ⟨1, 1⟩ (barkGraph 5) (barkNodes 5) :=
    .record truth (.float 0.5) (by decide) rfl
  exact .record half (.apply (.binary .add) [⟨1, 2, .f32⟩, ⟨1, 4, .f32⟩]) (by decide) rfl

/-- Two graphs whose programs sample textures of different places, and have one source. -/
theorem moss_and_bark_are_one_program :
    ∃ p p', Recorded 0 ⟨1, 1⟩ (mossGraph 6) (mossNodes 6) ∧
      Recorded 1 ⟨1, 1⟩ (barkGraph 6) (barkNodes 6) ∧
      (mossGraph 6).compile ⟨0, 5, .f32⟩ = .ok p ∧ (barkGraph 6).compile ⟨1, 5, .f32⟩ = .ok p' ∧
      p.source = p'.source ∧ p.inputs = [1] ∧ p'.inputs = [0] ∧
      p.instructions = p'.instructions ∧ ∀ images, p.execute images = p'.execute images := by
  have compiled : (mossGraph 6).compile ⟨0, 5, .f32⟩ =
      .ok (.lower mossInstructions 5 ⟨1, 1⟩) := rfl
  have compiled' : (barkGraph 6).compile ⟨1, 5, .f32⟩ =
      .ok (.lower barkInstructions 5 ⟨1, 1⟩) := rfl
  have sources : (Program.lower mossInstructions 5 ⟨1, 1⟩).source =
      (Program.lower barkInstructions 5 ⟨1, 1⟩).source :=
    congrArg Wgsl.Fragment.text (by rfl)
  obtain ⟨instructions, _, _, images⟩ := source_determines_program recorded_mossGraph
    recorded_barkGraph compiled compiled' sources
  exact ⟨_, _, recorded_mossGraph, recorded_barkGraph, compiled, compiled', sources, rfl, rfl,
    instructions, images rfl⟩

end Relief.Shading
