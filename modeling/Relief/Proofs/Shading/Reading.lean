import Relief.Proofs.Number.Numerals
import Relief.Proofs.Shading.Literals

/-!
# Reading source back

The text of an instruction's expression, cut into words at blanks, brackets and commas, tells what
the instruction computes.

* `words`, `IsPlain`: the words of a text, and texts that are one word;
* `readTerm`: reads the words of an expression. Of literals it says nothing but that they are none of
  the other forms;
* `readTerm_words`: **what is read is what has been written**;
* `term_eq_of_text`: so two instructions of one kind with the same expression compute the same.
-/

namespace Relief.Shading

open Wgsl (Expr varName textureName binarySign builtinName memberName)

/-! ## 1. Words -/

/-- Blanks, brackets and the like. -/
def isSeparator (c : Char) : Bool :=
  c = ' ' || c = '(' || c = ')' || c = ',' || c = ';' || c = ':'

/-- The words of a text, some of which may be empty. -/
def words (text : List Char) : List (List Char) :=
  text.splitOnP isSeparator

/-- A text that is one word on one line. -/
def IsPlain (w : List Char) : Prop :=
  ∀ c ∈ w, isSeparator c = false ∧ c ≠ '\n'

@[simp] theorem words_nil : words [] = [[]] := rfl

theorem words_of_isPlain {w : List Char} (h : IsPlain w) : words w = [w] :=
  List.splitOnP_eq_singleton fun c hc => (h c hc).1

theorem words_append_sep {sep : Char} (hs : isSeparator sep = true) (front rest : List Char) :
    words (front ++ sep :: rest) = words front ++ words rest :=
  List.splitOnP_append_cons front rest hs

theorem words_sep {sep : Char} (hs : isSeparator sep = true) (rest : List Char) :
    words (sep :: rest) = [] :: words rest :=
  words_append_sep hs [] rest

theorem words_plain_sep {w : List Char} (h : IsPlain w) {sep : Char} (hs : isSeparator sep = true)
    (rest : List Char) : words (w ++ sep :: rest) = w :: words rest := by
  rw [words_append_sep hs, words_of_isPlain h, List.singleton_append]

/-! ## 2. Plain texts -/

theorem IsPlain.append {w w' : List Char} (h : IsPlain w) (h' : IsPlain w') : IsPlain (w ++ w') :=
  fun c hc => (List.mem_append.mp hc).elim (h c) (h' c)

theorem IsPlain.cons {c : Char} {w : List Char} (hc : isSeparator c = false ∧ c ≠ '\n')
    (h : IsPlain w) : IsPlain (c :: w) := by
  intro d hd
  rcases List.mem_cons.mp hd with rfl | hd
  · exact hc
  · exact h d hd

theorem isPlain_of_isDigit {w : List Char} (h : ∀ c ∈ w, c.isDigit = true) : IsPlain w := by
  intro c hc
  have digit := h c hc
  refine ⟨?_, fun e => absurd (e ▸ digit) (by decide)⟩
  cases hs : isSeparator c with
  | false => rfl
  | true =>
    simp only [isSeparator, Bool.or_eq_true, decide_eq_true_eq] at hs
    rcases hs with ((((rfl | rfl) | rfl) | rfl) | rfl) | rfl <;> exact absurd digit (by decide)

theorem isPlain_toDigits (n : Nat) : IsPlain (Nat.toDigits 10 n) :=
  isPlain_of_isDigit isDigit_toDigits

theorem isPlain_int (i : Int) : IsPlain (toString i).toList := by
  rw [toList_toString_int]
  split
  · exact isPlain_toDigits _
  · exact .cons ⟨rfl, by decide⟩ (isPlain_toDigits _)

theorem toList_varName (id : Nat) : (varName id).toList = 'v' :: Nat.toDigits 10 id := by
  rw [varName, String.toList_append, Nat.toString_eq_repr, Nat.toList_repr]
  rfl

theorem isPlain_varName (id : Nat) : IsPlain (varName id).toList := by
  rw [toList_varName]
  exact .cons ⟨rfl, by decide⟩ (isPlain_toDigits id)

theorem toList_textureName (binding : Nat) :
    (textureName binding).toList = ['t', '_', 'i', 'n'] ++ Nat.toDigits 10 binding := by
  rw [textureName, String.toList_append, Nat.toString_eq_repr, Nat.toList_repr]
  rfl

theorem isPlain_textureName (binding : Nat) : IsPlain (textureName binding).toList := by
  rw [toList_textureName]
  have front : IsPlain ['t', '_', 'i', 'n'] := by simp [IsPlain, isSeparator]
  exact front.append (isPlain_toDigits binding)

theorem isPlain_numeral {n : Numeral} (h : n.IsLiteral) : IsPlain n.text.toList := by
  rw [Numeral.toList_text, Numeral.body]
  refine .append ?_ (.append (isPlain_of_isDigit h.whole_digits) (.append ?_ ?_))
  · split <;> simp [IsPlain, isSeparator]
  · split
    · simp [IsPlain]
    · exact .cons ⟨rfl, by decide⟩ (isPlain_of_isDigit h.fraction_digits)
  · cases n.power with
    | none => simp [IsPlain]
    | some power => exact .cons ⟨rfl, by decide⟩ (isPlain_int power)

theorem isPlain_single (x : Float32) : IsPlain (Single.text x).toList := by
  unfold Single.text
  split
  · rename_i n h
    exact isPlain_numeral (Single.isLiteral_of_numeral? h)
  · split_ifs <;> simp [IsPlain, isSeparator]

theorem isPlain_builtinName (f : Builtin) : IsPlain (builtinName f).toList := by
  cases f <;> simp [IsPlain, isSeparator, builtinName]

theorem isPlain_kindText (k : Kind) : IsPlain k.text.toList := by
  cases k <;> simp [IsPlain, isSeparator, Kind.text]

theorem isPlain_binarySign (op : BinaryOp) : IsPlain (binarySign op).toList := by
  cases op <;> simp [IsPlain, isSeparator, binarySign]

/-! ## 3. The words of operands -/

/-- The words of operands with commas between them. -/
def operandWords : List Nat → List (List Char)
  | [] => [[]]
  | [id] => [(varName id).toList]
  | id :: next :: rest => (varName id).toList :: [] :: operandWords (next :: rest)

theorem words_operands (ids : List Nat) :
    words (Expr.listText (ids.map .var)).toList = operandWords ids := by
  induction ids with
  | nil => rfl
  | cons id rest ih =>
    cases rest with
    | nil =>
      simp only [List.map_cons, List.map_nil, Expr.listText, Expr.text, operandWords]
      exact words_of_isPlain (isPlain_varName id)
    | cons next rest =>
      have comma : (", " : String).toList = [',', ' '] := rfl
      simp only [List.map_cons, Expr.listText, Expr.text, operandWords] at ih ⊢
      rw [String.toList_append, String.toList_append, comma, List.append_assoc, List.cons_append,
        words_plain_sep (isPlain_varName id) rfl, List.cons_append, List.nil_append,
        words_sep rfl, ih]

/-- The words that are not empty. -/
def filled (ws : List (List Char)) : List (List Char) :=
  ws.filter fun w => !w.isEmpty

theorem filled_operandWords (ids : List Nat) :
    filled (operandWords ids) = ids.map fun id => (varName id).toList := by
  have named : ∀ id, (!(varName id).toList.isEmpty) = true := by
    intro id
    rw [toList_varName]
    rfl
  induction ids with
  | nil => rfl
  | cons id rest ih =>
    cases rest with
    | nil => simp [filled, operandWords, named]
    | cons next rest =>
      rw [filled] at ih ⊢
      simp only [operandWords, List.filter_cons, named, ih]
      rfl

/-! ## 4. Reading -/

/-- The number of a value, from its name. -/
def readVar : List Char → Option Nat
  | 'v' :: digits => readDigits? digits
  | _ => none

theorem readVar_varName (id : Nat) : readVar (varName id).toList = some id := by
  rw [toList_varName]
  exact readDigits?_toDigits id

theorem mapM_readVar (ids : List Nat) :
    (ids.map fun id => (varName id).toList).mapM readVar = some ids := by
  induction ids with
  | nil => rfl
  | cons id rest ih =>
    rw [List.map_cons, List.mapM_cons, readVar_varName, ih]
    rfl

/-- The number of a texture, from its name. -/
def readTexture : List Char → Option Nat
  | 't' :: '_' :: 'i' :: 'n' :: digits => readDigits? digits
  | _ => none

theorem readTexture_textureName (binding : Nat) :
    readTexture (textureName binding).toList = some binding := by
  rw [toList_textureName]
  exact readDigits?_toDigits binding

/-- What takes a member, from the point and the name of the member. -/
def readMember : List Char → Option Operator
  | ['.', 'x'] => some (.lane 0)
  | ['.', 'y'] => some (.lane 1)
  | ['.', 'z'] => some (.lane 2)
  | ['.', 'w'] => some (.lane 3)
  | ['.', 'x', 'y', 'z'] => some .xyz
  | _ => none

/-- A lone word: a member of a value, or the place of the fragment. -/
def readWord : List Char → Option Term
  | 'f' :: 'r' :: _ => some .position
  | 'v' :: rest =>
    let (digits, member) := rest.span Char.isDigit
    match readDigits? digits, readMember member with
    | some id, some op => some (.apply op [id])
    | _, _ => none
  | _ => none

/-- All operators between two operands. -/
def binaryOps : List BinaryOp :=
  [.add, .sub, .mul, .div, .lt, .le, .gt, .ge, .eq, .ne, .and, .or]

/-- Something in brackets: a sign with one operand or with two. -/
def readBracket (w : List Char) (rest : List (List Char)) : Option Term :=
  match w with
  | '-' :: v => (readVar v).map fun id => .apply (.unary .neg) [id]
  | '!' :: v => (readVar v).map fun id => .apply (.unary .not) [id]
  | _ =>
    match rest with
    | [sign, v, []] =>
      match readVar w, binaryOps.find? (fun op => (binarySign op).toList = sign), readVar v with
      | some a, some op, some b => some (.apply (.binary op) [a, b])
      | _, _, _ => none
    | _ => none

/-- All operators that are written as functions. -/
def functions : List Operator :=
  [.builtin .sin, .builtin .cos, .builtin .tan, .builtin .atan2, .builtin .sqrt, .builtin .abs,
    .builtin .pow, .builtin .floor, .builtin .length, .builtin .normalize, .builtin .dot,
    .builtin .min, .builtin .max, .builtin .clamp, .builtin .mix, .builtin .step, .builtin .select,
    .inverse, .toFloat, .toInteger]

/-- The name of an operator that is written as a function. -/
def functionName : Operator → String
  | .builtin f => builtinName f
  | .inverse => "inverse3"
  | .toFloat => "f32"
  | .toInteger => "i32"
  | _ => ""

/-- A function of some operands: a texel, an operator, a construction, or the extent of the target,
    which is a construction from numbers. -/
def readCall (name : List Char) (rest : List (List Char)) : Option Term :=
  if name = "textureLoad".toList then (filled rest).head?.bind fun w => (readTexture w).map .texel
  else
    match functions.find? fun op => (functionName op).toList = name with
    | some op => ((filled rest).mapM readVar).map (.apply op)
    | none =>
      match (filled rest).mapM readVar with
      | some ids => some (.construct ids)
      | none => some .resolution

/-- What an expression computes; none for a literal. -/
def readTerm : List (List Char) → Option Term
  | [w] => readWord w
  | [] :: w :: rest => readBracket w rest
  | name :: rest => readCall name rest
  | [] => none

/-! ## 5. Lone words -/

/-- The word of a member of a value. -/
theorem readWord_member (id : Nat) {m : List Char} {op : Operator}
    (read : readMember ('.' :: m) = some op) :
    readWord ((varName id).toList ++ '.' :: m) = some (.apply op [id]) := by
  have cut : (Nat.toDigits 10 id ++ '.' :: m).span Char.isDigit = (Nat.toDigits 10 id, '.' :: m) :=
    span_append isDigit_toDigits (by simp)
  rw [toList_varName, List.cons_append, readWord, cut]
  simp only [readDigits?_toDigits, read]

/-- The texts of numbers do not begin as those of other words do. -/
def StartsNumber (w : List Char) : Prop :=
  ∃ c rest, w = c :: rest ∧ c ≠ 'v' ∧ c ≠ 'f'

theorem StartsNumber.append {w : List Char} (h : StartsNumber w) (rest : List Char) :
    StartsNumber (w ++ rest) := by
  obtain ⟨c, tail, rfl, hc⟩ := h
  exact ⟨c, tail ++ rest, rfl, hc⟩

theorem StartsNumber.readVar {w : List Char} (h : StartsNumber w) : readVar w = none := by
  obtain ⟨c, rest, rfl, hv, -⟩ := h
  unfold Shading.readVar
  split
  · rename_i e
    exact absurd (List.cons.inj e).1 hv
  · rfl

theorem StartsNumber.readWord {w : List Char} (h : StartsNumber w) : readWord w = none := by
  obtain ⟨c, rest, rfl, hv, hf⟩ := h
  unfold Shading.readWord
  split
  · rename_i e
    exact absurd (List.cons.inj e).1 hf
  · rename_i e
    exact absurd (List.cons.inj e).1 hv
  · rfl

theorem startsNumber_of_isDigit {c : Char} (h : c.isDigit = true) (rest : List Char) :
    StartsNumber (c :: rest) := by
  refine ⟨c, rest, rfl, ?_, ?_⟩ <;>
  · rintro rfl
    exact absurd h (by decide)

theorem startsNumber_numeral {n : Numeral} (h : n.IsLiteral) : StartsNumber n.text.toList := by
  obtain ⟨c, rest, hb, hc⟩ := h.exists_digit
  rw [Numeral.toList_text, hb]
  cases n.negative with
  | true => exact ⟨'-', _, rfl, by decide, by decide⟩
  | false => exact startsNumber_of_isDigit hc rest

theorem startsNumber_single (x : Float32) : StartsNumber (Single.text x).toList := by
  unfold Single.text
  split
  · rename_i n h
    exact startsNumber_numeral (Single.isLiteral_of_numeral? h)
  · split_ifs <;> exact ⟨_, _, rfl, by decide, by decide⟩

theorem startsNumber_int (i : Int) : StartsNumber (toString i).toList := by
  rw [toList_toString_int]
  split
  · obtain ⟨c, rest, e⟩ := List.exists_cons_of_ne_nil (Nat.toDigits_ne_nil (n := i.toNat) (b := 10))
    rw [e]
    exact startsNumber_of_isDigit (isDigit_toDigits c (e ▸ List.mem_cons_self)) rest
  · exact ⟨'-', _, rfl, by decide, by decide⟩

/-! ## 6. What is written is read -/

/-- A term, unless it is a literal. -/
def Term.unlessLiteral : Term → Option Term
  | float _ => none
  | integer _ => none
  | boolean _ => none
  | term => some term

theorem Term.eq_of_unlessLiteral {s t : Term} (h : t.unlessLiteral = some s) : t = s := by
  cases t <;> first | exact Option.some.inj h | cases h

/-- The words of a function and its operands. -/
theorem words_call {name : String} (h : IsPlain name.toList) (ids : List Nat) :
    words (name ++ "(" ++ Expr.listText (ids.map .var) ++ ")").toList
      = name.toList :: (operandWords ids ++ [[]]) := by
  have opening : ("(" : String).toList = ['('] := rfl
  have closing : (")" : String).toList = [')'] := rfl
  rw [String.toList_append, String.toList_append, String.toList_append, opening, closing,
    List.append_assoc, List.append_assoc, List.singleton_append, words_plain_sep h rfl,
    words_append_sep rfl, words_operands, words_nil]

/-- What the operands of a function are read as. -/
theorem mapM_operandWords (ids : List Nat) :
    (filled (operandWords ids ++ [[]])).mapM readVar = some ids := by
  have last : filled [[]] = [] := rfl
  have all : filled (operandWords ids ++ [[]]) = filled (operandWords ids) ++ filled [[]] :=
    List.filter_append ..
  rw [all, filled_operandWords, last, List.append_nil, mapM_readVar]

/-- A function of operands is read as the operator of its name, and as a construction if no operator
    has it. -/
theorem readCall_operands {name : List Char} (h : name ≠ "textureLoad".toList) (ids : List Nat) :
    readCall name (operandWords ids ++ [[]]) =
      some (((functions.find? fun op => (functionName op).toList = name).map
        (Term.apply · ids)).getD (.construct ids)) := by
  rw [readCall, if_neg h]
  simp only [mapM_operandWords]
  cases functions.find? fun op => (functionName op).toList = name <;> rfl

theorem readTerm_call {name : List Char} (h : name ≠ []) {rest : List (List Char)} (hr : rest ≠ []) :
    readTerm (name :: rest) = readCall name rest := by
  obtain ⟨c, name, rfl⟩ := List.exists_cons_of_ne_nil h
  obtain ⟨w, rest, rfl⟩ := List.exists_cons_of_ne_nil hr
  rfl

/-- **A function of operands reads back**: as the operator of its name, or as a construction. -/
theorem readTerm_function {name : String} (plain : IsPlain name.toList) (start : name.toList ≠ [])
    (h : name.toList ≠ "textureLoad".toList) (ids : List Nat) :
    readTerm (words (name ++ "(" ++ Expr.listText (ids.map .var) ++ ")").toList) =
      some (((functions.find? fun op => (functionName op).toList = name.toList).map
        (Term.apply · ids)).getD (.construct ids)) := by
  rw [words_call plain, readTerm_call start (by simp), readCall_operands h]

/-- The words of what is in brackets. -/
theorem words_brackets (inner : String) :
    words ("(" ++ inner ++ ")").toList = [] :: (words inner.toList ++ [[]]) := by
  have opening : ("(" : String).toList = ['('] := rfl
  have closing : (")" : String).toList = [')'] := rfl
  rw [String.toList_append, String.toList_append, opening, closing, List.append_assoc,
    List.singleton_append, words_sep rfl, words_append_sep rfl, words_nil]

/-- **An operator before its operand reads back.** -/
theorem readTerm_unary (op : UnaryOp) (id : Nat) :
    readTerm (words (Expr.unary op (.var id)).text.toList) = some (.apply (.unary op) [id]) := by
  have sign : ∃ c, (Wgsl.unarySign op).toList = [c] ∧ (isSeparator c = false ∧ c ≠ '\n') ∧
      ∀ v, readBracket (c :: v) [[]] = (readVar v).map fun id => .apply (.unary op) [id] := by
    cases op with
    | neg => exact ⟨'-', rfl, ⟨rfl, by decide⟩, fun _ => rfl⟩
    | not => exact ⟨'!', rfl, ⟨rfl, by decide⟩, fun _ => rfl⟩
  obtain ⟨c, hc, plain, bracket⟩ := sign
  have inner : words (Wgsl.unarySign op ++ varName id).toList = [c :: (varName id).toList] := by
    rw [String.toList_append, hc]
    exact words_of_isPlain (.cons plain (isPlain_varName id))
  have text : (Expr.unary op (.var id)).text =
      "(" ++ (Wgsl.unarySign op ++ varName id) ++ ")" := by
    simp only [Expr.text, String.append_assoc]
  rw [text, words_brackets, inner]
  have read : readTerm ([] :: ([c :: (varName id).toList] ++ [[]])) =
      readBracket (c :: (varName id).toList) [[]] := rfl
  rw [read, bracket, readVar_varName, Option.map_some]

theorem find?_binarySign (op : BinaryOp) :
    binaryOps.find? (fun o => (binarySign o).toList = (binarySign op).toList) = some op := by
  cases op <;> rfl

/-- **An operator between its operands reads back.** -/
theorem readTerm_binary (op : BinaryOp) (a b : Nat) :
    readTerm (words (Expr.binary op (.var a) (.var b)).text.toList) =
      some (.apply (.binary op) [a, b]) := by
  have blank : (" " : String).toList = [' '] := rfl
  have inner : words (varName a ++ " " ++ binarySign op ++ " " ++ varName b).toList =
      [(varName a).toList, (binarySign op).toList, (varName b).toList] := by
    simp only [String.toList_append, blank, List.append_assoc, List.cons_append, List.nil_append]
    rw [words_plain_sep (isPlain_varName a) rfl, words_plain_sep (isPlain_binarySign op) rfl,
      words_of_isPlain (isPlain_varName b)]
  have text : (Expr.binary op (.var a) (.var b)).text =
      "(" ++ (varName a ++ " " ++ binarySign op ++ " " ++ varName b) ++ ")" := by
    simp only [Expr.text, String.append_assoc]
  rw [text, words_brackets, inner]
  have read : readTerm ([] :: ([(varName a).toList, (binarySign op).toList, (varName b).toList] ++
      [[]])) = readBracket (varName a).toList [(binarySign op).toList, (varName b).toList, []] := rfl
  rw [read]
  have va := readVar_varName a
  rw [toList_varName] at va ⊢
  simp only [readBracket, va, find?_binarySign, readVar_varName]
  rfl

/-- **A member of a value reads back.** -/
theorem readTerm_member (id : Nat) {m : Wgsl.Member} {op : Operator}
    (read : readMember ('.' :: (memberName m).toList) = some op) :
    readTerm (words (Expr.member (.var id) m).text.toList) = some (.apply op [id]) := by
  have point : ("." : String).toList = ['.'] := rfl
  have text : (Expr.member (.var id) m).text.toList =
      (varName id).toList ++ '.' :: (memberName m).toList := by
    simp only [Expr.text, String.toList_append, point, List.append_assoc, List.singleton_append]
  have plain : IsPlain ('.' :: (memberName m).toList) := by
    cases m <;> simp [IsPlain, isSeparator, memberName]
  rw [text, words_of_isPlain ((isPlain_varName id).append plain)]
  exact readWord_member id read

/-! ## 7. What is written is read -/

theorem components_le {k : Kind} (h : k.isVector = true) : k.components ≤ 4 := by
  cases k <;> simp [Kind.isVector, Kind.components] at h ⊢

/-- A lane of the first four. -/
theorem readMember_lane {index : Nat} (h : index < 4) :
    readMember ('.' :: (memberName (laneMember index)).toList) = some (.lane index) := by
  match index with
  | 0 | 1 | 2 | 3 => rfl

theorem find?_builtinName (f : Builtin) :
    functions.find? (fun op => (functionName op).toList = (builtinName f).toList)
      = some (.builtin f) := by
  cases f <;> rfl

/-- **What applies an operator reads back.** -/
theorem readTerm_apply {op : Operator} {operands : List Nat} {kinds : List Kind} {k : Kind}
    (length : operands.length = kinds.length) (result : op.result? kinds = some k)
    (lane : op.LaneFits kinds) :
    readTerm (words (op.expr (operands.map .var)).text.toList) = some (.apply op operands) := by
  cases op with
  | unary op =>
    match kinds, operands, length, result with
    | [_], [a], _, _ => exact readTerm_unary op a
  | binary op =>
    match kinds, operands, length, result with
    | [_, _], [a, b], _, _ => exact readTerm_binary op a b
  | builtin f =>
    have read := readTerm_function (isPlain_builtinName f) (by cases f <;> simp [builtinName])
      (by cases f <;> simp [builtinName]) operands
    rw [find?_builtinName] at read
    rw [Operator.expr, Expr.text]
    exact read
  | lane index =>
    match kinds, operands, length, result, lane with
    | [k], [a], _, result, lane =>
      have vector : k.isVector = true := by
        by_contra h
        simp [Operator.result?, h] at result
      have four : index < 4 := Nat.lt_of_lt_of_le lane (components_le vector)
      exact readTerm_member a (readMember_lane four)
  | xyz =>
    match kinds, operands, length, result with
    | [.vec4], [a], _, _ => exact readTerm_member a rfl
  | inverse =>
    match kinds, operands, length, result with
    | [.mat3], [a], _, _ =>
      have plain : IsPlain "inverse3".toList := by simp [IsPlain, isSeparator]
      exact readTerm_function plain (by simp) (by simp) [a]
  | toFloat =>
    exact readTerm_function (isPlain_kindText .f32) (by simp [Kind.text]) (by simp [Kind.text])
      operands
  | toInteger =>
    exact readTerm_function (isPlain_kindText .i32) (by simp [Kind.text]) (by simp [Kind.text])
      operands

/-- A construction makes a vector or a matrix. -/
theorem readTerm_construct {parts : List Nat} {kinds : List Kind} {k : Kind}
    (built : constructed? kinds = some k) :
    readTerm (words (Expr.make k (parts.map .var)).text.toList) = some (.construct parts) := by
  have kind : k = .vec2 ∨ k = .vec3 ∨ k = .vec4 ∨ k = .mat3 := by
    unfold constructed? at built
    split at built <;> cases built <;> simp
  rw [Expr.text]
  rcases kind with rfl | rfl | rfl | rfl <;>
    exact readTerm_function (isPlain_kindText _) (by simp [Kind.text]) (by simp [Kind.text]) parts

/-- A word that is a number is read as none. -/
theorem readTerm_number {w : List Char} (plain : IsPlain w) (h : StartsNumber w) :
    readTerm (words w) = none := by
  rw [words_of_isPlain plain]
  exact h.readWord

theorem readTerm_texel (binding : Nat) :
    readTerm (words (Expr.texel binding).text.toList) = some (.texel binding) := by
  have text : (Expr.texel binding).text.toList = "textureLoad".toList ++ '(' ::
      ((textureName binding).toList ++ ',' :: " px, 0)".toList) := by
    have opening : ("textureLoad(" : String).toList = "textureLoad".toList ++ ['('] := rfl
    have closing : (", px, 0)" : String).toList = ',' :: " px, 0)".toList := rfl
    simp only [Expr.text, String.toList_append, opening, closing, List.append_assoc,
      List.cons_append, List.nil_append]
  have name : IsPlain "textureLoad".toList := by simp [IsPlain, isSeparator]
  rw [text, words_plain_sep name rfl, words_plain_sep (isPlain_textureName binding) rfl,
    readTerm_call (by simp) (List.cons_ne_nil _ _), readCall, if_pos rfl]
  have first : (filled ((textureName binding).toList :: words " px, 0)".toList)).head? =
      some (textureName binding).toList := by
    rw [filled, toList_textureName]
    rfl
  rw [first, Option.bind_some, readTexture_textureName, Option.map_some]

theorem readTerm_resolution (width height : Float32) :
    readTerm (words (Expr.make .vec2 [.float width, .float height]).text.toList)
      = some .resolution := by
  have text : (Expr.make .vec2 [.float width, .float height]).text.toList =
      Kind.vec2.text.toList ++ '(' :: ((Single.text width).toList ++ ',' :: ' ' ::
        ((Single.text height).toList ++ [')'])) := by
    have opening : ("(" : String).toList = ['('] := rfl
    have comma : (", " : String).toList = [',', ' '] := rfl
    have closing : (")" : String).toList = [')'] := rfl
    simp only [Expr.text, Expr.listText, String.toList_append, opening, comma, closing,
      List.append_assoc, List.cons_append, List.nil_append]
  obtain ⟨c, rest, hw, _⟩ := startsNumber_single width
  have first : filled ((Single.text width).toList :: [] :: [(Single.text height).toList, []]) =
      (Single.text width).toList :: filled [(Single.text height).toList, []] := by
    rw [filled, hw]
    rfl
  rw [text, words_plain_sep (isPlain_kindText _) rfl, words_plain_sep (isPlain_single width) rfl,
    words_sep rfl, words_plain_sep (isPlain_single height) rfl, words_nil,
    readTerm_call (by simp [Kind.text]) (List.cons_ne_nil _ _), readCall,
    if_neg (by simp [Kind.text]), first, List.mapM_cons, (startsNumber_single width).readVar]
  rfl

/-- **What the expression of an instruction is read as**: what the instruction computes, unless that
    is a literal. -/
theorem Instruction.Fits.readTerm_words {i : Instruction} {L : List Instruction} {textures : Nat}
    (h : i.Fits L textures) (target : Extent) :
    readTerm (words (i.expr target).text.toList) = i.term.unlessLiteral := by
  obtain ⟨id, kind, term⟩ := i
  cases term with
  | float x => exact readTerm_number (isPlain_single x) (startsNumber_single x)
  | integer n =>
    have text : (Expr.integer n).text.toList = (toString n.toInt).toList ++ ['i'] := by
      rw [Expr.text, String.toList_append]
      rfl
    rw [Instruction.expr, text]
    refine readTerm_number ((isPlain_int _).append ?_) ((startsNumber_int _).append _)
    simp [IsPlain, isSeparator]
  | boolean b =>
    rw [Instruction.expr, Expr.text, words_of_isPlain (by cases b <;> simp [IsPlain, isSeparator])]
    cases b <;> rfl
  | texel binding => exact readTerm_texel binding
  | position =>
    rw [Instruction.expr, Expr.text, words_of_isPlain (by simp [IsPlain, isSeparator])]
    rfl
  | resolution => exact readTerm_resolution _ _
  | construct parts =>
    obtain ⟨kinds, _, built⟩ := h
    exact readTerm_construct built
  | apply op operands =>
    obtain ⟨kinds, all, result, lane⟩ := h
    exact readTerm_apply all.length_eq result lane

/-! ## 8. Literals -/

theorem integer_eq_of_text {a b : Int32}
    (h : toString a.toInt ++ "i" = toString b.toInt ++ "i") : a = b := by
  have digits := congrArg String.toList h
  rw [String.toList_append, String.toList_append, List.append_left_inj] at digits
  have read := readInt?_toString a.toInt
  rw [digits, readInt?_toString] at read
  exact (Int32.toInt_inj.mp (Option.some.inj read)).symm

/-- **Two instructions of one kind with the same expression compute the same.** -/
theorem term_eq_of_text {i j : Instruction} {L L' : List Instruction} {textures textures' : Nat}
    (hi : i.Fits L textures) (hj : j.Fits L' textures') (fi : i.IsFinite) (fj : j.IsFinite)
    (kind : i.kind = j.kind) {target target' : Extent}
    (h : (i.expr target).text = (j.expr target').text) : i.term = j.term := by
  have read := hi.readTerm_words target
  rw [h, hj.readTerm_words target'] at read
  obtain ⟨id, k, s⟩ := i
  obtain ⟨id', k', t⟩ := j
  dsimp only at kind read ⊢
  subst kind
  cases s with
  | float x =>
    cases t with
    | float y =>
      simp only [Instruction.expr, Expr.text] at h
      rw [Single.text_injective (fi x rfl) (fj y rfl) h]
    | integer _ => exact absurd (hi.symm.trans hj) (by decide)
    | boolean _ => exact absurd (hi.symm.trans hj) (by decide)
    | _ => cases read
  | integer a =>
    cases t with
    | float _ => exact absurd (hi.symm.trans hj) (by decide)
    | integer b =>
      simp only [Instruction.expr, Expr.text] at h
      rw [integer_eq_of_text h]
    | boolean _ => exact absurd (hi.symm.trans hj) (by decide)
    | _ => cases read
  | boolean a =>
    cases t with
    | float _ => exact absurd (hi.symm.trans hj) (by decide)
    | integer _ => exact absurd (hi.symm.trans hj) (by decide)
    | boolean b =>
      simp only [Instruction.expr, Expr.text] at h
      cases a <;> cases b <;> first | rfl | exact absurd h (by decide)
    | _ => cases read
  | _ => exact (Term.eq_of_unlessLiteral read).symm

end Relief.Shading
