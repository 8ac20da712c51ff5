import Relief.Json.Number
import Relief.Json.Writer
import Relief.Proofs.Json.Grammar

/-!
# Written JSON

What is written for a value follows the grammar, so that it is read as the value again.

* `Numeral.IsJson`: numbers whose digits JSON can write, and `numeralText_text`, their texts;
* `WellFormed`: values all of whose numbers are such;
* `spells_chars`, `read?_text`: **the text of a value is read as this value**;
* `wellFormed_ofSingle`, `word?_ofWord`: the values of singles and words. Every word is read as it
  was written.
-/

namespace Relief

open Json

/-! ## 1. Numbers -/

/-- A number whose digits JSON can write: no zero stands in front of others. -/
structure Numeral.IsJson (n : Numeral) : Prop where
  whole : Whole n.whole
  fraction : ∀ c ∈ n.fraction, c.isDigit = true

namespace Json

theorem digits_toDigits (n : ℕ) : Digits (Nat.toDigits 10 n) :=
  ⟨Nat.toDigits_ne_nil, isDigit_toDigits⟩

/-- The digits of a number that is not zero do not begin with a zero. -/
theorem head?_toDigits {n : ℕ} (h : n ≠ 0) : (Nat.toDigits 10 n).head? ≠ some '0' := by
  induction n using Nat.strongRecOn with
  | ind n ih =>
    rw [Nat.toDigits_eq_if (by norm_num)]
    split
    · interval_cases n <;> first | exact absurd rfl h | decide
    · rw [List.head?_append_of_ne_nil _ Nat.toDigits_ne_nil]
      exact ih (n / 10) (by omega) (by omega)

theorem whole_toDigits (n : ℕ) : Whole (Nat.toDigits 10 n) := by
  rcases eq_or_ne n 0 with rfl | nonzero
  · exact .inl (by decide)
  · exact .inr ⟨digits_toDigits n, head?_toDigits nonzero⟩

theorem powerText_toString (power : ℤ) : PowerText ('e' :: (toString power).toList) power := by
  rw [toList_toString_int]
  split
  · rename_i whole
    have text := PowerText.plain (.inl rfl) (digits_toDigits power.toNat)
    rwa [digitsValue_toDigits, Int.toNat_of_nonneg whole] at text
  · rename_i below
    have text := PowerText.minus (.inl rfl) (digits_toDigits (-power).toNat)
    rwa [digitsValue_toDigits, Int.toNat_of_nonneg (by omega), neg_neg] at text

/-- **A number is written as JSON has it.** -/
theorem numeralText_text {n : Numeral} (h : n.IsJson) : NumeralText n.text.toList n := by
  have fraction :
      FractionText (if n.fraction.isEmpty then [] else '.' :: n.fraction) n.fraction := by
    cases empty : n.fraction.isEmpty with
    | true =>
      rw [List.isEmpty_iff.mp empty]
      exact .none
    | false => exact .some ⟨List.isEmpty_eq_false_iff.mp empty, h.fraction⟩
  have unsigned : UnsignedText n.negative n.body n := by
    refine .mk h.whole fraction ?_
    cases n.power with
    | none => exact .none
    | some power => exact powerText_toString power
  rw [Numeral.toList_text]
  cases negative : n.negative with
  | true =>
    rw [negative] at unsigned
    exact .negative unsigned
  | false =>
    rw [negative] at unsigned
    exact .positive unsigned

/-- Arranging the digits of a number that is not zero makes a number of JSON. -/
theorem isJson_arrange (a : Arrangement) (negative : Bool) {d : Decimal} (h : d.digits ≠ 0) :
    (d.arrange a negative).IsJson := by
  have first := head?_toDigits h
  have some_ : Nat.toDigits 10 d.digits ≠ [] := Nat.toDigits_ne_nil
  have literal := isLiteral_arrange a negative d
  refine ⟨?_, literal.fraction_digits⟩
  have digits : Digits (d.arrange a negative).whole := ⟨literal.whole, literal.whole_digits⟩
  revert digits
  unfold Decimal.arrange
  dsimp only
  split_ifs with plain small large <;> intro digits
  · exact .inl rfl
  · refine .inr ⟨digits, ?_⟩
    rwa [List.head?_append_of_ne_nil _ some_]
  · refine .inr ⟨digits, ?_⟩
    rwa [List.head?_take, if_neg (by omega)]
  · refine .inr ⟨digits, ?_⟩
    rwa [List.head?_take, if_neg one_ne_zero]

end Json

/-- Whatever numeral a single has is one of JSON. -/
theorem Single.isJson_of_numeral? {a : Arrangement} {x : Float32} {n : Numeral}
    (h : Single.numeral? a x = some n) : n.IsJson := by
  have finite : x.isFinite = true := by
    unfold Single.numeral? at h
    show (Single.unpack x).isFinite = true
    split at h
    · rename_i e
      rw [e]
      rfl
    · rename_i e
      rw [e]
      rfl
    · cases h
  rcases Single.exists_finite finite with ⟨s, hx⟩ | ⟨s, m, e, c, hx⟩
  · rw [Single.numeral?_zero a hx] at h
    cases h
    exact ⟨.inl rfl, (isLiteral_zero _).fraction_digits⟩
  · rw [Single.numeral?_finite a hx] at h
    cases h
    refine isJson_arrange a _ fun zero => (Single.value_shortest_pos c).ne' ?_
    rw [Decimal.value, zero, Nat.cast_zero, zero_mul]

namespace Json

/-! ## 2. Strings -/

/-- The characters that are written as a letter behind a backslash. -/
def lettered : List Char :=
  ['"', '\\', '\x08', '\x0c', '\n', '\r', '\t']

/-- The piece of a string that is written for a character. -/
def piece (c : Char) : Piece :=
  if c ∉ lettered ∧ c.toNat < 0x20 then .unit c.toNat else .char c

theorem unite?_piece (c : Char) (ps : List Piece) :
    unite? (piece c :: ps) = (unite? ps).map (c :: ·) := by
  unfold piece
  split
  · rename_i low
    have high : isHigh c.toNat = false := by
      simp only [isHigh, Bool.and_eq_false_iff, decide_eq_false_iff_not]
      omega
    have low' : isLow c.toNat = false := by
      simp only [isLow, Bool.and_eq_false_iff, decide_eq_false_iff_not]
      omega
    cases ps with
    | nil => simp [unite?, high, low']
    | cons p ps => cases p <;> simp [unite?, high, low']
  · rw [unite?]

theorem exists_letter {c : Char} (h : c ∈ lettered) :
    ∃ e, escape c = ['\\', e] ∧ escaped? e = some c := by
  simp only [lettered, List.mem_cons, List.not_mem_nil, or_false] at h
  rcases h with rfl | rfl | rfl | rfl | rfl | rfl | rfl <;> exact ⟨_, rfl, rfl⟩

theorem unit?_hexDigit : ∀ n < 0x20, unit? '0' '0' (hexDigit (n / 16)) (hexDigit n) = some n := by
  decide

theorem piecesText_escape (c : Char) {cs : List Char} {ps : List Piece} (h : PiecesText cs ps) :
    PiecesText (escape c ++ cs) (piece c :: ps) := by
  by_cases letter : c ∈ lettered
  · obtain ⟨e, written, read⟩ := exists_letter letter
    rw [written, piece, if_neg fun both => both.1 letter]
    exact .escape read h
  · have others := letter
    simp only [lettered, List.mem_cons, List.not_mem_nil, or_false, not_or] at others
    obtain ⟨quote, backslash, b, f, n, r, t⟩ := others
    rw [escape, if_neg quote, if_neg backslash, if_neg b, if_neg f, if_neg n, if_neg r, if_neg t,
      piece]
    by_cases control : c.toNat < 0x20
    · rw [if_pos control, if_pos ⟨letter, control⟩]
      exact .unit (unit?_hexDigit _ control) h
    · rw [if_neg control, if_neg fun both => control both.2]
      exact .char quote backslash (Nat.not_lt.mp control) h

theorem stringText_quoted (text : Option String) : StringText (quoted text) text := by
  cases text with
  | none =>
    have half : unit? 'd' '8' '0' '0' = some 0xD800 := by decide
    exact .mk (.unit half .nil)
  | some text =>
    have pieces (l : List Char) : PiecesText (l.flatMap escape) (l.map piece) ∧
        unite? (l.map piece) = some l := by
      induction l with
      | nil => exact ⟨.nil, rfl⟩
      | cons c l ih =>
        refine ⟨piecesText_escape c ih.1, ?_⟩
        rw [List.map_cons, unite?_piece, ih.2, Option.map_some]
    have text' := StringText.mk (pieces text.toList).1
    rwa [(pieces text.toList).2, Option.map_some, String.ofList_toList] at text'

/-! ## 3. Values -/

/-- A value that JSON can write: whatever numbers are in it are numbers of JSON. -/
inductive WellFormed : Json → Prop
  | null : WellFormed .null
  | boolean (b : Bool) : WellFormed (.boolean b)
  | number {n : Numeral} : n.IsJson → WellFormed (.number n)
  | string (text : Option String) : WellFormed (.string text)
  | array {items : List Json} : (∀ item ∈ items, WellFormed item) → WellFormed (.array items)
  | object {members : List (Option String × Json)} : (∀ m ∈ members, WellFormed m.2) →
    WellFormed (.object members)

@[simp]
theorem wellFormed_null : WellFormed .null :=
  .null

@[simp]
theorem wellFormed_boolean (b : Bool) : WellFormed (.boolean b) :=
  .boolean b

@[simp]
theorem wellFormed_string (text : Option String) : WellFormed (.string text) :=
  .string text

@[simp]
theorem wellFormed_array {items : List Json} :
    WellFormed (.array items) ↔ ∀ item ∈ items, WellFormed item :=
  ⟨fun | .array h => h, .array⟩

@[simp]
theorem wellFormed_object {members : List (Option String × Json)} :
    WellFormed (.object members) ↔ ∀ m ∈ members, WellFormed m.2 :=
  ⟨fun | .object h => h, .object⟩

theorem Padded.of_spells {cs : List Char} {value : Json} (h : Spells cs value) :
    Padded cs value := by
  have blanks : Blanks [] := by decide
  simpa using Padded.mk blanks h blanks

theorem memberText_quoted (name : Option String) {value : Json} (h : Spells value.chars value) :
    MemberText (quoted name ++ ':' :: value.chars) (name, value) := by
  have blanks : Blanks [] := by decide
  exact .mk blanks (stringText_quoted name) blanks (.of_spells h)

/-- The items behind the first one, and what closes them. -/
theorem itemsText_chars {item : Json} {items : List Json} (first : Spells item.chars item)
    (h : ∀ item ∈ items, Spells item.chars item) :
    ∃ cs, item.chars ++ itemsChars items = cs ++ [']'] ∧ ItemsText cs (item :: items) := by
  induction items generalizing item with
  | nil => exact ⟨_, rfl, .one (.of_spells first)⟩
  | cons next items ih =>
    obtain ⟨cs, closed, text⟩ := ih (h next List.mem_cons_self)
      fun item hi => h item (List.mem_cons_of_mem _ hi)
    refine ⟨item.chars ++ ',' :: cs, ?_, .more (.of_spells first) text⟩
    rw [itemsChars, List.cons_append, closed, List.append_assoc, List.cons_append]

/-- The members behind the first one, and what closes them. -/
theorem membersText_chars (name : Option String) {value : Json}
    {members : List (Option String × Json)} (first : Spells value.chars value)
    (h : ∀ m ∈ members, Spells m.2.chars m.2) :
    ∃ cs, quoted name ++ ':' :: value.chars ++ membersChars members = cs ++ ['\x7d'] ∧
      MembersText cs ((name, value) :: members) := by
  induction members generalizing name value with
  | nil => exact ⟨_, rfl, .one (memberText_quoted name first)⟩
  | cons next members ih =>
    obtain ⟨name', value'⟩ := next
    have first' : Spells value'.chars value' := h _ List.mem_cons_self
    obtain ⟨cs, closed, text⟩ := ih name' first'
      fun m hm => h m (List.mem_cons_of_mem _ hm)
    refine ⟨quoted name ++ ':' :: value.chars ++ ',' :: cs, ?_,
      .more (memberText_quoted name first) text⟩
    simp only [membersChars, List.cons_append, List.append_assoc] at closed ⊢
    rw [closed]

/-- **What is written for a value follows the grammar.** -/
theorem spells_chars {value : Json} (h : WellFormed value) : Spells value.chars value := by
  have blanks : Blanks [] := by decide
  induction h with
  | null => exact .null
  | boolean b =>
    cases b with
    | true => exact .yes
    | false => exact .no
  | number hn => exact .number (numeralText_text hn)
  | string text => exact .string (stringText_quoted text)
  | @array items _ ih =>
    cases items with
    | nil => exact .noItems blanks
    | cons item items =>
      obtain ⟨cs, closed, text⟩ := itemsText_chars (ih item List.mem_cons_self)
        fun item hi => ih item (List.mem_cons_of_mem _ hi)
      rw [chars, List.cons_append, closed]
      exact .array text
  | @object members _ ih =>
    cases members with
    | nil => exact .noMembers blanks
    | cons m members =>
      obtain ⟨name, value⟩ := m
      have first : Spells value.chars value := ih _ List.mem_cons_self
      obtain ⟨cs, closed, text⟩ := membersText_chars name first
        fun m hm => ih m (List.mem_cons_of_mem _ hm)
      have written : chars (.object ((name, value) :: members)) = '\x7b' :: (cs ++ ['\x7d']) := by
        rw [← closed, chars]
        rfl
      rw [written]
      exact .object text

theorem padded_text {value : Json} (h : WellFormed value) : Padded value.text.toList value := by
  rw [text, String.toList_ofList]
  exact .of_spells (spells_chars h)

/-- **The text of a value is read as this value.** -/
theorem read?_text {value : Json} (h : WellFormed value) : read? value.text = some value :=
  read?_of_padded (padded_text h)

/-! ## 4. Singles and words -/

@[simp]
theorem wellFormed_ofSingle (x : Float32) : WellFormed (.ofSingle x) := by
  unfold ofSingle
  split
  · rename_i n h
    exact .number (Single.isJson_of_numeral? h)
  · exact .null

@[simp]
theorem wellFormed_ofWord (n : UInt64) : WellFormed (.ofWord n) :=
  .number ⟨whole_toDigits _, fun _ hc => absurd hc List.not_mem_nil⟩

/-- Digits are gathered as long as their number fits a word. -/
theorem gather_eq {digits : List Char} {n : ℕ} (h : Nat.ofDigitChars 10 digits n < 2 ^ 64) :
    gather n digits = (Nat.ofDigitChars 10 digits n, []) := by
  induction digits generalizing n with
  | nil => rfl
  | cons c digits ih =>
    rw [Nat.ofDigitChars_cons] at h ⊢
    rw [gather]
    generalize 10 * n + (c.toNat - '0'.toNat) = next at h ⊢
    have grows : next ≤ Nat.ofDigitChars 10 digits next := by
      rw [Nat.ofDigitChars_eq_ofDigitChars_zero]
      exact (Nat.le_mul_of_pos_left _ (by positivity)).trans (Nat.le_add_right _ _)
    rw [if_pos (Nat.lt_of_le_of_lt grows h), ih h]

/-- **Every word is read as it was written.** -/
theorem word?_ofWord (n : UInt64) : (ofWord n).word? = some n := by
  have value : Nat.ofDigitChars 10 (Nat.toDigits 10 n.toNat) 0 = n.toNat :=
    Nat.ofDigitChars_ten_toDigits
  have gathered : gather 0 (Nat.toDigits 10 n.toNat) = (n.toNat, []) := by
    rw [gather_eq (by rw [value]; exact n.toNat_lt), value]
  have integer : (Numeral.mk false (Nat.toDigits 10 n.toNat) [] none).number?
      = some (.integer n.toNat) := by
    simp only [Numeral.number?, gathered, gather]
    rfl
  have fits : (0 : ℤ) ≤ n.toNat ∧ (n.toNat : ℤ) < 2 ^ 64 :=
    ⟨Int.natCast_nonneg _, by exact_mod_cast n.toNat_lt⟩
  rw [ofWord, word?, integer, Option.bind_some, Number.word?, if_pos fits, Int.toNat_natCast]
  exact congrArg some UInt64.ofNat_toNat

end Json

end Relief
