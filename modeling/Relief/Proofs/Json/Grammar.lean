import Relief.Json.Reader
import Relief.Proofs.Number.Numerals

/-!
# The grammar of JSON

Which text is which value, apart from how texts are read: what stands in braces and brackets, in
quotes, and around all of it.

* `NumeralText`, `StringText`: the texts of numbers and strings;
* `Spells`: **the texts of values**, with all that may be nested in them, and `Padded`, with blanks
  around;
* `read?_of_padded`: **every such text is read as its value**, however deeply it is nested.

The fuel of the reader counts two turns for each character: one for the value that begins there, and
one for the list that goes on behind it.
-/

namespace Relief.Json

/-! ## 1. Numbers -/

/-- Nothing but blanks. -/
def Blanks (cs : List Char) : Prop :=
  ∀ c ∈ cs, isBlank c = true

instance : DecidablePred Blanks :=
  List.decidableBAll (p := fun c => isBlank c = true)

/-- Digits, one at least. -/
structure Digits (cs : List Char) : Prop where
  nonempty : cs ≠ []
  all : ∀ c ∈ cs, c.isDigit = true

/-- The digits before the point: a zero alone, or digits of which the first is another one. -/
def Whole (cs : List Char) : Prop :=
  cs = ['0'] ∨ Digits cs ∧ cs.head? ≠ some '0'

/-- The digits behind the point, and the point. -/
inductive FractionText : List Char → List Char → Prop
  | none : FractionText [] []
  | some {ds : List Char} : Digits ds → FractionText ('.' :: ds) ds

/-- A power of ten, behind a letter of either case; a plus sign may be left out. -/
inductive PowerText : List Char → Option ℤ → Prop
  | none : PowerText [] none
  | plain {e : Char} {ds : List Char} : e = 'e' ∨ e = 'E' → Digits ds →
    PowerText (e :: ds) (some (digitsValue ds))
  | plus {e : Char} {ds : List Char} : e = 'e' ∨ e = 'E' → Digits ds →
    PowerText (e :: '+' :: ds) (some (digitsValue ds))
  | minus {e : Char} {ds : List Char} : e = 'e' ∨ e = 'E' → Digits ds →
    PowerText (e :: '-' :: ds) (some (-(digitsValue ds : ℤ)))

/-- The text of a number behind its sign. -/
inductive UnsignedText (negative : Bool) : List Char → Numeral → Prop
  | mk {whole cs fraction cs' : List Char} {power : Option ℤ} : Whole whole →
    FractionText cs fraction → PowerText cs' power →
    UnsignedText negative (whole ++ (cs ++ cs')) ⟨negative, whole, fraction, power⟩

/-- The text of a number. -/
inductive NumeralText : List Char → Numeral → Prop
  | positive {cs : List Char} {n : Numeral} : UnsignedText false cs n → NumeralText cs n
  | negative {cs : List Char} {n : Numeral} : UnsignedText true cs n → NumeralText ('-' :: cs) n

/-! ## 2. Strings -/

/-- The text of the pieces of a string. -/
inductive PiecesText : List Char → List Piece → Prop
  | nil : PiecesText [] []
  | char {c : Char} {cs : List Char} {ps : List Piece} : c ≠ '"' → c ≠ '\\' → 0x20 ≤ c.toNat →
    PiecesText cs ps → PiecesText (c :: cs) (.char c :: ps)
  | escape {c e : Char} {cs : List Char} {ps : List Piece} : escaped? c = some e →
    PiecesText cs ps → PiecesText ('\\' :: c :: cs) (.char e :: ps)
  | unit {a b c d : Char} {n : ℕ} {cs : List Char} {ps : List Piece} : unit? a b c d = some n →
    PiecesText cs ps → PiecesText ('\\' :: 'u' :: a :: b :: c :: d :: cs) (.unit n :: ps)

/-- The text of a string, in quotes. -/
inductive StringText : List Char → Option String → Prop
  | mk {cs : List Char} {ps : List Piece} : PiecesText cs ps →
    StringText ('"' :: (cs ++ ['"'])) ((unite? ps).map String.ofList)

/-! ## 3. Values -/

mutual

/-- The text of a value, from its first character to its last. -/
inductive Spells : List Char → Json → Prop
  | null : Spells ['n', 'u', 'l', 'l'] .null
  | yes : Spells ['t', 'r', 'u', 'e'] (.boolean true)
  | no : Spells ['f', 'a', 'l', 's', 'e'] (.boolean false)
  | number {cs : List Char} {n : Numeral} : NumeralText cs n → Spells cs (.number n)
  | string {cs : List Char} {text : Option String} : StringText cs text → Spells cs (.string text)
  | noItems {bs : List Char} : Blanks bs → Spells ('[' :: (bs ++ [']'])) (.array [])
  | array {cs : List Char} {items : List Json} : ItemsText cs items →
    Spells ('[' :: (cs ++ [']'])) (.array items)
  | noMembers {bs : List Char} : Blanks bs → Spells ('\x7b' :: (bs ++ ['\x7d'])) (.object [])
  | object {cs : List Char} {members : List (Option String × Json)} : MembersText cs members →
    Spells ('\x7b' :: (cs ++ ['\x7d'])) (.object members)

/-- The text of a value with blanks around it. -/
inductive Padded : List Char → Json → Prop
  | mk {bs cs bs' : List Char} {value : Json} : Blanks bs → Spells cs value → Blanks bs' →
    Padded (bs ++ (cs ++ bs')) value

/-- The text of items, with commas between them. -/
inductive ItemsText : List Char → List Json → Prop
  | one {cs : List Char} {item : Json} : Padded cs item → ItemsText cs [item]
  | more {cs cs' : List Char} {item : Json} {items : List Json} : Padded cs item →
    ItemsText cs' items → ItemsText (cs ++ ',' :: cs') (item :: items)

/-- The text of a member: a name, and a value behind a colon. -/
inductive MemberText : List Char → Option String × Json → Prop
  | mk {bs cs bs' cs' : List Char} {name : Option String} {value : Json} : Blanks bs →
    StringText cs name → Blanks bs' → Padded cs' value →
    MemberText (bs ++ (cs ++ (bs' ++ ':' :: cs'))) (name, value)

/-- The text of members, with commas between them. -/
inductive MembersText : List Char → List (Option String × Json) → Prop
  | one {cs : List Char} {member : Option String × Json} : MemberText cs member →
    MembersText cs [member]
  | more {cs cs' : List Char} {member : Option String × Json}
    {members : List (Option String × Json)} : MemberText cs member → MembersText cs' members →
    MembersText (cs ++ ',' :: cs') (member :: members)

end

/-! ## 4. Reading numbers and strings -/

theorem isBlank_iff {c : Char} : isBlank c = true ↔ c = ' ' ∨ c = '\n' ∨ c = '\t' ∨ c = '\r' := by
  simp only [isBlank, Bool.or_eq_true, decide_eq_true_eq, or_assoc]

theorem skipBlanks_append {bs : List Char} (h : Blanks bs) (cs : List Char) :
    skipBlanks (bs ++ cs) = skipBlanks cs :=
  List.dropWhile_append_of_pos h

theorem skipBlanks_cons {c : Char} (h : isBlank c = false) (cs : List Char) :
    skipBlanks (c :: cs) = c :: cs :=
  List.dropWhile_cons_of_neg (by simp [h])

variable {cs cs' rest : List Char}

/-- What follows a value does not go on with it: it is a blank, a comma or a closing bracket. -/
def Closes (rest : List Char) : Prop :=
  ∀ c ∈ rest.head?, isBlank c = true ∨ c = ',' ∨ c = ']' ∨ c = '\x7d'

theorem Closes.of_head {c : Char} (h : c = ',' ∨ c = ']' ∨ c = '\x7d') :
    Closes (c :: rest) := by
  rintro _ ⟨⟩
  exact .inr h

theorem Closes.append {bs : List Char} (hb : Blanks bs) (h : Closes rest) :
    Closes (bs ++ rest) := by
  cases bs with
  | nil => exact h
  | cons b bs =>
    rintro _ ⟨⟩
    exact .inl (hb b List.mem_cons_self)

/-- What follows a value goes on with no number. -/
theorem Closes.not_number (h : Closes rest) :
    ∀ c ∈ rest.head?, c.isDigit = false ∧ c ≠ '.' ∧ ¬ (c = 'e' ∨ c = 'E') := by
  intro c hc
  rcases h c hc with blank | rfl | rfl | rfl
  · rcases isBlank_iff.mp blank with rfl | rfl | rfl | rfl <;> decide
  all_goals decide

theorem readPower?_append {power : Option ℤ} (h : PowerText cs power) (hr : Closes rest) :
    readPower? (cs ++ rest) = some (power, rest) := by
  have digits {ds : List Char} (hd : Digits ds) (negative : Bool) :
      readPowerDigits? negative (ds ++ rest)
        = some (if negative then -(digitsValue ds : ℤ) else digitsValue ds, rest) := by
    rw [readPowerDigits?, span_append hd.all fun c hc => (hr.not_number c hc).1]
    exact if_neg (by simp [hd.nonempty])
  cases h with
  | none =>
    cases rest with
    | nil => rfl
    | cons c rest => exact if_neg (hr.not_number c rfl).2.2
  | plus he hd =>
    rw [List.cons_append, List.cons_append, readPower?, if_pos he]
    simp only [digits hd, Option.map_some]
    rfl
  | minus he hd =>
    rw [List.cons_append, List.cons_append, readPower?, if_pos he]
    simp only [digits hd, Option.map_some]
    rfl
  | @plain e ds he hd =>
    have unsigned (rest' : List Char) : ds ++ rest ≠ '-' :: rest' ∧ ds ++ rest ≠ '+' :: rest' := by
      obtain ⟨d, ds, rfl⟩ := List.exists_cons_of_ne_nil hd.nonempty
      constructor <;>
      · rintro ⟨⟩
        exact absurd (hd.all _ List.mem_cons_self) (by decide)
    rw [List.cons_append, readPower?, if_pos he]
    · simp only [digits hd, Option.map_some]
      rfl
    · exact fun rest' => (unsigned rest').1
    · exact fun rest' => (unsigned rest').2

theorem readFraction?_append {fraction : List Char} (h : FractionText cs fraction)
    (hr : ∀ c ∈ rest.head?, c.isDigit = false ∧ c ≠ '.') :
    readFraction? (cs ++ rest) = some (fraction, rest) := by
  cases h with
  | none =>
    rw [List.nil_append, readFraction?]
    rintro rest' rfl
    exact (hr '.' rfl).2 rfl
  | some hd =>
    rw [List.cons_append, readFraction?, span_append hd.all fun c hc => (hr c hc).1]
    exact if_neg (by simp [hd.nonempty])

theorem readWhole?_append {whole : List Char} (h : Whole whole)
    (hr : ∀ c ∈ rest.head?, c.isDigit = false) :
    readWhole? (whole ++ rest) = some (whole, rest) := by
  rcases h with rfl | ⟨hd, first⟩
  · rfl
  · rw [readWhole?, span_append hd.all hr]
    · exact if_neg (by simp [hd.nonempty])
    · intro rest' same
      obtain ⟨d, ds, rfl⟩ := List.exists_cons_of_ne_nil hd.nonempty
      obtain ⟨rfl, _⟩ := List.cons.inj same
      exact first rfl

/-- What follows the whole digits of a number, and what follows its fraction. -/
theorem PowerText.follows {power : Option ℤ} (h : PowerText cs power) (hr : Closes rest) :
    ∀ c ∈ (cs ++ rest).head?, c.isDigit = false ∧ c ≠ '.' := by
  have letter {e : Char} (he : e = 'e' ∨ e = 'E') : e.isDigit = false ∧ e ≠ '.' := by
    rcases he with rfl | rfl <;> decide
  cases h with
  | none => exact fun c hc => ⟨(hr.not_number c hc).1, (hr.not_number c hc).2.1⟩
  | plain he | plus he | minus he =>
    rintro _ ⟨⟩
    exact letter he

theorem readUnsigned?_append {negative : Bool} {n : Numeral} (h : UnsignedText negative cs n)
    (hr : Closes rest) : readUnsigned? negative (cs ++ rest) = some (n, rest) := by
  cases h with
  | @mk whole cs fraction cs' power hw hf hp =>
    have follows := hp.follows hr
    have point : ∀ c ∈ (cs ++ (cs' ++ rest)).head?, c.isDigit = false := by
      cases hf with
      | none => exact fun c hc => (follows c hc).1
      | some _ =>
        rintro _ ⟨⟩
        decide
    simp only [List.append_assoc, readUnsigned?, readWhole?_append hw point,
      readFraction?_append hf follows, readPower?_append hp hr, Option.bind_some, Option.map_some]

/-- Behind its sign, a number begins with a digit. -/
theorem UnsignedText.exists_digit {negative : Bool} {n : Numeral} (h : UnsignedText negative cs n) :
    ∃ c cs', cs = c :: cs' ∧ c.isDigit = true := by
  cases h with
  | mk hw _ _ =>
    rcases hw with rfl | ⟨hd, _⟩
    · exact ⟨_, _, rfl, by decide⟩
    · obtain ⟨d, ds, rfl⟩ := List.exists_cons_of_ne_nil hd.nonempty
      exact ⟨_, _, rfl, hd.all _ List.mem_cons_self⟩

/-- **The text of a number is read as the number.** -/
theorem readNumeral?_append {n : Numeral} (h : NumeralText cs n) (hr : Closes rest) :
    readNumeral? (cs ++ rest) = some (n, rest) := by
  cases h with
  | negative h => exact readUnsigned?_append h hr
  | positive h =>
    rw [readNumeral?, readUnsigned?_append h hr]
    obtain ⟨c, cs', rfl, digit⟩ := h.exists_digit
    rintro rest' ⟨⟩
    exact absurd digit (by decide)

/-- **The text of the pieces of a string is read as these pieces**, up to the closing quote. -/
theorem readPieces?_append {ps : List Piece} (h : PiecesText cs ps) (rest : List Char) :
    readPieces? (cs ++ '"' :: rest) = some (ps, rest) := by
  induction h with
  | nil => rfl
  | char quote backslash least _ ih =>
    rw [List.cons_append, readPieces?, if_neg (Nat.not_lt.mpr least), ih, Option.map_some]
    · exact quote
    · exact fun _ _ _ _ _ same => absurd same backslash
    · exact fun _ _ same => absurd same backslash
  | escape he _ ih =>
    rw [List.cons_append, List.cons_append, readPieces?, he]
    · simp only [ih, Option.map_some]
    · rintro _ _ _ _ _ rfl _
      cases he
  | unit hu _ ih =>
    simp only [List.cons_append, readPieces?, hu, ih, Option.map_some]

theorem readString?_append {text : Option String} (h : StringText cs text) (rest : List Char) :
    ∃ cs', cs = '"' :: cs' ∧ readString? (cs' ++ rest) = some (text, rest) := by
  cases h with
  | mk h =>
    refine ⟨_, rfl, ?_⟩
    rw [List.append_assoc, List.singleton_append, readString?, readPieces?_append h,
      Option.map_some]

/-! ## 5. Reading values -/

theorem readValue?_append {bs : List Char} (h : Blanks bs) (fuel : ℕ) (cs : List Char) :
    readValue? fuel (bs ++ cs) = readValue? fuel cs := by
  cases fuel with
  | zero => rfl
  | succ fuel => rw [readValue?, readValue?, skipBlanks_append h]

theorem readItems?_append {bs : List Char} (h : Blanks bs) (fuel : ℕ) (cs : List Char) :
    readItems? fuel (bs ++ cs) = readItems? fuel cs := by
  cases fuel with
  | zero => rfl
  | succ fuel => rw [readItems?, readItems?, readValue?_append h]

theorem readMembers?_append {bs : List Char} (h : Blanks bs) (fuel : ℕ) (cs : List Char) :
    readMembers? fuel (bs ++ cs) = readMembers? fuel cs := by
  cases fuel with
  | zero => rfl
  | succ fuel => rw [readMembers?, readMembers?, skipBlanks_append h]

/-- A number begins with a sign or with a digit. -/
theorem NumeralText.exists_first {n : Numeral} (h : NumeralText cs n) :
    ∃ c cs', cs = c :: cs' ∧ (c = '-' ∨ c.isDigit = true) := by
  cases h with
  | negative _ => exact ⟨_, _, rfl, .inl rfl⟩
  | positive h =>
    obtain ⟨c, cs', rfl, digit⟩ := h.exists_digit
    exact ⟨c, cs', rfl, .inr digit⟩

/-- A value begins with no blank, nor with a bracket that closes. -/
theorem Spells.exists_first {value : Json} (h : Spells cs value) :
    ∃ c cs', cs = c :: cs' ∧ isBlank c = false ∧ c ≠ ']' := by
  cases h with
  | number h =>
    obtain ⟨c, cs', rfl, first⟩ := h.exists_first
    refine ⟨c, cs', rfl, Bool.eq_false_iff.mpr fun blank => ?_, ?_⟩
    · rcases isBlank_iff.mp blank with rfl | rfl | rfl | rfl <;> revert first <;> decide
    · rintro rfl
      revert first
      decide
  | string h =>
    cases h with
    | mk _ => exact ⟨_, _, rfl, by decide, by decide⟩
  | _ => exact ⟨_, _, rfl, by decide, by decide⟩

theorem ItemsText.exists_first {items : List Json} (h : ItemsText cs items) :
    ∃ bs c cs', cs = bs ++ c :: cs' ∧ Blanks bs ∧ isBlank c = false ∧ c ≠ ']' := by
  have padded {cs : List Char} {value : Json} (h : Padded cs value) :
      ∃ bs c cs', cs = bs ++ c :: cs' ∧ Blanks bs ∧ isBlank c = false ∧ c ≠ ']' := by
    cases h with
    | mk hb spelt _ =>
      obtain ⟨c, cs', rfl, first⟩ := spelt.exists_first
      exact ⟨_, c, _, rfl, hb, first⟩
  cases h with
  | one hp => exact padded hp
  | more hp _ =>
    obtain ⟨bs, c, cs', rfl, first⟩ := padded hp
    exact ⟨bs, c, _, by rw [List.append_assoc, List.cons_append], first⟩

theorem MembersText.exists_first {members : List (Option String × Json)}
    (h : MembersText cs members) : ∃ bs cs', cs = bs ++ '"' :: cs' ∧ Blanks bs := by
  have quoted {cs : List Char} {m : Option String × Json} (h : MemberText cs m) :
      ∃ bs cs', cs = bs ++ '"' :: cs' ∧ Blanks bs := by
    cases h with
    | mk hb hs _ _ =>
      cases hs with
      | mk _ => exact ⟨_, _, rfl, hb⟩
  cases h with
  | one hm => exact quoted hm
  | more hm _ =>
    obtain ⟨bs, cs', rfl, hb⟩ := quoted hm
    exact ⟨bs, _, by rw [List.append_assoc, List.cons_append], hb⟩

theorem readValue?_number {n : Numeral} (h : NumeralText cs n) (hr : Closes rest) (fuel : ℕ) :
    readValue? (fuel + 1) (cs ++ rest) = some (.number n, rest) := by
  have read := readNumeral?_append h hr
  obtain ⟨c, cs', rfl, first⟩ := h.exists_first
  obtain ⟨_, _, same, blank, _⟩ := (Spells.number h).exists_first
  obtain ⟨rfl, rfl⟩ := List.cons.inj same
  have other : ∀ d ∈ ['n', 't', 'f', '"', '[', '\x7b'], c ≠ d := by
    rintro d hd rfl
    simp only [List.mem_cons, List.not_mem_nil, or_false] at hd
    rcases hd with rfl | rfl | rfl | rfl | rfl | rfl <;> revert first <;> decide
  rw [List.cons_append] at read ⊢
  rw [readValue?, skipBlanks_cons blank]
  split
  iterate 6
    rename_i same
    exact absurd (List.cons.inj same).1 (other _ (by decide))
  rw [read, Option.map_some]

theorem readValue?_bracket (fuel : ℕ) :
    readValue? (fuel + 1) ('[' :: cs) = match skipBlanks cs with
      | ']' :: rest => some (.array [], rest)
      | rest => (readItems? fuel rest).map fun (items, rest) => (.array items, rest) :=
  rfl

theorem readValue?_brace (fuel : ℕ) :
    readValue? (fuel + 1) ('\x7b' :: cs) = match skipBlanks cs with
      | '\x7d' :: rest => some (.object [], rest)
      | rest => (readMembers? fuel rest).map fun (members, rest) => (.object members, rest) :=
  rfl

/-- What is read behind an item: the items after it, or the end of them. -/
def itemsAfter? (fuel : ℕ) (item : Json) : List Char → Option (List Json × List Char)
  | ',' :: rest => (readItems? fuel rest).map fun (items, rest) => (item :: items, rest)
  | ']' :: rest => some ([item], rest)
  | _ => none

/-- What is read behind a member: the members after it, or the end of them. -/
def membersAfter? (fuel : ℕ) (member : Option String × Json) :
    List Char → Option (List (Option String × Json) × List Char)
  | ',' :: rest => (readMembers? fuel rest).map fun (members, rest) => (member :: members, rest)
  | '\x7d' :: rest => some ([member], rest)
  | _ => none

/-- What so many turns suffice for. -/
structure Reads (fuel : ℕ) : Prop where
  value : ∀ {cs : List Char} {value : Json} {rest : List Char}, Spells cs value → Closes rest →
    2 * cs.length + 1 ≤ fuel → readValue? fuel (cs ++ rest) = some (value, rest)
  items : ∀ {cs : List Char} {items : List Json} {rest : List Char}, ItemsText cs items →
    2 * cs.length + 2 ≤ fuel → readItems? fuel (cs ++ ']' :: rest) = some (items, rest)
  members : ∀ {cs : List Char} {members : List (Option String × Json)} {rest : List Char},
    MembersText cs members → 2 * cs.length + 2 ≤ fuel →
    readMembers? fuel (cs ++ '\x7d' :: rest) = some (members, rest)

namespace Reads

variable {fuel : ℕ} (h : Reads fuel)
include h

/-- A value with blanks around it; those behind it may be left. -/
theorem padded {value : Json} (hp : Padded cs value) (hr : Closes rest)
    (enough : 2 * cs.length + 1 ≤ fuel) :
    ∃ rest', readValue? fuel (cs ++ rest) = some (value, rest') ∧
      skipBlanks rest' = skipBlanks rest := by
  cases hp with
  | @mk bs cs bs' _ before spelt behind =>
    refine ⟨bs' ++ rest, ?_, skipBlanks_append behind rest⟩
    simp only [List.length_append] at enough
    rw [List.append_assoc, List.append_assoc, readValue?_append before]
    exact h.value spelt (hr.append behind) (by omega)

/-- One item, and what is read behind it. -/
theorem item {item : Json} (hp : Padded cs item) (hr : Closes rest)
    (enough : 2 * cs.length + 1 ≤ fuel) :
    readItems? (fuel + 1) (cs ++ rest) = itemsAfter? fuel item (skipBlanks rest) := by
  obtain ⟨rest', read, same⟩ := h.padded hp hr enough
  simp only [readItems?, read, Option.bind_some, same]
  rfl

theorem next_items {items : List Json} (hi : ItemsText cs items)
    (enough : 2 * cs.length + 2 ≤ fuel + 1) :
    readItems? (fuel + 1) (cs ++ ']' :: rest) = some (items, rest) := by
  cases hi with
  | one hp =>
    rw [h.item hp (.of_head (by decide)) (by omega)]
    rfl
  | @more cs cs' item items hp hi =>
    rw [List.length_append, List.length_cons] at enough
    rw [List.append_assoc, List.cons_append, h.item hp (.of_head (by decide)) (by omega)]
    show (readItems? fuel (cs' ++ ']' :: rest)).map _ = _
    rw [h.items hi (by omega), Option.map_some]

/-- One member, and what is read behind it. -/
theorem member {m : Option String × Json} (hm : MemberText cs m) (hr : Closes rest)
    (enough : 2 * cs.length + 1 ≤ fuel) :
    readMembers? (fuel + 1) (cs ++ rest) = membersAfter? fuel m (skipBlanks rest) := by
  cases hm with
  | @mk bs cs bs' cs' name value before hs between hp =>
    simp only [List.length_append, List.length_cons] at enough
    obtain ⟨quoted, rfl, named⟩ := readString?_append hs (bs' ++ ':' :: (cs' ++ rest))
    obtain ⟨rest', read, same⟩ := h.padded hp hr (by omega)
    have start : skipBlanks ('"' :: (quoted ++ (bs' ++ ':' :: (cs' ++ rest))))
        = '"' :: (quoted ++ (bs' ++ ':' :: (cs' ++ rest))) := skipBlanks_cons (by decide) _
    have colon : skipBlanks (':' :: (cs' ++ rest)) = ':' :: (cs' ++ rest) :=
      skipBlanks_cons (by decide) _
    simp only [List.append_assoc, List.cons_append, readMembers?, skipBlanks_append before, start,
      named, Option.bind_some, skipBlanks_append between, colon, read, same]
    rfl

theorem next_members {members : List (Option String × Json)} (hm : MembersText cs members)
    (enough : 2 * cs.length + 2 ≤ fuel + 1) :
    readMembers? (fuel + 1) (cs ++ '\x7d' :: rest) = some (members, rest) := by
  cases hm with
  | one hm =>
    rw [h.member hm (.of_head (by decide)) (by omega)]
    rfl
  | @more cs cs' member members hm hms =>
    rw [List.length_append, List.length_cons] at enough
    rw [List.append_assoc, List.cons_append, h.member hm (.of_head (by decide)) (by omega)]
    show (readMembers? fuel (cs' ++ '\x7d' :: rest)).map _ = _
    rw [h.members hms (by omega), Option.map_some]

theorem next_value {value : Json} (hv : Spells cs value) (hr : Closes rest)
    (enough : 2 * cs.length + 1 ≤ fuel + 1) :
    readValue? (fuel + 1) (cs ++ rest) = some (value, rest) := by
  cases hv with
  | null | yes | no => rfl
  | number hn => exact readValue?_number hn hr fuel
  | string hs =>
    obtain ⟨quoted, rfl, read⟩ := readString?_append hs rest
    show (readString? (quoted ++ rest)).map _ = _
    rw [read, Option.map_some]
  | @noItems bs hb =>
    rw [List.cons_append, readValue?_bracket, List.append_assoc, skipBlanks_append hb]
    rfl
  | @noMembers bs hb =>
    rw [List.cons_append, readValue?_brace, List.append_assoc, skipBlanks_append hb]
    rfl
  | @array cs items hi =>
    rw [List.length_cons, List.length_append] at enough
    obtain ⟨bs, c, cs, rfl, hb, blank, other⟩ := hi.exists_first
    have read : readItems? fuel (bs ++ c :: cs ++ ']' :: rest) = some (items, rest) :=
      h.items hi (by omega)
    have start : skipBlanks (bs ++ c :: cs ++ [']'] ++ rest) = c :: (cs ++ ']' :: rest) := by
      rw [List.append_assoc, List.append_assoc, skipBlanks_append hb, List.cons_append,
        skipBlanks_cons blank]
      rfl
    rw [List.append_assoc, List.cons_append, readItems?_append hb] at read
    rw [List.cons_append, readValue?_bracket, start]
    split
    · rename_i same
      exact absurd (List.cons.inj same).1 other
    · rw [read, Option.map_some]
  | @object cs members hm =>
    rw [List.length_cons, List.length_append] at enough
    obtain ⟨bs, cs, rfl, hb⟩ := hm.exists_first
    have read : readMembers? fuel (bs ++ '"' :: cs ++ '\x7d' :: rest) = some (members, rest) :=
      h.members hm (by omega)
    have start : skipBlanks (bs ++ '"' :: cs ++ ['\x7d'] ++ rest)
        = '"' :: (cs ++ '\x7d' :: rest) := by
      rw [List.append_assoc, List.append_assoc, skipBlanks_append hb, List.cons_append,
        skipBlanks_cons (by decide)]
      rfl
    rw [List.append_assoc, List.cons_append, readMembers?_append hb] at read
    rw [List.cons_append, readValue?_brace, start]
    show (readMembers? fuel ('"' :: (cs ++ '\x7d' :: rest))).map _ = _
    rw [read, Option.map_some]

end Reads

/-- **So many turns suffice**, one more for each. -/
theorem reads (fuel : ℕ) : Reads fuel := by
  induction fuel with
  | zero =>
    exact ⟨fun _ _ enough => absurd enough (by omega), fun _ enough => absurd enough (by omega),
      fun _ enough => absurd enough (by omega)⟩
  | succ fuel ih => exact ⟨ih.next_value, ih.next_items, ih.next_members⟩

/-- **The text of a value is read as the value**, with blanks around it or without. -/
theorem read?_of_padded {text : String} {value : Json} (h : Padded text.toList value) :
    read? text = some value := by
  have nothing : Closes [] := by simp [Closes]
  obtain ⟨rest, read, same⟩ :=
    (reads (2 * text.toList.length + 2)).padded h nothing (by omega)
  rw [List.append_nil] at read
  simp only [read?, read, same]
  rfl

end Relief.Json
