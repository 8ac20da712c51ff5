/-!
# Words of plain text

The texts at the beginning of image files are words with spaces between them.

* `isBlank`: the characters of one byte that part words, and `isSpace`: all that do;
* `trim`: a text without the spaces at its ends;
* `words`: the words of a text.
-/

namespace Relief.Picture

/-- Whether a character of one byte parts words: a space, a tab, or any of the ways to end a line or
    a page. -/
def isBlank (c : Char) : Bool :=
  c = ' ' || (9 ≤ c.toNat && c.toNat ≤ 13)

/-- Whether a character is white space, of whatever width. -/
def isSpace (c : Char) : Bool :=
  isBlank c || (0x2000 ≤ c.toNat && c.toNat ≤ 0x200A)
    || c.toNat ∈ [0x85, 0xA0, 0x1680, 0x2028, 0x2029, 0x202F, 0x205F, 0x3000]

/-- A text without the spaces at its ends. -/
def trim (text : List Char) : List Char :=
  ((text.dropWhile isSpace).reverse.dropWhile isSpace).reverse

/-- The words of a text, after the last letters of one that has been begun, the last first. -/
def wordsAfter (word : List Char) : List Char → List (List Char)
  | [] => if word.isEmpty then [] else [word.reverse]
  | c :: rest =>
    if isSpace c then
      if word.isEmpty then wordsAfter [] rest else word.reverse :: wordsAfter [] rest
    else wordsAfter (c :: word) rest

/-- The words of a text. -/
def words (text : List Char) : List (List Char) :=
  wordsAfter [] text

end Relief.Picture
