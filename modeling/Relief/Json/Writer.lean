import Relief.Json.Basic

/-!
# Writing JSON

`Json.text` writes a value without blanks. In strings the quote, the backslash and the control
characters are escaped.
-/

namespace Relief.Json

/-- A hexadecimal digit. -/
def hexDigit (n : Nat) : Char :=
  Nat.digitChar (n % 16)

/-- How a character is written in a string. -/
def escape (c : Char) : List Char :=
  if c = '"' then ['\\', '"']
  else if c = '\\' then ['\\', '\\']
  else if c = '\x08' then ['\\', 'b']
  else if c = '\x0c' then ['\\', 'f']
  else if c = '\n' then ['\\', 'n']
  else if c = '\r' then ['\\', 'r']
  else if c = '\t' then ['\\', 't']
  else if c.toNat < 0x20 then ['\\', 'u', '0', '0', hexDigit (c.toNat / 16), hexDigit c.toNat]
  else [c]

/-- A string in quotes. Where half of a character is missing, such a half is written. -/
def quoted : Option String → List Char
  | some text => '"' :: text.toList.flatMap escape ++ ['"']
  | none => ['"', '\\', 'u', 'd', '8', '0', '0', '"']

mutual

/-- The characters of a value. -/
def chars : Json → List Char
  | null => ['n', 'u', 'l', 'l']
  | boolean true => ['t', 'r', 'u', 'e']
  | boolean false => ['f', 'a', 'l', 's', 'e']
  | number n => n.text.toList
  | string text => quoted text
  | array [] => ['[', ']']
  | array (item :: items) => '[' :: chars item ++ itemsChars items
  | object [] => ['\x7b', '\x7d']
  | object ((name, value) :: members) =>
    '\x7b' :: quoted name ++ ':' :: chars value ++ membersChars members

/-- The characters of the items behind the first, and the closing bracket. -/
def itemsChars : List Json → List Char
  | [] => [']']
  | item :: items => ',' :: chars item ++ itemsChars items

/-- The characters of the members behind the first, and the closing brace. -/
def membersChars : List (Option String × Json) → List Char
  | [] => ['\x7d']
  | (name, value) :: members => ',' :: quoted name ++ ':' :: chars value ++ membersChars members

end

/-- The text of a value. -/
def text (j : Json) : String :=
  .ofList j.chars

end Relief.Json
