import Relief.Number.Decimal

/-!
# JSON values

A JSON value as its text says it: numbers are kept as they are written, and the members of an object
in their order, with repeated names.

A string may name a surrogate that has no partner, which is part of no text. Such a string is
`none`.
-/

namespace Relief

/-- A JSON value. -/
inductive Json where
  | null
  | boolean (b : Bool)
  | number (n : Numeral)
  | string (text : Option String)
  | array (items : List Json)
  | object (members : List (Option String × Json))
  deriving Inhabited

end Relief
