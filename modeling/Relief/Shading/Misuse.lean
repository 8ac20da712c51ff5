import Relief.Shading.Kind

/-!
# Mistakes in building expressions

Mistakes of the program that builds an expression, as opposed to data that do not fit together.
-/

namespace Relief.Shading

/-- A mistake of the program that builds an expression. -/
inductive Misuse where
  /-- Shader source has no way to write an infinity, or what is not a number. -/
  | nonFiniteLiteral (x : Float32)
  /-- A vector has no such lane. -/
  | noSuchLane (index : Nat) (kind : Kind)
  /-- A node is used in another graph than its own. -/
  | foreignNode (home user : Nat)
  /-- There is no such operator on operands of these kinds. -/
  | noSuchOperator (kinds : List Kind)
  /-- There is no such graph. -/
  | noSuchGraph (graph : Nat)

/-- How a number that cannot be written is named. -/
def nonFiniteName (x : Float32) : String :=
  if x.isNaN then "NaN" else if x < 0 then "-inf" else "inf"

/-- The wording of a mistake. -/
def Misuse.message : Misuse → String
  | nonFiniteLiteral x => "non-finite float literal " ++ nonFiniteName x
  | noSuchLane index kind => "channel " ++ toString index ++ " out of range for " ++ kind.text
  | foreignNode home user =>
    "node from shader graph #" ++ toString home ++ " used in shader graph #" ++ toString user
  | noSuchOperator kinds =>
    "no such operator on operands of kinds " ++ ", ".intercalate (kinds.map Kind.text)
  | noSuchGraph graph => "there is no shader graph #" ++ toString graph

end Relief.Shading
