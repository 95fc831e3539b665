set_option autoImplicit false

/-!
# Binary operators

How tightly each binary operator binds. The parser groups operators by these
numbers and the printer decides about parentheses by the same numbers.
-/

namespace LogLabel.Program.Operator

/-- Binding power of a binary operator; a higher power binds tighter, and an unknown operator has
power zero. -/
def precedence (operator : String) : Nat :=
  match operator with
  | "??" => 1
  | "||" => 1
  | "&&" => 2
  | "|" => 3
  | "^" => 4
  | "&" => 5
  | "==" => 6
  | "!=" => 6
  | "===" => 6
  | "!==" => 6
  | "<" => 7
  | ">" => 7
  | "<=" => 7
  | ">=" => 7
  | "instanceof" => 7
  | "in" => 7
  | "<<" => 8
  | ">>" => 8
  | ">>>" => 8
  | "+" => 9
  | "-" => 9
  | "*" => 10
  | "/" => 10
  | "%" => 10
  | "**" => 11
  | _ => 0

/-- Only the power operator groups from the right. -/
def isRightAssociative (operator : String) : Bool := operator == "**"

end LogLabel.Program.Operator
