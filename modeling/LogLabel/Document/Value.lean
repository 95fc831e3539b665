import LogLabel.Text.Quoted

set_option autoImplicit false

/-!
# Structured documents

The values that JSON documents hold, and their text. The entries of a record keep their
order, and a repeated key is kept as a second entry.

`Value.pretty` writes one item a line with two spaces of indentation; an empty list
or record stays on its line.
-/

namespace LogLabel.Document

/-- A document. Numbers other than natural ones are kept as they are written. -/
inductive Value where
  | null
  | bool (value : Bool)
  | natural (n : Nat)
  | number (raw : String)
  | text (s : String)
  | list (items : List Value)
  | record (entries : List (String × Value))
deriving Inhabited

namespace Value

/-- The value under the first occurrence of a key. -/
def field? (key : String) : Value → Option Value
  | .record entries => entries.lookup key
  | _ => none

/-- An optional value, absent as `null`. -/
def ofOption {α : Type} (f : α → Value) : Option α → Value
  | none => .null
  | some a => f a

/-- A list of values. -/
def ofList {α : Type} (f : α → Value) (items : List α) : Value := .list (items.map f)

/-- A record of one entry. -/
def tagged (tag : String) (v : Value) : Value := .record [(tag, v)]

/-- Indentation at a depth. -/
def margin (depth : Nat) : String := String.ofList (List.replicate (2 * depth) ' ')

mutual

/-- The text of a value at a depth. -/
def prettyAt (depth : Nat) : Value → String
  | .null => "null"
  | .bool b => if b then "true" else "false"
  | .natural n => toString n
  | .number raw => raw
  | .text s => Text.quote s
  | .list [] => "[]"
  | .list (v :: vs) =>
      "[\n" ++ margin (depth + 1) ++ prettyAt (depth + 1) v ++ prettyItems (depth + 1) vs
        ++ "\n" ++ margin depth ++ "]"
  | .record [] => "\x7b\x7d"
  | .record ((k, v) :: es) =>
      "\x7b\n" ++ margin (depth + 1) ++ Text.quote k ++ ": " ++ prettyAt (depth + 1) v
        ++ prettyEntries (depth + 1) es ++ "\n" ++ margin depth ++ "\x7d"

/-- Further items of a list. -/
def prettyItems (depth : Nat) : List Value → String
  | [] => ""
  | v :: vs => ",\n" ++ margin depth ++ prettyAt depth v ++ prettyItems depth vs

/-- Further entries of a record. -/
def prettyEntries (depth : Nat) : List (String × Value) → String
  | [] => ""
  | (k, v) :: es =>
      ",\n" ++ margin depth ++ Text.quote k ++ ": " ++ prettyAt depth v ++ prettyEntries depth es

end

/-- The text of a value, indented. -/
def pretty (v : Value) : String := prettyAt 0 v

end Value

end LogLabel.Document
