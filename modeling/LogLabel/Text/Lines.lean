set_option autoImplicit false

/-!
# Line index

The byte offsets at which the lines of a text start, and the line of an offset.
Lines are counted from one and end at line feeds only.

An offset is looked for in the index by halving. It is met where a line starts at
it, and missed everywhere else; `lineAt` makes a line of either answer.
-/

namespace LogLabel.Text

/-- Offsets just after each line feed of a text that begins at `offset`. -/
def startsAfterBreaks (offset : Nat) : List Char → List Nat
  | [] => []
  | c :: cs =>
      let next := offset + c.utf8Size
      if c = '\n' then next :: startsAfterBreaks next cs else startsAfterBreaks next cs

/-- Offsets at which the lines of a text start. -/
def lineStarts (text : String) : List Nat :=
  0 :: startsAfterBreaks 0 text.toList

/-- What the search for a number in a rising list comes to. -/
inductive Sought where
  /-- The number stands at the index. -/
  | met (index : Nat)
  /-- The number is not in the list; at the index it would have to be put in. -/
  | missed (index : Nat)
deriving DecidableEq

/-- Looks for a number among those from the index `low` on and before the index `high`, by the
number in the middle of them. Every step leaves fewer of them. -/
def seekBetween (numbers : List Nat) (number : Nat) : Nat → Nat → Nat → Sought
  | 0, low, _ => .missed low
  | fuel + 1, low, high =>
      if low < high then
        let middle := low + (high - low) / 2
        match numbers[middle]? with
        | none => .missed low
        | some found =>
            if found = number then .met middle
            else if found < number then seekBetween numbers number fuel (middle + 1) high
            else seekBetween numbers number fuel low middle
      else .missed low

/-- Looks for a number in a rising list. -/
def seek (numbers : List Nat) (number : Nat) : Sought :=
  seekBetween numbers number numbers.length 0 numbers.length

/-- Line of an offset. A line that starts at the offset is its line; otherwise the offset belongs to
the line before the place where it would have to be put into the index, and to the first line if
there is none. -/
def lineAt (starts : List Nat) (offset : Nat) : Nat :=
  match seek starts offset with
  | .met index => index + 1
  | .missed index => max index 1

end LogLabel.Text
