import LogLabel.Text.Blank
import LogLabel.Text.Split

set_option autoImplicit false

/-!
# Line differences

What changed between two texts, line by line.

* `Diff.cells` is the table of lengths of common subsequences of lines, and `Diff.common`
  reads one common subsequence off it, from the end.
* `Diff.compare` arranges the lines of both texts around the common ones as runs of kept,
  removed and added lines.
* `Diff.render` writes the runs with a mark in front of every line.

Blank space at the end of the two texts does not count.
-/

namespace LogLabel.Diff

/-! ## Common lines -/

/-- The length of a longest common subsequence of the lines up to `i` of the old text and up to `j`
of the new one, from the cells before it. Rows belong to old lines, and `cells` holds the table row
by row. -/
def cell (old new : Array String) (cells : Array Nat) (i j : Nat) : Nat :=
  let above := if i = 0 then 0 else cells.getD ((i - 1) * new.size + j) 0
  let before := if j = 0 then 0 else cells.getD (i * new.size + j - 1) 0
  let corner := if i = 0 ∨ j = 0 then 0 else cells.getD ((i - 1) * new.size + j - 1) 0
  if old.getD i "" = new.getD j "" then corner + 1 else max before above

/-- The table of lengths, row by row. -/
def cells (old new : Array String) : Array Nat :=
  (List.range (old.size * new.size)).foldl
    (fun cells k => cells.push (cell old new cells (k / new.size) (k % new.size))) #[]

/-- The common lines among the first `i` old and the first `j` new ones, the last one first. Equal
lines are taken; otherwise the walk goes where the table has the larger entry, and to the old side
when they are equal. Left of the first column stands the end of the row above. -/
def commonBackward (old new : Array String) (cells : Array Nat) : Nat → Nat → List String
  | 0, _ => []
  | _ + 1, 0 => []
  | i + 1, j + 1 =>
      if old.getD i "" = new.getD j "" then old.getD i "" :: commonBackward old new cells i j
      else if i = 0 ∧ j = 0 then []
      else if i = 0 ∨
          cells.getD ((i - 1) * new.size + j) 0 < cells.getD (i * new.size + j - 1) 0 then
        commonBackward old new cells (i + 1) j
      else commonBackward old new cells i (j + 1)
termination_by i j => i + j

/-- The common lines of two texts. A single common empty line counts as none. -/
def common (old new : List String) : List String :=
  let old := old.toArray
  let new := new.toArray
  let lines := (commonBackward old new (cells old new) old.size new.size).reverse
  if lines = [""] then [] else lines

/-! ## Runs of lines -/

/-- What happened to a line. -/
inductive Fate where
  | kept
  | removed
  | added
deriving DecidableEq

/-- Lines next to each other with the same fate. -/
structure Run where
  fate : Fate
  lines : List String
deriving DecidableEq

/-- Puts lines with a fate in front of runs. -/
def addRun (fate : Fate) (lines : List String) (runs : List Run) : List Run :=
  match lines, runs with
  | [], runs => runs
  | lines, [] => [⟨fate, lines⟩]
  | lines, run :: rest =>
      if run.fate = fate then ⟨fate, lines ++ run.lines⟩ :: rest else ⟨fate, lines⟩ :: run :: rest

/-- The lines of both texts around the common ones: before each common line the old lines that are
gone, then the new ones. -/
def arrange : List String → List String → List String → List Run
  | [], old, new => addRun .removed old (addRun .added new [])
  | line :: lines, old, new =>
      let rest := arrange lines ((old.dropWhile (· ≠ line)).drop 1)
        ((new.dropWhile (· ≠ line)).drop 1)
      addRun .removed (old.takeWhile (· ≠ line))
        (addRun .added (new.takeWhile (· ≠ line)) (addRun .kept [line] rest))

/-- The lines of a text that is compared. An empty text has none. -/
def linesOf (text : String) : List String :=
  if text = "" then [] else Text.splitLines text

/-- The runs between two texts. -/
def compare (before after : String) : List Run :=
  let before := Text.trimEnd before
  let after := Text.trimEnd after
  arrange (common (Text.splitLines before) (Text.splitLines after)) (linesOf before)
    (linesOf after)

/-! ## Text of a difference -/

/-- The mark of a fate. -/
def Fate.mark : Fate → String
  | .kept => " "
  | .removed => "-"
  | .added => "+"

/-- A line without the carriage return at its end. -/
def dropReturn (line : String) : String :=
  match line.toList.reverse with
  | '\r' :: cs => String.ofList cs.reverse
  | _ => line

/-- The lines of a run as they are shown: a carriage return before a line feed goes, and so does an
empty line at the end. -/
def shownLines : List String → List String
  | [] => []
  | [line] => if line = "" then [] else [line]
  | line :: lines => dropReturn line :: shownLines lines

/-- The text of a run. -/
def Run.render (run : Run) : String :=
  String.join ((shownLines run.lines).map fun line => run.fate.mark ++ line ++ "\n")

/-- The difference of two texts as a text. -/
def render (before after : String) : String :=
  String.join ((compare before after).map Run.render)

end LogLabel.Diff
