import LogLabel.Text.Quoted

set_option autoImplicit false

/-!
# Scalars

Plain scalars and scalars in quotes. A scalar may go on over several lines: one line end
inside it counts as a space, further ones stay, and blanks around a line end are dropped.
What stands between two words of a scalar is a `Gap` until the next word is met.

A `Cursor` is a place in a document with its line and column.
-/

namespace LogLabel.Document.Yaml

/-! ## Characters -/

/-- Blanks inside a line. -/
def isBlank (c : Char) : Bool := c == ' ' || c == '\t'

/-- Line ends. Carriage returns and next-line controls are read as line feeds before. -/
def isBreak (c : Char) : Bool := c == '\n' || c == '\u2028' || c == '\u2029'

/-- Whether a word ends where the text goes on like this. -/
def atGap : List Char → Bool
  | [] => true
  | c :: _ => isBlank c || isBreak c

/-- Brackets, braces and the comma, which have a meaning inside a flow collection. -/
def isFlowMark (c : Char) : Bool :=
  c == ',' || c == '[' || c == ']' || c == '\x7b' || c == '\x7d'

/-- A place in a document. -/
structure Cursor where
  rest : List Char
  line : Nat
  column : Nat

/-- The cursor `count` characters further on the line. -/
def Cursor.skip (c : Cursor) (count : Nat) : Cursor :=
  { c with rest := c.rest.drop count, column := c.column + count }

/-- Whether a line starts with the mark of a document. -/
def startsMark (mark : Char) (column : Nat) (cs : List Char) : Bool :=
  column == 0 && [mark, mark, mark].isPrefixOf cs && atGap (cs.drop 3)

/-- Whether a line starts with either mark of a document. -/
def startsAnyMark (column : Nat) (cs : List Char) : Bool :=
  startsMark '-' column cs || startsMark '.' column cs

/-! ## Gaps -/

/-- What stands between two words: nothing, blanks, or line ends, of which the first one is missing
when it was escaped. The last character comes first. -/
inductive Gap where
  | nothing
  | blanks (cs : List Char)
  | breaks (first : Option Char) (further : List Char)

namespace Gap

/-- The gap with one more blank; blanks at a line end are dropped. -/
def addBlank (c : Char) : Gap → Gap
  | .nothing => .blanks [c]
  | .blanks cs => .blanks (c :: cs)
  | .breaks first further => .breaks first further

/-- The gap with one more line end. -/
def addBreak (c : Char) : Gap → Gap
  | .breaks first further => .breaks first (c :: further)
  | _ => .breaks (some c) []

/-- The gap with one more blank or line end. -/
def add (c : Char) (g : Gap) : Gap := if isBreak c then g.addBreak c else g.addBlank c

/-- Whether there is a line end in the gap. -/
def isBreaks : Gap → Bool
  | .breaks _ _ => true
  | _ => false

/-- What a gap contributes to a scalar, the last character first. -/
def fold : Gap → List Char
  | .nothing => []
  | .blanks cs => cs
  | .breaks (some '\n') [] => [' ']
  | .breaks (some '\n') further => further
  | .breaks first further => further ++ first.toList

end Gap

/-! ## Plain scalars -/

/-- A scalar that was read: its text, the place after it, and whether a line end was passed before
that place. -/
structure ScalarEnd where
  text : String
  after : Cursor
  passedBreak : Bool

/-- Whether a plain scalar cannot go on here although a word does: a colon before a gap, or a mark
of a flow collection. -/
def endsPlain (inFlow : Bool) (c : Char) (cs : List Char) : Bool :=
  (c == ':' && atGap cs) || (inFlow && isFlowMark c)

/-- Whether a colon is met before a mark of a flow collection, where it is refused. -/
def isStrayColon (inFlow : Bool) (c : Char) (cs : List Char) : Bool :=
  inFlow && c == ':' && cs.head?.any fun next => next == '?' || isFlowMark next

/-- Whether a word after a gap does not belong to a plain scalar: it stands too far to the left, is
a mark of a document, or starts a comment. -/
def leavesPlain (inFlow : Bool) (indent column : Nat) (cs : List Char) : Bool :=
  (!inFlow && column < indent) || startsAnyMark column cs || cs.head? == some '#'

/-- Reads a plain scalar. Lines after the first one are indented by `indent` at least, and their
indentation has no tabs. The characters so far are in `read`, the last one first. -/
def plainFrom? (inFlow : Bool) (indent : Nat) (read : List Char) (gap : Gap) (line column : Nat) :
    List Char → Option ScalarEnd
  | [] => some ⟨String.ofList read.reverse, ⟨[], line, column⟩, gap.isBreaks⟩
  | c :: cs =>
      let done : ScalarEnd := ⟨String.ofList read.reverse, ⟨c :: cs, line, column⟩, gap.isBreaks⟩
      if isBreak c then plainFrom? inFlow indent read (gap.addBreak c) (line + 1) 0 cs
      else if isBlank c then
        if c = '\t' ∧ gap.isBreaks ∧ column < indent then none
        else plainFrom? inFlow indent read (gap.addBlank c) line (column + 1) cs
      else
        match gap with
        | .nothing =>
            if isStrayColon inFlow c cs then none
            else if endsPlain inFlow c cs then some done
            else plainFrom? inFlow indent (c :: read) .nothing line (column + 1) cs
        | gap =>
            if leavesPlain inFlow indent column (c :: cs) then some done
            else if isStrayColon inFlow c cs then none
            else if endsPlain inFlow c cs then some done
            else plainFrom? inFlow indent (c :: (gap.fold ++ read)) .nothing line (column + 1) cs

/-- Characters that cannot start a plain scalar. -/
def isReserved (c : Char) : Bool :=
  isBlank c || isBreak c || isFlowMark c || "-?:#&*!|>%@`\"".toList.contains c
    || c == Char.ofNat 39

/-- Whether a plain scalar starts here. A dash starts one before anything but a gap; outside flow
collections so do a question mark and a colon. -/
def startsPlain (inFlow : Bool) : List Char → Bool
  | [] => false
  | c :: cs =>
      !isReserved c || (c == '-' && !atGap cs)
        || (!inFlow && (c == '?' || c == ':') && !atGap cs)

/-! ## Quoted scalars -/

/-- Reads the inside of a scalar in single quotes, where a doubled quote stands for one. A document
mark inside is refused. -/
def singleFrom? (read : List Char) (gap : Gap) (line column : Nat) :
    List Char → Option ScalarEnd
  | [] => none
  | c :: cs =>
      if isBreak c then singleFrom? read (gap.addBreak c) (line + 1) 0 cs
      else if isBlank c then singleFrom? read (gap.addBlank c) line (column + 1) cs
      else
        let read := gap.fold ++ read
        if startsAnyMark column (c :: cs) then none
        else if c = Char.ofNat 39 then
          match cs with
          | next :: rest =>
              if next = Char.ofNat 39 then singleFrom? (c :: read) .nothing line (column + 2) rest
              else some ⟨String.ofList read.reverse, ⟨cs, line, column + 1⟩, false⟩
          | [] => some ⟨String.ofList read.reverse, ⟨cs, line, column + 1⟩, false⟩
        else singleFrom? (c :: read) .nothing line (column + 1) cs

/-- The character of a short escape. -/
def short? (c : Char) : Option Char :=
  match c with
  | '0' => some '\x00'
  | 'a' => some '\x07'
  | 'b' => some '\x08'
  | 't' => some '\t'
  | '\t' => some '\t'
  | 'n' => some '\n'
  | 'v' => some '\x0b'
  | 'f' => some '\x0c'
  | 'r' => some '\r'
  | 'e' => some '\x1b'
  | ' ' => some ' '
  | '"' => some '"'
  | '/' => some '/'
  | '\\' => some '\\'
  | 'N' => some '\u0085'
  | '_' => some '\u00A0'
  | 'L' => some '\u2028'
  | 'P' => some '\u2029'
  | _ => none

/-- Number of digits of a hexadecimal escape. -/
def hexCount? (c : Char) : Option Nat :=
  match c with
  | 'x' => some 2
  | 'u' => some 4
  | 'U' => some 8
  | _ => none

/-- What is being read inside double quotes: characters, the character after a backslash, or the
digits of an escape, of which `count` are missing. -/
inductive Inside where
  | text
  | escape
  | digits (count value : Nat)

/-- Reads the inside of a scalar in double quotes. A document mark inside is refused. -/
def doubleFrom? (mode : Inside) (read : List Char) (gap : Gap) (line column : Nat) :
    List Char → Option ScalarEnd
  | [] => none
  | c :: cs =>
      match mode with
      | .escape =>
          if isBreak c then doubleFrom? .text read (.breaks none []) (line + 1) 0 cs
          else
            match hexCount? c with
            | some count => doubleFrom? (.digits count 0) read .nothing line (column + 1) cs
            | none =>
                match short? c with
                | some x => doubleFrom? .text (x :: read) .nothing line (column + 1) cs
                | none => none
      | .digits count value =>
          match Text.hexValue? c with
          | none => none
          | some d =>
              let value := value * 16 + d
              if 1 < count then
                doubleFrom? (.digits (count - 1) value) read .nothing line (column + 1) cs
              else
                match Text.scalar? value with
                | some x => doubleFrom? .text (x :: read) .nothing line (column + 1) cs
                | none => none
      | .text =>
          if isBreak c then doubleFrom? .text read (gap.addBreak c) (line + 1) 0 cs
          else if isBlank c then doubleFrom? .text read (gap.addBlank c) line (column + 1) cs
          else
            let read := gap.fold ++ read
            if startsAnyMark column (c :: cs) then none
            else if c = '"' then
              some ⟨String.ofList read.reverse, ⟨cs, line, column + 1⟩, false⟩
            else if c = '\\' then doubleFrom? .escape read .nothing line (column + 1) cs
            else doubleFrom? .text (c :: read) .nothing line (column + 1) cs

end LogLabel.Document.Yaml
