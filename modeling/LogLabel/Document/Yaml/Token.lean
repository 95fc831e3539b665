import LogLabel.Document.Yaml.Scalar

set_option autoImplicit false

/-!
# Tokens

The words and marks of a document, in order. Indentation is made visible: a block mapping
has a token before its first key and one after its last value.

A word is known to be a key only when its colon is met. Until then it is remembered as a
`Candidate`, and its tokens are put in front of it afterwards. A candidate is given up when
the line ends or after 1024 characters; where the indentation demands a key, giving up is a
failure.

Sequences, anchors, tags, directives and block scalars are not part of these documents.
-/

namespace LogLabel.Document.Yaml

/-- A token. -/
inductive Token where
  | documentStart
  | documentEnd
  | blockStart
  | blockEnd
  | flowStart
  | flowEnd
  | comma
  | key
  | value
  | scalar (text : String) (isPlain : Bool)
deriving DecidableEq

/-- A word that may turn out to be a key: the number of tokens before it, its place, and whether a
key is demanded there. -/
structure Candidate where
  position : Nat
  line : Nat
  column : Nat
  required : Bool

/-- State of the reading of tokens. -/
structure Scanner where
  cursor : Cursor
  /-- The tokens so far, the last one first. -/
  tokens : List Token := []
  /-- The columns of the block mappings around the cursor, the innermost first. -/
  indents : List Nat := []
  /-- The candidate of the innermost collection. -/
  candidate : Option Candidate := none
  /-- The candidates outside the flow collections around the cursor. -/
  outer : List (Option Candidate) := []
  /-- Whether a key may start here. -/
  keyAllowed : Bool := true

namespace Scanner

/-- Whether the cursor is inside a flow collection. -/
def inFlow (s : Scanner) : Bool := !s.outer.isEmpty

/-- The least indentation of what belongs to the innermost block mapping. -/
def indent (s : Scanner) : Nat :=
  match s.indents with
  | [] => 0
  | column :: _ => column + 1

/-- Adds a token. -/
def emit (s : Scanner) (t : Token) : Scanner := { s with tokens := t :: s.tokens }

/-- Puts a token where `position` tokens stand before it. -/
def insert (s : Scanner) (position : Nat) (t : Token) : Scanner :=
  let count := s.tokens.length - position
  { s with tokens := s.tokens.take count ++ t :: s.tokens.drop count }

/-- Moves the cursor on the line. -/
def skip (s : Scanner) (count : Nat) : Scanner := { s with cursor := s.cursor.skip count }

/-! ## Indentation -/

/-- The block mappings that stay open in a column, and one closing token for each other one. -/
def closeTo (column : Option Nat) : List Nat → List Token → List Nat × List Token
  | [], tokens => ([], tokens)
  | indent :: indents, tokens =>
      if column.any (indent ≤ ·) then (indent :: indents, tokens)
      else closeTo column indents (.blockEnd :: tokens)

/-- Closes the block mappings that do not reach to a column, or all of them. -/
def unroll (s : Scanner) (column : Option Nat) : Scanner :=
  if s.inFlow then s
  else
    let (indents, tokens) := closeTo column s.indents s.tokens
    { s with indents := indents, tokens := tokens }

/-- Opens a block mapping in a column that is deeper than those around it. -/
def roll (s : Scanner) (column position : Nat) : Scanner :=
  if s.inFlow || column < s.indent then s
  else { s.insert position .blockStart with indents := column :: s.indents }

/-! ## Candidates -/

/-- Gives up the candidate, unless a key is demanded. -/
def dropCandidate? (s : Scanner) : Option Scanner :=
  if s.candidate.any Candidate.required then none else some { s with candidate := none }

/-- Remembers a candidate at the cursor, where a key may start. -/
def noteCandidate? (s : Scanner) : Option Scanner :=
  if s.keyAllowed then
    let required := !s.inFlow && s.indents.head? == some s.cursor.column
    s.dropCandidate?.map fun s =>
      { s with
        candidate :=
          some ⟨s.tokens.length, s.cursor.line, s.cursor.column, required⟩ }
  else some s

/-- Whether a candidate is too far back to be a key at the cursor. -/
def isStale (s : Scanner) (k : Candidate) : Bool :=
  k.line < s.cursor.line || k.column + 1024 < s.cursor.column

/-- A candidate that is kept, or given up when it is too far back. -/
def refresh? (s : Scanner) (k : Option Candidate) : Option (Option Candidate) :=
  match k with
  | none => some none
  | some k =>
      if s.isStale k then (if k.required then none else some none) else some (some k)

/-- Gives up all candidates that are too far back. -/
def refreshAll? (s : Scanner) : Option Scanner :=
  match s.refresh? s.candidate, s.outer.mapM s.refresh? with
  | some candidate, some outer => some { s with candidate := candidate, outer := outer }
  | _, _ => none

/-! ## Tokens at the cursor -/

/-- Skips blanks, line ends and comments. After a line end outside flow collections a key may start;
where a key may start, tabs are not skipped there. -/
def skipGap (inFlow keyAllowed inComment : Bool) (line column : Nat) :
    List Char → Cursor × Bool
  | [] => (⟨[], line, column⟩, keyAllowed)
  | c :: cs =>
      if isBreak c then skipGap inFlow (keyAllowed || !inFlow) false (line + 1) 0 cs
      else if inComment || c == ' ' || (c == '\t' && (inFlow || !keyAllowed)) then
        skipGap inFlow keyAllowed inComment line (column + 1) cs
      else if c == '#' then skipGap inFlow keyAllowed true line (column + 1) cs
      else (⟨c :: cs, line, column⟩, keyAllowed)

/-- Moves the cursor to the next token. -/
def toToken (s : Scanner) : Scanner :=
  let c := s.cursor
  let (cursor, keyAllowed) := skipGap s.inFlow s.keyAllowed false c.line c.column c.rest
  { s with cursor := cursor, keyAllowed := keyAllowed }

/-- Reads the mark of a document. -/
def mark? (s : Scanner) (t : Token) : Option Scanner :=
  (s.unroll none).dropCandidate?.map fun s => { (s.emit t).skip 3 with keyAllowed := false }

/-- Enters a flow mapping, which may itself be a key. -/
def openFlow? (s : Scanner) : Option Scanner :=
  s.noteCandidate?.map fun s =>
    { (s.emit .flowStart).skip 1 with
      candidate := none, outer := s.candidate :: s.outer, keyAllowed := true }

/-- Leaves a flow mapping. -/
def closeFlow? (s : Scanner) : Option Scanner :=
  s.dropCandidate?.map fun s =>
    { (s.emit .flowEnd).skip 1 with
      candidate := s.outer.head?.join, outer := s.outer.tail, keyAllowed := false }

/-- Reads the comma between entries. -/
def comma? (s : Scanner) : Option Scanner :=
  s.dropCandidate?.map fun s => { (s.emit .comma).skip 1 with keyAllowed := true }

/-- Reads the mark of a key. -/
def key? (s : Scanner) : Option Scanner :=
  if s.inFlow || s.keyAllowed then
    (s.roll s.cursor.column s.tokens.length).dropCandidate?.map fun s =>
      { (s.emit .key).skip 1 with keyAllowed := !s.inFlow }
  else none

/-- Reads the colon of a value. If there is a candidate, it is a key. -/
def value? (s : Scanner) : Option Scanner :=
  match s.candidate with
  | some k =>
      let s := (s.insert k.position .key).roll k.column k.position
      some { (s.emit .value).skip 1 with candidate := none, keyAllowed := false }
  | none =>
      if s.inFlow || s.keyAllowed then
        let s := s.roll s.cursor.column s.tokens.length
        some { (s.emit .value).skip 1 with keyAllowed := !s.inFlow }
      else none

/-- Takes a scalar that was read at the cursor. -/
def scalar? (s : Scanner) (isPlain : Bool) (read : Option ScalarEnd) : Option Scanner :=
  match s.noteCandidate?, read with
  | some s, some e =>
      some { s.emit (.scalar e.text isPlain) with cursor := e.after, keyAllowed := e.passedBreak }
  | _, _ => none

/-- Reads the token at the cursor. -/
def token? (s : Scanner) : Option Scanner :=
  let ⟨cs, line, column⟩ := s.cursor
  if startsMark '-' column cs then s.mark? .documentStart
  else if startsMark '.' column cs then s.mark? .documentEnd
  else
    match cs with
    | '\x7b' :: _ => s.openFlow?
    | '\x7d' :: _ => s.closeFlow?
    | ',' :: _ => s.comma?
    | '"' :: cs => s.scalar? false (doubleFrom? .text [] .nothing line (column + 1) cs)
    | c :: rest =>
        if c = '?' ∧ (s.inFlow ∨ atGap rest) then s.key?
        else if c = ':' ∧ (s.inFlow ∨ atGap rest) then s.value?
        else if c = Char.ofNat 39 then
          s.scalar? false (singleFrom? [] .nothing line (column + 1) rest)
        else if startsPlain s.inFlow cs then
          s.scalar? true (plainFrom? s.inFlow s.indent [] .nothing line column cs)
        else none
    | [] => none

/-- Reads tokens to the end of the text. Each one takes at least one character. -/
def run? : Nat → Scanner → Option (List Token)
  | 0, _ => none
  | fuel + 1, s =>
      match s.toToken.refreshAll? with
      | none => none
      | some s =>
          if s.cursor.rest.isEmpty then
            (s.unroll none).dropCandidate?.map fun s => s.tokens.reverse
          else
            match (s.unroll (some s.cursor.column)).token? with
            | none => none
            | some s => run? fuel s

end Scanner

/-! ## Texts -/

/-- Whether a character may occur in a document. -/
def isAllowed (c : Char) : Bool :=
  let n := c.toNat
  n == 9 || n == 10 || n == 13 || (32 ≤ n && n ≤ 126) || n == 0x85 || (0xA0 ≤ n && n ≤ 0xFFFD)
    || 0x10000 ≤ n

/-- A text with carriage returns and next-line controls read as line feeds. -/
def unifyBreaks : List Char → List Char
  | [] => []
  | '\r' :: '\n' :: cs => '\n' :: unifyBreaks cs
  | c :: cs => (if c = '\r' ∨ c = '\u0085' then '\n' else c) :: unifyBreaks cs

/-- The start of a text. A byte-order mark takes a column. -/
def Cursor.start (cs : List Char) : Cursor :=
  match cs with
  | '\uFEFF' :: cs => ⟨cs, 0, 1⟩
  | cs => ⟨cs, 0, 0⟩

/-- The tokens of a text. -/
def tokens? (text : String) : Option (List Token) :=
  let cs := text.toList
  if cs.all isAllowed then
    Scanner.run? (cs.length + 1) { cursor := Cursor.start (unifyBreaks cs) }
  else none

end LogLabel.Document.Yaml
