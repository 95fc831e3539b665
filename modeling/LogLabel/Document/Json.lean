import LogLabel.Document.Value

set_option autoImplicit false

/-!
# JSON documents

A strict reader: one value, with blanks around it and nothing else. Control characters
have to be escaped inside strings, and half of a surrogate pair is refused.
-/

namespace LogLabel.Document.Json

/-- Blanks between the tokens. -/
def isBlank (c : Char) : Bool := c == ' ' || c == '\t' || c == '\n' || c == '\r'

/-- The text after its blanks. -/
def skip (cs : List Char) : List Char := cs.dropWhile isBlank

/-- The number of four hexadecimal digits, and what follows. -/
def fourDigits? : List Char → Option (Nat × List Char)
  | a :: b :: c :: d :: rest => do
      let a ← Text.hexValue? a
      let b ← Text.hexValue? b
      let c ← Text.hexValue? c
      let d ← Text.hexValue? d
      return (4096 * a + 256 * b + 16 * c + d, rest)
  | _ => none

/-- The character of the escape after `\u`, and what follows. -/
def unicode? (cs : List Char) : Option (Char × List Char) :=
  match fourDigits? cs with
  | none => none
  | some (n, rest) =>
      if 0xD800 ≤ n ∧ n < 0xDC00 then
        match rest with
        | '\\' :: 'u' :: rest =>
            match fourDigits? rest with
            | none => none
            | some (low, rest) =>
                if 0xDC00 ≤ low ∧ low < 0xE000 then
                  (Text.scalar? (0x10000 + (n - 0xD800) * 0x400 + (low - 0xDC00))).map (·, rest)
                else none
        | _ => none
      else (Text.scalar? n).map (·, rest)

/-- The character of a short escape. -/
def short? (c : Char) : Option Char :=
  match c with
  | '"' => some '"'
  | '\\' => some '\\'
  | '/' => some '/'
  | 'b' => some '\x08'
  | 'f' => some '\x0c'
  | 'n' => some '\n'
  | 'r' => some '\r'
  | 't' => some '\t'
  | _ => none

/-- The inside of a string up to its closing quote, and what follows. -/
def string? : Nat → List Char → Option (List Char × List Char)
  | 0, _ => none
  | _ + 1, [] => none
  | _ + 1, '"' :: rest => some ([], rest)
  | fuel + 1, '\\' :: 'u' :: cs => do
      let (c, rest) ← unicode? cs
      let (s, rest) ← string? fuel rest
      return (c :: s, rest)
  | fuel + 1, '\\' :: e :: cs => do
      let c ← short? e
      let (s, rest) ← string? fuel cs
      return (c :: s, rest)
  | fuel + 1, c :: cs =>
      if c.toNat < 32 ∨ c = '\\' then none
      else do
        let (s, rest) ← string? fuel cs
        return (c :: s, rest)

/-- Whether a text is a number: no needless zeros in front, digits around a point, and digits in
an exponent. -/
def isNumeral (cs : List Char) : Bool :=
  let cs := if cs.head? = some '-' then cs.drop 1 else cs
  let whole := cs.takeWhile Char.isDigit
  let rest := cs.dropWhile Char.isDigit
  let (fraction, rest) :=
    match rest with
    | '.' :: rest => (some (rest.takeWhile Char.isDigit), rest.dropWhile Char.isDigit)
    | rest => (none, rest)
  let exponent :=
    match rest with
    | c :: rest =>
        if c = 'e' ∨ c = 'E' then
          match rest with
          | s :: ds => if s = '+' ∨ s = '-' then ds else s :: ds
          | [] => []
        else [c]
    | [] => ['0']
  whole ≠ [] && (whole.length == 1 || whole.head? != some '0') && fraction != some []
    && exponent ≠ [] && exponent.all Char.isDigit

/-- The characters of which a number is made. -/
def isNumberChar (c : Char) : Bool :=
  c.isDigit || c == '+' || c == '-' || c == '.' || c == 'e' || c == 'E'

/-- The value of a run of digits. -/
def decimal (cs : List Char) : Nat :=
  cs.foldl (fun n c => 10 * n + (c.toNat - 48)) 0

/-- A number, and what follows. -/
def number? (cs : List Char) : Option (Value × List Char) :=
  let numeral := cs.takeWhile isNumberChar
  let rest := cs.dropWhile isNumberChar
  if isNumeral numeral then
    if numeral.all Char.isDigit then some (.natural (decimal numeral), rest)
    else some (.number (String.ofList numeral), rest)
  else none

/-- What follows a given word. -/
def word? (word : String) (cs : List Char) : Option (List Char) :=
  if word.toList.isPrefixOf cs then some (cs.drop word.length) else none

mutual

/-- A value, and what follows. -/
def value? : Nat → List Char → Option (Value × List Char)
  | 0, _ => none
  | fuel + 1, cs =>
      match skip cs with
      | '"' :: rest =>
          (string? (rest.length + 1) rest).map fun (s, rest) => (.text (String.ofList s), rest)
      | '[' :: rest =>
          match skip rest with
          | ']' :: rest => some (.list [], rest)
          | rest => (items? fuel rest).map fun (vs, rest) => (.list vs, rest)
      | '\x7b' :: rest =>
          match skip rest with
          | '\x7d' :: rest => some (.record [], rest)
          | rest => (entries? fuel rest).map fun (es, rest) => (.record es, rest)
      | 'n' :: rest => (word? "ull" rest).map (Value.null, ·)
      | 't' :: rest => (word? "rue" rest).map (Value.bool true, ·)
      | 'f' :: rest => (word? "alse" rest).map (Value.bool false, ·)
      | cs => number? cs

/-- The items of a list up to its closing bracket, and what follows. -/
def items? : Nat → List Char → Option (List Value × List Char)
  | 0, _ => none
  | fuel + 1, cs =>
      match value? fuel cs with
      | none => none
      | some (v, rest) =>
          match skip rest with
          | ',' :: rest => (items? fuel rest).map fun (vs, rest) => (v :: vs, rest)
          | ']' :: rest => some ([v], rest)
          | _ => none

/-- The entries of a record up to its closing brace, and what follows. -/
def entries? : Nat → List Char → Option (List (String × Value) × List Char)
  | 0, _ => none
  | fuel + 1, cs =>
      match skip cs with
      | '"' :: rest =>
          match string? (rest.length + 1) rest with
          | none => none
          | some (key, rest) =>
              match skip rest with
              | ':' :: rest =>
                  match value? fuel rest with
                  | none => none
                  | some (v, rest) =>
                      let entry := (String.ofList key, v)
                      match skip rest with
                      | ',' :: rest => (entries? fuel rest).map fun (es, rest) => (entry :: es, rest)
                      | '\x7d' :: rest => some ([entry], rest)
                      | _ => none
              | _ => none
      | _ => none

end

/-- Reads a document. Every part consumes a character, so the length bounds the depth. -/
def read? (text : String) : Option Value :=
  let cs := text.toList
  match value? (2 * cs.length + 2) cs with
  | some (v, rest) => if skip rest = [] then some v else none
  | none => none

end LogLabel.Document.Json
