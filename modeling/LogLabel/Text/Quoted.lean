set_option autoImplicit false

/-!
# Quoted strings

`quote` writes a text as a string literal in double quotes. The quote and the
backslash are escaped, five control characters have a short escape, the other
ones below U+0020 are written with four hexadecimal digits, and everything else
stands for itself.

`decodeLiteral` reads a string literal in either kind of quotes. It gives nothing
for a literal that denotes no text: one with a malformed escape, or with half of a
surrogate pair.
-/

namespace LogLabel.Text

/-! ## Writing -/

/-- The hexadecimal digit of a number below sixteen. -/
def hexDigit (n : Nat) : Char :=
  if n < 10 then Char.ofNat (48 + n) else Char.ofNat (87 + n)

/-- How a character is written inside double quotes. -/
def quoteChar (c : Char) : List Char :=
  if c = '"' then ['\\', '"']
  else if c = '\\' then ['\\', '\\']
  else if c = '\x08' then ['\\', 'b']
  else if c = '\x0c' then ['\\', 'f']
  else if c = '\n' then ['\\', 'n']
  else if c = '\r' then ['\\', 'r']
  else if c = '\t' then ['\\', 't']
  else if c.toNat < 32 then
    ['\\', 'u', '0', '0', hexDigit (c.toNat / 16), hexDigit (c.toNat % 16)]
  else [c]

/-- A text as a string literal in double quotes. -/
def quote (value : String) : String :=
  String.ofList ('"' :: value.toList.flatMap quoteChar ++ ['"'])

/-! ## Reading -/

/-- The value of a hexadecimal digit. -/
def hexValue? (c : Char) : Option Nat :=
  if '0' ≤ c ∧ c ≤ '9' then some (c.toNat - 48)
  else if 'a' ≤ c ∧ c ≤ 'f' then some (c.toNat - 87)
  else if 'A' ≤ c ∧ c ≤ 'F' then some (c.toNat - 55)
  else none

/-- The value of a run of hexadecimal digits read after `value`. -/
def hexRun? (value : Nat) : List Char → Option Nat
  | [] => some value
  | c :: cs => (hexValue? c).bind fun d => hexRun? (16 * value + d) cs

/-- The value of a hexadecimal number: at least one digit, with an optional plus sign. -/
def hexNumber? : List Char → Option Nat
  | [] => none
  | [c] => hexRun? 0 [c]
  | c :: cs => if c = '+' then hexRun? 0 cs else hexRun? 0 (c :: cs)

/-- Number of bytes of a text. -/
def byteLength (cs : List Char) : Nat := cs.foldr (fun c n => c.utf8Size + n) 0

/-- The number written in exactly `count` bytes at the front, and what follows. -/
def fixedHex? (count : Nat) (cs : List Char) : Option (Nat × List Char) :=
  let digits := cs.take count
  if byteLength digits = count then (hexNumber? digits).map fun n => (n, cs.drop count) else none

/-- The number after `\u`: four digits, or one to six in braces. -/
def unit? : List Char → Option (Nat × List Char)
  | '\x7b' :: cs =>
      let digits := cs.takeWhile (· ≠ '\x7d')
      if digits = [] ∨ 6 < byteLength digits then none
      else (hexNumber? digits).map fun n => (n, (cs.dropWhile (· ≠ '\x7d')).drop 1)
  | cs => fixedHex? 4 cs

/-- The character of a code point; surrogates and numbers past the last plane have none. -/
def scalar? (n : Nat) : Option Char :=
  if h : n.isValidChar then some (Char.ofNatAux n h) else none

/-- The character denoted by a `\u` escape, and what follows it. A high surrogate takes the low one
of a second escape with it. -/
def unicodeEscape? (cs : List Char) : Option (Char × List Char) :=
  match unit? cs with
  | none => none
  | some (n, rest) =>
      if 0xD800 ≤ n ∧ n < 0xDC00 then
        match rest with
        | '\\' :: 'u' :: rest =>
            match unit? rest with
            | none => none
            | some (low, rest) =>
                if 0xDC00 ≤ low ∧ low < 0xE000 then
                  (scalar? (0x10000 + (n - 0xD800) * 0x400 + (low - 0xDC00))).map (·, rest)
                else none
        | _ => none
      else (scalar? n).map (·, rest)

/-- What a character after a backslash denotes on its own; a line feed denotes nothing. -/
def simpleEscape (c : Char) : List Char :=
  if c = 'n' then ['\n']
  else if c = 't' then ['\t']
  else if c = 'r' then ['\r']
  else if c = 'b' then ['\x08']
  else if c = 'f' then ['\x0c']
  else if c = 'v' then ['\x0b']
  else if c = '0' then ['\x00']
  else if c = '\n' then []
  else [c]

/-- The text denoted by the inside of a literal. Every step shortens the input, so its length
bounds their number. -/
def decodeChars : Nat → List Char → Option (List Char)
  | 0, _ => none
  | _ + 1, [] => some []
  | fuel + 1, '\\' :: 'x' :: cs =>
      match fixedHex? 2 cs with
      | none => none
      | some (n, rest) =>
          match scalar? n with
          | none => none
          | some c => (decodeChars fuel rest).map (c :: ·)
  | fuel + 1, '\\' :: 'u' :: cs =>
      match unicodeEscape? cs with
      | none => none
      | some (c, rest) => (decodeChars fuel rest).map (c :: ·)
  | fuel + 1, '\\' :: c :: cs => (decodeChars fuel cs).map (simpleEscape c ++ ·)
  | fuel + 1, c :: cs => if c = '\\' then none else (decodeChars fuel cs).map (c :: ·)

/-- The text denoted by a literal, its quotes included. -/
def decodeLiteral (raw : String) : Option String :=
  let inside := (raw.toList.drop 1).dropLast
  (decodeChars (inside.length + 1) inside).map String.ofList

end LogLabel.Text
