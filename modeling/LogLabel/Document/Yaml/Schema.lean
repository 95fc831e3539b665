import LogLabel.Text.Quoted

set_option autoImplicit false

/-!
# Meaning of plain scalars

A plain scalar stands for nothing, a truth value, a number or a text. Numbers are whole
ones of at most 128 bits, written in base ten or with a mark for another base, and decimal
fractions that a double-precision number can hold; any other digits are a text.
-/

namespace LogLabel.Document.Yaml

/-- Whether a plain scalar stands for nothing. -/
def isNull (raw : String) : Bool := ["", "~", "null", "Null", "NULL"].contains raw

/-- The truth value a plain scalar stands for. -/
def bool? (raw : String) : Option Bool :=
  if ["true", "True", "TRUE"].contains raw then some true
  else if ["false", "False", "FALSE"].contains raw then some false
  else none

/-- The number written by digits of a base, after those that make up `value`. -/
def digitsFrom? (base value : Nat) : List Char → Option Nat
  | [] => some value
  | c :: cs =>
      match Text.hexValue? c with
      | some d => if d < base then digitsFrom? base (value * base + d) cs else none
      | none => none

/-- The number written by one or more digits of a base. -/
def digits? (base : Nat) (cs : List Char) : Option Nat :=
  if cs.isEmpty then none else digitsFrom? base 0 cs

/-- The number after the mark of a base. -/
def marked? : List Char → Option Nat
  | '0' :: 'x' :: cs => digits? 16 cs
  | '0' :: 'o' :: cs => digits? 8 cs
  | '0' :: 'b' :: cs => digits? 2 cs
  | _ => none

/-- A decimal number: its digits without the point, and the power of ten they are multiplied by. -/
structure Decimal where
  digits : Nat
  exponent : Int

/-- The power of ten after a letter `e`; none is written for zero. -/
def exponent? : List Char → Option Int
  | [] => some 0
  | c :: cs =>
      if c = 'e' ∨ c = 'E' then
        match cs with
        | '-' :: cs => (digits? 10 cs).map fun n => -(n : Int)
        | '+' :: cs => (digits? 10 cs).map fun n => (n : Int)
        | cs => (digits? 10 cs).map fun n => (n : Int)
      else none

/-- The digits after a point, and what follows them. -/
def fraction : List Char → List Char × List Char
  | '.' :: cs => (cs.takeWhile Char.isDigit, cs.dropWhile Char.isDigit)
  | cs => ([], cs)

/-- An unsigned decimal number, with digits before or after its point. -/
def decimal? (cs : List Char) : Option Decimal :=
  let whole := cs.takeWhile Char.isDigit
  let (part, rest) := fraction (cs.dropWhile Char.isDigit)
  match digits? 10 (whole ++ part), exponent? rest with
  | some digits, some exponent => some ⟨digits, exponent - part.length⟩
  | _, _ => none

/-- Half a step above the largest double-precision number; from here on numbers are rounded to
infinity. -/
def doubleLimit : Nat := Nat.pow 2 1024 - Nat.pow 2 970

/-- Whether a decimal number is within the range of double precision. Its number of digits decides
unless it is near the limit. -/
def Decimal.isFinite (d : Decimal) : Bool :=
  let size := (Nat.toDigits 10 d.digits).length + d.exponent
  if d.digits = 0 ∨ size < 300 then true
  else if 320 < size then false
  else
    match d.exponent with
    | .ofNat e => d.digits * Nat.pow 10 e < doubleLimit
    | .negSucc e => d.digits < doubleLimit * Nat.pow 10 (e + 1)

/-- Whether digits after a leading zero make a text of a number. -/
def hasLeadingZero (unsigned : List Char) : Bool :=
  1 < unsigned.length && unsigned.head? == some '0' && unsigned.all Char.isDigit

/-- Whether an unsigned number with the mark of a base has at most the given magnitude. -/
def isMarkedUpTo (limit : Nat) (unsigned : List Char) : Bool :=
  match marked? unsigned with
  | some n => n ≤ limit
  | none => false

/-- Whether an unsigned decimal number stands for a number. -/
def isDecimalNumber (unsigned : List Char) : Bool :=
  match decimal? unsigned with
  | some d => d.isFinite && !hasLeadingZero unsigned
  | none => false

/-- Whether a text is infinity without its sign. -/
def isInfinity (unsigned : List Char) : Bool :=
  [".inf", ".Inf", ".INF"].contains (String.ofList unsigned)

/-- Whether a plain scalar stands for a number. -/
def isNumber (raw : String) : Bool :=
  let isUnsigned (limit : Nat) (cs : List Char) : Bool :=
    isMarkedUpTo limit cs || isDecimalNumber cs || isInfinity cs
  match raw.toList with
  | '-' :: cs => isUnsigned (Nat.pow 2 127) cs
  | '+' :: cs => isUnsigned (Nat.pow 2 128 - 1) cs
  | cs => isUnsigned (Nat.pow 2 128 - 1) cs || [".nan", ".NaN", ".NAN"].contains raw

/-- Whether a plain scalar stands for a text. -/
def isText (raw : String) : Bool := !(isNull raw || (bool? raw).isSome || isNumber raw)

end LogLabel.Document.Yaml
