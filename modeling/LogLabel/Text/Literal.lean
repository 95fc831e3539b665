import LogLabel.Text.HiddenTable
import LogLabel.Text.Lowercase
import LogLabel.Text.Quoted

set_option autoImplicit false

/-!
# Texts shown to a developer

A text as it is shown in a description of a value: in double quotes, with short
escapes for the common controls and hexadecimal ones for every character that has no
form of its own.
-/

namespace LogLabel.Text

/-- Whether a character has no form of its own. -/
def isHidden (c : Char) : Bool :=
  if c.toNat < 127 then c.toNat < 32 else inRanges hiddenRanges c.toNat

/-- Hexadecimal digits of a number. -/
def hexDigits (n : Nat) : List Char := (Nat.toDigits 16 n)

/-- How a character is shown. -/
def showChar (c : Char) : List Char :=
  if c = '"' then ['\\', '"']
  else if c = '\\' then ['\\', '\\']
  else if c = '\x00' then ['\\', '0']
  else if c = '\t' then ['\\', 't']
  else if c = '\n' then ['\\', 'n']
  else if c = '\r' then ['\\', 'r']
  else if isHidden c then ['\\', 'u', '\x7b'] ++ hexDigits c.toNat ++ ['\x7d']
  else [c]

/-- A text as it is shown. -/
def showText (s : String) : String :=
  String.ofList ('"' :: s.toList.flatMap showChar ++ ['"'])

end LogLabel.Text
