set_option autoImplicit false

/-!
# Splitting at a character

`Text.split` cuts a text at every occurrence of a separator. Nothing else is dropped, so
a text has one piece more than it has separators.
-/

namespace LogLabel.Text

/-- The pieces of a text between separators. -/
def split (separator : Char) : List Char → List (List Char)
  | [] => [[]]
  | c :: cs =>
      if c = separator then [] :: split separator cs
      else
        match split separator cs with
        | [] => [[c]]
        | piece :: pieces => (c :: piece) :: pieces

/-- The lines of a text, cut at line feeds. -/
def splitLines (s : String) : List String := (split '\n' s.toList).map String.ofList

end LogLabel.Text
