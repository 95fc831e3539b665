import LogLabel.Text.Blank
import LogLabel.Text.Lowercase

set_option autoImplicit false

/-!
# Environment

The name of the environment a program is built for, and three lists that make
exceptions from stripping: parts of the enclosing scopes, parts of the file name, and
label names. The lists are given as texts with commas between the entries.
-/

namespace LogLabel

/-- What is left of a text behind a separator at its front: white space, a comma, and white space as
far as it goes. -/
@[irreducible] def afterSeparator? (cs : List Char) : Option (List Char) :=
  match cs.dropWhile Text.isBlank with
  | [] => none
  | c :: rest => if c = ',' then some (rest.dropWhile Text.isBlank) else none

theorem length_lt_of_afterSeparator? {cs rest : List Char} (h : afterSeparator? cs = some rest) :
    rest.length < cs.length := by
  have hfront := (List.dropWhile_sublist Text.isBlank (l := cs)).length_le
  unfold afterSeparator? at h
  split at h
  · cases h
  · next c tail hcs =>
      split at h <;> cases h
      have hback := (List.dropWhile_sublist Text.isBlank (l := tail)).length_le
      rw [hcs, List.length_cons] at hfront
      omega

/-- Splits a text at its separators, each of which is taken at the first place where one matches. The
characters of the entry read so far are in `current`, the last one first. -/
def splitEntries (current : List Char) : List Char → List (List Char)
  | [] => [current.reverse]
  | c :: cs =>
      match _h : afterSeparator? (c :: cs) with
      | some rest => current.reverse :: splitEntries [] rest
      | none => splitEntries (c :: current) cs
termination_by cs => cs.length
decreasing_by
  · exact length_lt_of_afterSeparator? ‹_›
  · exact Nat.lt_succ_self _

/-- The entries of a list given as a text: trimmed, in lower case, without empty ones. Order and
repetitions are kept. -/
def normalizeList : Option String → List String
  | none => []
  | some value =>
      (splitEntries [] value.toList).map (fun cs => Text.lower (Text.trim (String.ofList cs)))
        |>.filter (· ≠ "")

/-- Whether a text occurs in another one. -/
def occursIn (part : List Char) : List Char → Bool
  | [] => part.isEmpty
  | c :: cs => part.isPrefixOf (c :: cs) || occursIn part cs

/-- Exceptions from stripping. -/
structure Overrides where
  context : List String
  file : List String
  level : List String
deriving DecidableEq

namespace Overrides

/-- The exceptions given by three texts. -/
def ofTexts (context file level : Option String) : Overrides :=
  ⟨normalizeList context, normalizeList file, normalizeList level⟩

/-- Whether there is no exception. -/
def isEmpty (o : Overrides) : Bool := o.context.isEmpty && o.file.isEmpty && o.level.isEmpty

/-- Whether an exception holds for a log statement: an entry occurs in its scopes or in its file
name, or is its label. Case does not matter. -/
def grants (o : Overrides) (context filename level : String) : Bool :=
  o.context.any (fun entry => occursIn entry.toList (Text.lower context).toList)
    || o.file.any (fun entry => occursIn entry.toList (Text.lower filename).toList)
    || o.level.any (· = Text.lower level)

end Overrides

/-- The environment a program is built for. -/
structure Environment where
  name : Option String
  overrides : Overrides
deriving DecidableEq

/-- The environment described by variables: the name in one of them, the exceptions in three. -/
def Environment.ofVariables (read : String → Option String) : Environment where
  name := read "NODE_ENV"
  overrides := Overrides.ofTexts (read "TRACE_CONTEXT") (read "TRACE_FILE") (read "TRACE_LEVEL")

/-- The same exceptions under another name. -/
def Environment.withName (e : Environment) (name : Option String) : Environment :=
  { e with name := name }

end LogLabel
