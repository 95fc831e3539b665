import LogLabel.Program.Span

set_option autoImplicit false

/-!
# Diagnostics

Every failure is a `Diagnostic`: a cause, and the place in the text when there is
one. The wording of all causes is in `Cause.message` and `Cause.help`; a cause
falls into one of five categories, which give the code under which it is
reported.
-/

namespace LogLabel

open Program (Span)

/-- Why a file could not be used. -/
inductive FileFault where
  | notFound
  | notDirectory
  | isDirectory
  | alreadyExists
  | denied
  | notText
deriving DecidableEq

/-- The operating system's text for a fault. -/
def FileFault.message : FileFault → String
  | .notFound => "No such file or directory (os error 2)"
  | .notDirectory => "Not a directory (os error 20)"
  | .isDirectory => "Is a directory (os error 21)"
  | .alreadyExists => "File exists (os error 17)"
  | .denied => "Permission denied (os error 13)"
  | .notText => "stream did not contain valid UTF-8"

/-- The five families of failures. -/
inductive Category where
  | parse
  | config
  | purity
  | resolution
  | internal
deriving DecidableEq

/-- The name of a category. -/
def Category.name : Category → String
  | .parse => "parse"
  | .config => "config"
  | .purity => "purity"
  | .resolution => "resolution"
  | .internal => "internal"

/-- The code under which failures of a category are reported. -/
def Category.code (c : Category) : String := "metalog::" ++ c.name

/-- What is written before the message of a failure. -/
def Category.title : Category → String
  | .parse => "Parse error: "
  | .config => "Configuration error: "
  | .purity => ""
  | .resolution => "Resolution error: "
  | .internal => "Internal error: "

/-- What went wrong. -/
inductive Cause where
  /-- The text is not a program. -/
  | malformedProgram
  /-- A template slot stands in a source file. -/
  | strayPlaceholder
  /-- An options file cannot be read. -/
  | unreadableOptions (path : String) (fault : FileFault)
  /-- An options file has no known extension. -/
  | unsupportedOptions (path : String)
  /-- The text of the options is not valid. -/
  | invalidOptions
  /-- A template has no statement. -/
  | emptyTemplate (label : String)
  /-- A template has several statements. -/
  | crowdedTemplate (label : String) (count : Nat)
  /-- A template has a slot of another name than the three known ones. -/
  | unknownPlaceholder (name : String)
  /-- A label is given neither a template nor a built-in meaning. -/
  | missingTemplate (label : String)
  /-- A logging label holds a construct with a side effect. -/
  | sideEffect (construct label filename : String) (line : Nat)
  /-- A source file cannot be read. -/
  | unreadableSource (path : String) (fault : FileFault)
  /-- A path names nothing. -/
  | missingPath (path : String)
  /-- Two inputs have the same output file. -/
  | clashingTargets (first second target : String)
  /-- A directory cannot be created. -/
  | uncreatableDirectory (path : String) (fault : FileFault)
  /-- An output file cannot be written. -/
  | unwritableFile (path : String) (fault : FileFault)
  /-- A node to be replaced has no parent. -/
  | orphanNode (node : Nat)
  /-- A node to be replaced is not among the parts of its parent. -/
  | strangerNode (node parent : Nat)
  /-- A match of the grammar has a shape no program has. -/
  | incompleteMatch
  /-- The expansion of labels did not come to an end. -/
  | unsettledExpansion
  /-- A native synthesizer gave up. -/
  | nativeFailure (message : String)
deriving DecidableEq

namespace Cause

/-- The category of a cause. -/
def category : Cause → Category
  | malformedProgram => .parse
  | strayPlaceholder => .parse
  | unreadableOptions _ _ => .config
  | unsupportedOptions _ => .config
  | invalidOptions => .config
  | emptyTemplate _ => .config
  | crowdedTemplate _ _ => .config
  | unknownPlaceholder _ => .config
  | missingTemplate _ => .config
  | sideEffect _ _ _ _ => .purity
  | unreadableSource _ _ => .resolution
  | missingPath _ => .resolution
  | clashingTargets _ _ _ => .resolution
  | uncreatableDirectory _ _ => .resolution
  | unwritableFile _ _ => .resolution
  | orphanNode _ => .internal
  | strangerNode _ _ => .internal
  | incompleteMatch => .internal
  | unsettledExpansion => .internal
  | nativeFailure _ => .internal

/-- The message of a cause. A text that is no program is described by its place alone. -/
def message : Cause → Option String
  | malformedProgram => none
  | strayPlaceholder => some "template placeholders are only allowed in alias templates"
  | unreadableOptions path fault =>
      some ("cannot read options file '" ++ path ++ "': " ++ fault.message)
  | unsupportedOptions path =>
      some ("unsupported options file '" ++ path ++ "': expected .json, .yaml or .yml")
  | invalidOptions => some "invalid options"
  | emptyTemplate label => some ("template for alias '" ++ label ++ "' is empty")
  | crowdedTemplate label count =>
      some ("template for alias '" ++ label ++ "' must be a single statement, found "
        ++ toString count)
  | unknownPlaceholder name => some ("unknown template placeholder '%%" ++ name ++ "%%'")
  | missingTemplate label =>
      some ("alias '" ++ label ++ "' has no template and is not a built-in alias")
  | sideEffect _ _ _ _ => some "logging statements cannot have side effects"
  | unreadableSource path fault => some ("cannot read '" ++ path ++ "': " ++ fault.message)
  | missingPath path => some ("no such file or directory: '" ++ path ++ "'")
  | clashingTargets first second target =>
      some ("'" ++ first ++ "' and '" ++ second ++ "' would both be written to '" ++ target ++ "'")
  | uncreatableDirectory path fault =>
      some ("cannot create '" ++ path ++ "': " ++ fault.message)
  | unwritableFile path fault => some ("cannot write '" ++ path ++ "': " ++ fault.message)
  | orphanNode node => some ("node " ++ toString node ++ " has no parent")
  | strangerNode node parent =>
      some ("node " ++ toString node ++ " is not a child of node " ++ toString parent)
  | incompleteMatch => some "the grammar produced an incomplete match"
  | unsettledExpansion => some "the expansion of labels did not come to an end"
  | nativeFailure message => some message

/-- Advice that goes with a cause. -/
def help : Cause → Option String
  | unknownPlaceholder _ =>
      some "available placeholders are %%logFunction%%, %%content%% and %%metadata%%"
  | sideEffect construct label filename line =>
      some (construct ++ " inside `" ++ label ++ ":` at " ++ filename ++ ":" ++ toString line)
  | _ => none

/-- Whether the cause passes on a failure reported by a file or by a reader of options. -/
def isPassedOn : Cause → Bool
  | unreadableOptions _ _ => true
  | invalidOptions => true
  | unreadableSource _ _ => true
  | uncreatableDirectory _ _ => true
  | unwritableFile _ _ => true
  | _ => false

end Cause

/-- A failure and its place in the text. -/
structure Diagnostic where
  cause : Cause
  span : Option Span := none
deriving DecidableEq

namespace Diagnostic

/-- The category of a failure. -/
def category (d : Diagnostic) : Category := d.cause.category

/-- The full text of a failure. Failures described by their place alone, and those that quote
another reader, have none. -/
def display (d : Diagnostic) : Option String :=
  match d.cause with
  | .invalidOptions => none
  | cause => cause.message.map (d.category.title ++ ·)

/-- The part of the text that is marked: an offset and a length of at least one. -/
def mark (d : Diagnostic) : Option (Nat × Nat) :=
  d.span.map fun s => (s.start, s.marked)

end Diagnostic

end LogLabel
