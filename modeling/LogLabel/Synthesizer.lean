import LogLabel.Metadata
import LogLabel.NameMap
import LogLabel.Template
import LogLabel.Text.Literal

set_option autoImplicit false

/-!
# Synthesizers of log statements

A synthesizer turns the logged expressions of a label into a node: a built-in one
into a call of the log function with a fixed record, a template into a copy of the
template, and a native one into whatever its function makes.

`LabelTable` maps label names to synthesizers. The built-in table has five levels,
each under its own name and with the endings `Values` and `Refs`.
-/

namespace LogLabel

open Program (NodeId Span Tree)

/-- The built-in levels. -/
inductive Level where
  | error
  | warn
  | info
  | debug
  | trace
deriving DecidableEq

namespace Level

/-- All levels, the most severe first. -/
def all : List Level := [.error, .warn, .info, .debug, .trace]

/-- The name of a level. -/
def name : Level → String
  | .error => "error"
  | .warn => "warn"
  | .info => "info"
  | .debug => "debug"
  | .trace => "trace"

/-- The name of a level in a description. -/
def title : Level → String
  | .error => "Error"
  | .warn => "Warn"
  | .info => "Info"
  | .debug => "Debug"
  | .trace => "Trace"

/-- The level with a name. -/
def ofName? (name : String) : Option Level := all.find? (·.name = name)

end Level

/-- What a synthesizer is given for one logged statement: the expressions, of which a sequence
contributes each of its items, the place, and the span of the statement. -/
structure LogSite where
  logFunction : String
  content : List NodeId
  metadata : Metadata
  span : Span

/-- A native synthesizer: stores a detached node, or gives up. -/
abbrev Native := Tree → LogSite → Except Diagnostic (NodeId × Tree)

/-- How the statements under a label become log statements. -/
inductive Synthesizer where
  /-- A call with a fixed record; `values` is off for the labels that end in `Refs`. -/
  | builtin (level : Level) (values : Bool)
  | template (form : Template)
  | native (make : Native)

/-- Stores the record that templates get as metadata. -/
def Metadata.addRecord (m : Metadata) (t : Tree) (span : Span) : NodeId × Tree :=
  let (indent, t) := t.addNumber m.indent span
  let (parentPath, t) := t.addStrings m.parentPath span
  let (filename, t) := t.addString m.filename span
  let (filepath, t) := t.addString m.filepath span
  let (hasStart, t) := t.addBool m.hasStartMessage span
  let (isStart, t) := t.addBool m.isStartMessage span
  let (line, t) := t.addNumber m.line span
  t.addObject
    [("indent", indent), ("parentPath", parentPath), ("filename", filename),
      ("filepath", filepath), ("hasStartMessage", hasStart), ("isStartMessage", isStart),
      ("line", line)]
    span

namespace Synthesizer

/-- Stores the call of a built-in label. -/
def addBuiltinCall (level : Level) (values : Bool) (t : Tree) (site : LogSite) : NodeId × Tree :=
  let span := site.span
  let (values, t) := t.addBool values span
  let (level, t) := t.addString level.name span
  let (filename, t) := t.addString site.metadata.filename span
  let (filepath, t) := t.addString site.metadata.filepath span
  let (content, t) := t.addArray site.content span
  let (line, t) := t.addNumber site.metadata.line span
  let (parentPath, t) := t.addStrings site.metadata.parentPath span
  let (argument, t) :=
    t.addObject
      [("values", values), ("level", level), ("filename", filename), ("filepath", filepath),
        ("content", content), ("line", line), ("parentPath", parentPath)]
      span
  let (callee, t) := t.addIdent site.logFunction span
  t.addCall callee [argument] span

/-- Stores the node that a synthesizer makes for a logged statement. -/
def synthesize (s : Synthesizer) (t : Tree) (site : LogSite) : Except Diagnostic (NodeId × Tree) :=
  match s with
  | .builtin level values => .ok (addBuiltinCall level values t site)
  | .template form =>
      let (record, t) := site.metadata.addRecord t site.span
      .ok (form.instantiate t ⟨site.logFunction, site.content, record⟩ site.span)
  | .native make => make t site

/-- The text of a truth value. -/
def boolText (b : Bool) : String := if b then "true" else "false"

/-- A short description. -/
def describe : Synthesizer → String
  | .builtin level values => "builtin level=" ++ level.name ++ " values=" ++ boolText values
  | .template form => "template " ++ form.source
  | .native _ => "native function"

/-- A description with all details. -/
def inspect : Synthesizer → String
  | .builtin level values =>
      "Builtin \x7b level: " ++ level.title ++ ", values: " ++ boolText values ++ " \x7d"
  | .template form => "Template(" ++ Text.showText form.source ++ ")"
  | .native _ => "Custom(..)"

/-- A name without an ending, if it has the ending. -/
def dropEnding? (ending name : String) : Option String :=
  if ending.toList.isSuffixOf name.toList then
    some (String.ofList (name.toList.take (name.length - ending.length)))
  else none

/-- The base of a label name and whether it logs values. -/
def splitName (name : String) : String × Bool :=
  match dropEnding? "Values" name with
  | some base => (base, true)
  | none =>
      match dropEnding? "Refs" name with
      | some base => (base, false)
      | none => (name, true)

/-- The built-in synthesizer of a label. -/
def builtin? (name : String) : Option Synthesizer :=
  let (base, values) := splitName name
  (Level.ofName? base).map fun level => .builtin level values

end Synthesizer

/-- Labels and their synthesizers, ordered by label. -/
abbrev LabelTable := NameMap Synthesizer

namespace LabelTable

/-- The three entries of a level. -/
def levelEntries (level : Level) : List (String × Synthesizer) :=
  [(level.name, .builtin level true), (level.name ++ "Values", .builtin level true),
    (level.name ++ "Refs", .builtin level false)]

/-- The fifteen built-in labels. -/
def defaults : LabelTable := NameMap.ofList (Level.all.flatMap levelEntries)

end LabelTable

end LogLabel
