import LogLabel.Strip
import LogLabel.Synthesizer

set_option autoImplicit false

/-!
# Options

What a compilation is told: templates for labels, a strip policy, the name of the
log function, and native synthesizers. The table of labels is made from them once,
by `Options.normalize`, and kept with the options; a change that could alter it drops
it again.
-/

namespace LogLabel

/-- Options with the table of labels, once it has been made. A label without a template keeps its
built-in meaning; without any map of labels the built-in table holds. -/
structure Options where
  templates : Option (NameMap (Option String)) := none
  strip : Option Strip := none
  logFunction : String := "METALOG"
  natives : List (String × Native) := []
  table : Option LabelTable := none

namespace Options

/-- The same options with another strip policy. -/
def withStrip (o : Options) (strip : Strip) : Options :=
  { o with strip := some strip, table := none }

/-- The same options with another log function. The table of labels does not depend on it. -/
def withLogFunction (o : Options) (name : String) : Options :=
  { o with logFunction := name }

/-- The same options with a template for a label. -/
def withTemplate (o : Options) (label source : String) : Options :=
  { o with
    templates := some ((o.templates.getD NameMap.empty).insert label (some source))
    table := none }

/-- The same options with a native synthesizer for a label, on top of the other ones. -/
def withNative (o : Options) (label : String) (make : Native) : Options :=
  { o with natives := o.natives ++ [(label, make)], table := none }

/-- Whether the table of labels has been made. -/
def isNormalized (o : Options) : Bool := o.table.isSome

/-- The synthesizer of a label that is given a template, or none. -/
def synthesizerOf (label : String) (template : Option String) : Except Diagnostic Synthesizer :=
  match template with
  | some source => (Template.compile label source).map .template
  | none =>
      match Synthesizer.builtin? label with
      | some s => .ok s
      | none => .error ⟨.missingTemplate label, none⟩

/-- Adds the labels of a map to a table, in the order of their names. -/
def addTemplates (table : LabelTable) : List (String × Option String) → Except Diagnostic LabelTable
  | [] => .ok table
  | (label, template) :: rest =>
      match synthesizerOf label template with
      | .error d => .error d
      | .ok s => addTemplates (table.insert label s) rest

/-- Adds native synthesizers to a table. -/
def addNatives (table : LabelTable) (natives : List (String × Native)) : LabelTable :=
  natives.foldl (fun table (label, make) => table.insert label (.native make)) table

/-- The table of labels of a map of templates and a list of native synthesizers. -/
def buildTable (templates : Option (NameMap (Option String))) (natives : List (String × Native)) :
    Except Diagnostic LabelTable :=
  let base : Except Diagnostic LabelTable :=
    match templates with
    | none => .ok LabelTable.defaults
    | some m => addTemplates NameMap.empty m.entries
  base.map fun table => addNatives table natives

/-- The table of labels, and the options with the table kept. Options whose table cannot be made
stay as they are. -/
def normalize (o : Options) : Except Diagnostic LabelTable × Options :=
  match o.table with
  | some table => (.ok table, o)
  | none =>
      match buildTable o.templates o.natives with
      | .ok table => (.ok table, { o with table := some table })
      | .error d => (.error d, o)

/-- The document form of the options. -/
def toDocument (o : Options) : Document.Value :=
  .record
    [("aliases", .ofOption
        (fun m => .record (m.entries.map fun (k, v) => (k, .ofOption .text v))) o.templates),
      ("strip", .ofOption Strip.toDocument o.strip),
      ("logFunction", .text o.logFunction)]

end Options

end LogLabel
