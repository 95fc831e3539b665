import LogLabel.Document.Json
import LogLabel.Document.Yaml.Node
import LogLabel.Document.Yaml.Schema
import LogLabel.Options

set_option autoImplicit false

/-!
# Options written as documents

Options are read from JSON or YAML. A record has at most the three known keys, each at
most once; in the record of templates and in the one of a strip policy the last value of a
repeated key counts.

In JSON the values may also be given as a list in the order templates, strip policy, log
function, where the last ones may be left out. In YAML a scalar is a text wherever only a
text can stand; a strip policy is the one place where a plain scalar is also read as a truth
value or refused as a number. An empty scalar stands for an empty record.
-/

namespace LogLabel.Options

open Document (Value)
open Document.Yaml (Node)

/-- The keys of options. -/
def fieldNames : List String := ["aliases", "strip", "logFunction"]

/-- Whether all keys are known, and each is given once. -/
def areFields (keys : List String) : Bool :=
  keys.all fieldNames.contains && keys.eraseDups.length == keys.length

/-- The map of a list of entries if all of them can be read. -/
def entries? {α β : Type} (read : α → Option (String × β)) (es : List α) : Option (NameMap β) :=
  (es.mapM read).map NameMap.ofList

/-- Options from what was read, or the failure to read them. -/
def ofReading (o : Option Options) : Except Diagnostic Options :=
  match o with
  | some options => .ok options
  | none => .error ⟨.invalidOptions, none⟩

/-! ## JSON -/

/-- A template, or none. -/
def template? : Value → Option (Option String)
  | .null => some none
  | .text s => some (some s)
  | _ => none

/-- The templates of labels, or none. -/
def templates? : Value → Option (Option (NameMap (Option String)))
  | .null => some none
  | .record es => (entries? (fun e => (template? e.2).map (e.1, ·)) es).map some
  | _ => none

/-- A truth value. -/
def bool? : Value → Option Bool
  | .bool b => some b
  | _ => none

/-- A strip policy, or none. -/
def strip? : Value → Option (Option Strip)
  | .null => some none
  | .bool b => some (some (.flag b))
  | .text s => some (some (.inEnvironment s))
  | .record es =>
      (entries? (fun e => (bool? e.2).map (e.1, ·)) es).map fun m => some (.perEnvironment m)
  | _ => none

/-- A text. -/
def text? : Value → Option String
  | .text s => some s
  | _ => none

/-- Options from the values of their three fields, where absent ones have their default. -/
def ofValues? (templates strip logFunction : Option Value) : Option Options := do
  let templates ← (templates.map templates?).getD (some none)
  let strip ← (strip.map strip?).getD (some none)
  let logFunction ← (logFunction.map text?).getD (some "METALOG")
  return { templates := templates, strip := strip, logFunction := logFunction }

/-- Options from a document: a record, or a list of values. -/
def ofValue? : Value → Option Options
  | .record es =>
      if areFields (es.map Prod.fst) then
        ofValues? (es.lookup "aliases") (es.lookup "strip") (es.lookup "logFunction")
      else none
  | .list values => if values.length ≤ 3 then ofValues? values[0]? values[1]? values[2]? else none
  | _ => none

/-- Options written in JSON. -/
def ofJson (text : String) : Except Diagnostic Options :=
  ofReading ((Document.Json.read? text).bind ofValue?)

/-! ## YAML -/

/-- The text of a scalar. -/
def scalarText? : Node → Option String
  | .scalar text _ => some text
  | .mapping _ => none

/-- Whether a node stands for nothing. -/
def isNullNode : Node → Bool
  | .scalar text isPlain => isPlain && Document.Yaml.isNull text
  | .mapping _ => false

/-- The entries of a mapping; an empty scalar has none. -/
def mappingEntries? : Node → Option (List (Node × Node))
  | .mapping es => some es
  | .scalar text _ => if text = "" then some [] else none

/-- A template, or none. -/
def templateNode? (n : Node) : Option (Option String) :=
  if isNullNode n then some none else (scalarText? n).map some

/-- The templates of labels, or none. -/
def templatesNode? (n : Node) : Option (Option (NameMap (Option String))) :=
  if isNullNode n then some none
  else
    (mappingEntries? n).bind fun es =>
      (entries? (fun (key, value) => do return (← scalarText? key, ← templateNode? value)) es).map
        some

/-- A text that is not read as anything else. -/
def properText? : Node → Option String
  | .scalar text isPlain => if !isPlain || Document.Yaml.isText text then some text else none
  | .mapping _ => none

/-- A truth value. -/
def boolNode? : Node → Option Bool
  | .scalar text isPlain => if isPlain then Document.Yaml.bool? text else none
  | .mapping _ => none

/-- A strip policy, or none. -/
def stripNode? (n : Node) : Option (Option Strip) :=
  if isNullNode n then some none
  else
    match n with
    | .scalar _ _ =>
        match boolNode? n with
        | some b => some (some (.flag b))
        | none => (properText? n).map fun name => some (.inEnvironment name)
    | .mapping es =>
        (entries? (fun (key, value) => do return (← properText? key, ← boolNode? value)) es).map
          fun m => some (.perEnvironment m)

/-- Options from the nodes of their three fields, where absent ones have their default. -/
def ofNodes? (templates strip logFunction : Option Node) : Option Options := do
  let templates ← (templates.map templatesNode?).getD (some none)
  let strip ← (strip.map stripNode?).getD (some none)
  let logFunction ← (logFunction.map scalarText?).getD (some "METALOG")
  return { templates := templates, strip := strip, logFunction := logFunction }

/-- Options from a document. -/
def ofNode? (n : Node) : Option Options := do
  let es ← (← mappingEntries? n).mapM fun (key, value) => do return (← scalarText? key, value)
  if areFields (es.map Prod.fst) then
    ofNodes? (es.lookup "aliases") (es.lookup "strip") (es.lookup "logFunction")
  else none

/-- Options written in YAML. -/
def ofYaml (text : String) : Except Diagnostic Options :=
  ofReading ((Document.Yaml.read? text).bind ofNode?)

end LogLabel.Options
