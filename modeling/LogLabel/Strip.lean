import LogLabel.Document.Value
import LogLabel.Environment
import LogLabel.Metadata
import LogLabel.NameMap

set_option autoImplicit false

/-!
# Stripping

The policy that removes log statements instead of expanding them. From the weakest
to the strongest, a statement is decided by the policy, by the name of the
environment, and by the exceptions of the environment.
-/

namespace LogLabel

/-- When log statements are removed: everywhere or nowhere, in one environment, or in the
environments mapped to true. -/
inductive Strip where
  | flag (on : Bool)
  | inEnvironment (name : String)
  | perEnvironment (choices : NameMap Bool)

namespace Strip

/-- Whether the policy applies in an environment. A policy for an environment without a name never
does. -/
def appliesTo (s : Strip) (environment : Option String) : Bool :=
  match s with
  | .flag on => on
  | .inEnvironment name => name ≠ "" && environment = some name
  | .perEnvironment choices => ((environment.bind choices.get?).getD false)

/-- The policy given on a command line. -/
def ofArgument (value : String) : Strip :=
  if value = "true" then .flag true
  else if value = "false" then .flag false
  else .inEnvironment value

/-- The document form of a policy. -/
def toDocument : Strip → Document.Value
  | .flag on => .bool on
  | .inEnvironment name => .text name
  | .perEnvironment choices => .record (choices.entries.map fun (k, v) => (k, .bool v))

end Strip

/-- Whether a log statement is removed. -/
def shouldStrip (policy : Option Strip) (environment : Environment) (label : String)
    (m : Metadata) : Bool :=
  match policy with
  | none => false
  | some strip =>
      strip.appliesTo environment.name
        && !environment.overrides.grants m.context m.filename label

end LogLabel
