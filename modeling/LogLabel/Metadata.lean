import LogLabel.Path
import LogLabel.Program.Tree

set_option autoImplicit false

/-!
# Metadata of a log statement

What is known about the place of a labeled log statement: the scopes around it, how
deep it is nested below the nearest one, the file, the line, and whether it starts
the run of log statements at the top of its scope.
-/

namespace LogLabel

open Program (Tree NodeId Kind Key)

/-- A file as it was named, and its absolute path. -/
structure SourceName where
  filename : String
  filepath : String
deriving DecidableEq

/-- A file named relative to a base directory. -/
def SourceName.resolve (filename base : String) : SourceName :=
  ⟨filename, Path.normalize (Path.join base filename)⟩

/-- What is known about the place of a log statement. -/
structure Metadata where
  indent : Nat
  parentPath : List String
  filename : String
  filepath : String
  hasStartMessage : Bool
  isStartMessage : Bool
  line : Nat
deriving DecidableEq

namespace Metadata

/-- The scopes around the statement as one text. -/
def context (m : Metadata) : String := ":".intercalate m.parentPath

/-- The name under which a method appears as a scope. -/
def methodName (key : Key NodeId) : String :=
  match key with
  | .named name => name
  | .str name => name
  | .computed _ => "<computed method>"

/-- The name under which an ancestor appears as a scope: methods, class declarations and functions
are scopes, and those without a name are shown by their line. -/
def scopeName? (t : Tree) (id : NodeId) : Option String :=
  match t.kind id with
  | .method key _ _ => some (methodName key)
  | .classDef name _ _ true =>
      some (name.getD ("<anonymous class:" ++ toString (t.lineOf id) ++ ">"))
  | .function head _ =>
      some (head.name.getD ("<anonymous function:" ++ toString (t.lineOf id) ++ ">"))
  | _ => none

/-- Whether an ancestor ends the search for the nearest scope. -/
def isScope (t : Tree) (id : NodeId) : Bool :=
  (scopeName? t id).isSome || (t.kind id).isProgram

/-- Whether an ancestor counts as a level of nesting. Blocks and class bodies do not. -/
def isLevel (t : Tree) (id : NodeId) : Bool :=
  !(t.kind id).isBlock && !(t.kind id).isClassBody

/-- The run of log statements at the top of a scope, seen from a label: whether an earlier one
starts it, and whether the label does. Statements with other labels do not end the search. -/
def startFlags (t : Tree) (known : String → Bool) (handled : List NodeId) (label : NodeId) :
    List NodeId → Bool × Bool
  | [] => (false, false)
  | id :: ids =>
      if id = label then (false, true)
      else if id ∈ handled then (true, false)
      else
        match t.kind id with
        | .labeled name _ =>
            if known name then (true, false) else startFlags t known handled label ids
        | _ => (false, false)

/-- The metadata of a label. `known` tells the labels of log statements, and `handled` lists the
statements already made from such labels. -/
def collect (t : Tree) (label : NodeId) (file : SourceName) (known : String → Bool)
    (handled : List NodeId) : Metadata :=
  let ancestors := t.ancestors label
  let flags :=
    match ancestors.find? (isScope t) with
    | some scope =>
        if (t.kind scope).isProgram then (false, false)
        else startFlags t known handled label (t.statements scope)
    | none => (false, false)
  { indent := (ancestors.takeWhile fun id => !isScope t id).countP (isLevel t)
    parentPath := (ancestors.filterMap (scopeName? t)).reverse
    filename := file.filename
    filepath := file.filepath
    hasStartMessage := flags.1
    isStartMessage := flags.2
    line := t.lineOf label }

end Metadata

end LogLabel
