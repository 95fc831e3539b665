import LogLabel.Program.Tree

set_option autoImplicit false

/-!
# Purity of logging labels

The body of a logging label may not have side effects. The body is searched without
entering the labels of other log statements below it, which are checked on their own.
Of several violations the one met first is reported when the parts of every node are
visited from the last to the first and a node before its parts.
-/

namespace LogLabel

open Program (Ast Kind NodeId Tree)

namespace Purity

variable {α : Type}

/-- The name of a construct with a side effect. -/
def construct? : Kind α → Option String
  | .varDecl _ _ => some "variable declaration"
  | .function _ _ => some "function"
  | .method _ _ _ => some "function"
  | .assign _ _ _ => some "assignment"
  | .update _ _ _ => some "update expression"
  | .yieldExpr _ _ => some "yield expression"
  | .returnStmt _ => some "return statement"
  | _ => none

/-- Whether a layer is a label of a log statement. -/
def isKnownLabel (known : String → Bool) : Kind α → Bool
  | .labeled name _ => known name
  | _ => false

/-- The violations at and below a node, given those below its parts. -/
def violationsOf (id : NodeId) (k : Kind (List (NodeId × String))) : List (NodeId × String) :=
  ((construct? k).map fun construct => (id, construct)).toList ++ k.children.reverse.flatten

/-- The violations below a node that is no body of a label: none in the label of another log
statement. -/
def violationsStep (known : String → Bool) (id : NodeId) (k : Kind (List (NodeId × String))) :
    List (NodeId × String) :=
  if isKnownLabel known k then [] else violationsOf id k

/-- The violations in the body of a label, the body itself never being skipped. -/
def violations (known : String → Bool) (body : Ast NodeId) : List (NodeId × String) :=
  violationsOf body.note (Ast.foldKind (violationsStep known) body.kind)

/-- Refuses the body of a label that has a side effect. -/
def check (t : Tree) (known : String → Bool) (label filename : String) (body : NodeId) :
    Except Diagnostic Unit :=
  match (violations known (t.reading body)).head? with
  | none => .ok ()
  | some (id, construct) =>
      .error ⟨.sideEffect construct label filename (t.lineOf id), some (t.span id)⟩

end Purity

end LogLabel
