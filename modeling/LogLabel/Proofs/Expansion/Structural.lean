import LogLabel.Proofs.Expansion.Label
import Mathlib.Algebra.Ring.Nat

set_option autoImplicit false

/-!
# Expansion as a structural recursion

The pass over a tree keeps a list of nodes to visit and edits an arena. This module says
what it computes as one recursion over the nested program, which changes nothing in place
and never looks at a node twice. It is written for the built-in labels.

A part of a program is expanded at a `Place`: the names of the enclosing methods, class
declarations and functions, and the `Site` of the label whose region the part is in, if
there is one. The expression statements of a region become log statements of its site.

* `Structural.expandLabel` treats one label: it contributes nothing when it is stripped;
  it fails when a forbidden construct is in its region; and else its body takes its place,
  with the region below it at the site of the label.
* `Structural.expandNode` treats any other node part by part.
* `Structural.rewrite` is the recursion.
-/

namespace LogLabel.Expansion.Structural

open Program (Ast Kind NodeId Span)

/-- A label of a log statement, as the statements of its region see it. -/
structure Site where
  level : Level
  values : Bool
  line : Nat
  path : List String
deriving DecidableEq

/-- Where a part of a program stands. -/
structure Place where
  path : List String
  site : Option Site
deriving DecidableEq

/-- The programs that take the place of a part, and the counts of what was done; or the first
failure. -/
abbrev Expanded := Except Diagnostic (List (Ast Span) × Stats)

/-- How a program is expanded. In a statement list several programs or none may take its place, in
any other slot exactly one does. As the body of a label it is unwrapped, at the span of the label. -/
structure Expander where
  source : Ast Span
  expand : (inList : Bool) → Place → Expanded
  unwrap : (inList : Bool) → Span → Place → Expanded

/-! ## Outcomes -/

/-- The outcome of one expansion after another. -/
def andThen (first : Expanded) (second : Unit → Expanded) : Expanded :=
  match first with
  | .error d => .error d
  | .ok (xs, n) =>
      match second () with
      | .error d => .error d
      | .ok (ys, m) => .ok (xs ++ ys, n.add m)

/-- The outcome of expanding parts from left to right. -/
def inTurn (f : Expander → Expanded) : List Expander → Expanded
  | [] => .ok ([], {})
  | e :: es => andThen (f e) fun _ => inTurn f es

/-- The outcome with a node over the programs, and further counts. -/
def wrapped (node : List (Ast Span) → List (Ast Span)) (n : Stats) (outcome : Expanded) : Expanded :=
  match outcome with
  | .error d => .error d
  | .ok (xs, m) => .ok (node xs, n.add m)

/-! ## Regions -/

/-- The meaning of a built-in label. -/
def label? (name : String) : Option (Level × Bool) :=
  match LabelTable.defaults.get? name with
  | some (.builtin level values) => some (level, values)
  | _ => none

/-- Whether a label is one of a log statement. -/
def known (name : String) : Bool := LabelTable.defaults.contains name

/-- Whether a program is a label of a log statement. -/
def isLabel {ι : Type} (a : Ast ι) : Bool := Purity.isKnownLabel known a.kind

/-- The place of a part of a region: labels of log statements are not in the region. -/
def Place.enter {ι : Type} (p : Place) (a : Ast ι) : Place :=
  if isLabel a then { p with site := none } else p

/-- The forbidden constructs of a node, before those of its parts from the last to the first. -/
def breachesOf {ι : Type} (i : ι) (k : Kind (List (ι × String))) : List (ι × String) :=
  ((Purity.construct? k).map fun construct => (i, construct)).toList ++ k.children.reverse.flatten

/-- The forbidden constructs of a program that is no label of a log statement. -/
def breachesStep {ι : Type} (i : ι) (k : Kind (List (ι × String))) : List (ι × String) :=
  if Purity.isKnownLabel known k then [] else breachesOf i k

/-- The forbidden constructs that are reached from the body of a label without entering a label of a
log statement below it. -/
def breaches {ι : Type} (body : Ast ι) : List (ι × String) :=
  breachesOf body.note (body.kind.map (Ast.fold breachesStep))

/-- The number of expression statements of a node that is entered. -/
def statementsOf (k : Kind Nat) : Nat := if isExpression k then 1 else k.children.sum

/-- The number of expression statements of a program, without those below labels of log
statements. -/
def statementCount {ι : Type} : Ast ι → Nat :=
  Ast.fold fun _ k => if Purity.isKnownLabel known k then 0 else statementsOf k

/-- The number of expression statements in the region of a label. -/
def regionCount {ι : Type} (body : Ast ι) : Nat := statementsOf (body.kind.map statementCount)

/-! ## The recursion -/

variable (c : ExpansionContext) (lines : List Nat)

/-- Whether the log statements under a label are removed. -/
def strips (label : String) (path : List String) : Bool :=
  match c.strip with
  | none => false
  | some strip =>
      strip.appliesTo c.environment.name
        && !c.environment.overrides.grants (":".intercalate path) c.file.filename label

/-- The line of a part of the text. -/
def lineOf (span : Span) : Nat := Text.lineAt lines span.start

/-- The name under which a node is a scope: methods, class declarations and functions are. -/
def scopeName? {α : Type} (line : Nat) : Kind α → Option String
  | .method (.named name) _ _ => some name
  | .method (.str name) _ _ => some name
  | .method (.computed _) _ _ => some "<computed method>"
  | .classDef name _ _ true => some (name.getD ("<anonymous class:" ++ toString line ++ ">"))
  | .function head _ => some (head.name.getD ("<anonymous function:" ++ toString line ++ ">"))
  | _ => none

/-- The log statement that a site makes of an expression statement. -/
def logStatement {ι : Type} (site : Site) (x : Ast ι) (s : ι) : Ast ι :=
  builtinStatement site.level site.values c.logFunction c.file site.line site.path x s

/-- A label and the body that takes its place. The statements of its region are logged for it unless
they already were for a label around it, which enters the label as its body. -/
def expandLabel (inList : Bool) (place : Place) (span : Span) (label : String)
    (meaning : Level × Bool) (body : Expander) : Expanded :=
  if strips c label place.path then
    .ok (if inList then [] else [.node span .empty], ⟨1, 1, 0⟩)
  else
    match (breaches body.source).head? with
    | some (s, construct) =>
        .error ⟨.sideEffect construct label c.file.filename (lineOf lines s), some s⟩
    | none =>
        let own : Site := ⟨meaning.1, meaning.2, lineOf lines span, place.path⟩
        let inside := (place.enter body.source).site
        wrapped id ⟨1, 0, if inside.isNone then regionCount body.source else 0⟩
          (body.unwrap inList span ⟨place.path, some (inside.getD own)⟩)

/-- A node whose parts are expanded from left to right. -/
def expandParts (place : Place) (span : Span) (k : Kind Expander) : Expanded :=
  let inside : Place :=
    { place with path := place.path ++ (scopeName? (lineOf lines span) k).toList }
  wrapped (fun xs => [.node span (k.refill xs)]) {}
    (inTurn (fun e => e.expand k.isList (inside.enter e.source)) k.children)

/-- A node at a place. -/
def expandNode (inList : Bool) (place : Place) (span : Span) (k : Kind Expander) : Expanded :=
  match k, place.site with
  | .expression x, some site => .ok ([logStatement c site x.source span], {})
  | .labeled label body, _ =>
      match label? label with
      | some meaning => expandLabel c lines inList place span label meaning body
      | none => expandParts lines place span k
  | k, _ => expandParts lines place span k

/-- The body of a label in the place of the label: the statements of a block, nothing for an empty
statement, and else the body itself. In a single slot one program stands for the statements. -/
def unwrapNode (inList : Bool) (label : Span) (place : Place) (span : Span) (k : Kind Expander) :
    Expanded :=
  match k with
  | .empty => .ok (if inList then [] else [.node label .empty], {})
  | .block [] => .ok (if inList then [] else [.node label .empty], {})
  | .block [e] => e.expand inList (place.enter e.source)
  | .block es =>
      let outcome := inTurn (fun e => e.expand true (place.enter e.source)) es
      if inList then outcome else wrapped (fun xs => [.node label (.block xs)]) {} outcome
  | k => expandNode c lines inList place span k

/-- The expander of a node over those of its parts. -/
def expanderStep (span : Span) (k : Kind Expander) : Expander where
  source := .node span (k.map Expander.source)
  expand := fun inList place => expandNode c lines inList place span k
  unwrap := fun inList label place => unwrapNode c lines inList label place span k

/-- The expander of a program. -/
def expander : Ast Span → Expander := Ast.fold (expanderStep c lines)

/-- The expansion of a whole program. -/
def rewrite (program : Ast Span) : Expanded := (expander c lines program).expand false ⟨[], none⟩

end LogLabel.Expansion.Structural
