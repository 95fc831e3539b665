import LogLabel.Options
import LogLabel.Purity

set_option autoImplicit false

/-!
# Expanding labels

One pass over a tree finds the labels of log statements and expands or removes
them. Nodes to visit are kept in a list. An expanded label is replaced by its body,
which is then visited in its place, so a label below another one is reached after it.
Statements made in the pass are recorded and never visited again.

* `Expansion.step` visits one node, `Expansion.visitAll` visits all of them. A template may make
  labels that are expanded again, so a pass can go on for ever; then it has no result.
* `Expansion.process` treats one label: it is removed when the strip policy says so;
  otherwise its body has to be pure, every expression statement in it becomes a log
  statement, and the body takes the place of the label.
-/

namespace LogLabel

open Program (Ast Kind NodeId Tree)

/-- Counts of one pass: labels met, labels removed, log statements made. -/
structure Stats where
  labels : Nat := 0
  stripped : Nat := 0
  calls : Nat := 0
deriving DecidableEq

/-- The counts of two passes together. -/
def Stats.add (a b : Stats) : Stats :=
  ⟨a.labels + b.labels, a.stripped + b.stripped, a.calls + b.calls⟩

/-- What a pass needs to know. -/
structure ExpansionContext where
  file : SourceName
  table : LabelTable
  logFunction : String
  strip : Option Strip
  environment : Environment

/-- Whether a label is one of a log statement. -/
def ExpansionContext.known (c : ExpansionContext) (label : String) : Bool := c.table.contains label

/-- State of a pass: the tree, the statements made so far, and the counts. -/
structure Session where
  tree : Tree
  handled : List NodeId := []
  stats : Stats := {}

namespace Expansion

/-- The outcome of a part of a pass: a value and the new state, or a failure and the state as it
was left. -/
abbrev Result (α : Type) := Except (Diagnostic × Session) (α × Session)

/-- The state with an edited tree, or the failure of the edit. -/
def edit (s : Session) (edited : Tree.Edited) : Except (Diagnostic × Session) Session :=
  match edited with
  | .ok tree => .ok { s with tree := tree }
  | .error (d, tree) => .error (d, { s with tree := tree })

/-- The expression statements of a node in source order, given those of its parts. Statements made
in the pass and labels of other log statements are not entered. -/
def statementsStep (known : String → Bool) (handled : List NodeId) (id : NodeId)
    (k : Kind (List NodeId)) : List NodeId :=
  if id ∈ handled then []
  else if Purity.isKnownLabel known k then []
  else
    match k with
    | .expression _ => [id]
    | k => k.children.flatten

/-- The expression statements in the body of a label, the body itself being entered also when it is
a label of a log statement. -/
def expressionStatements (known : String → Bool) (handled : List NodeId) (body : Ast NodeId) :
    List NodeId :=
  if body.note ∈ handled then []
  else
    match Ast.foldKind (statementsStep known handled) body.kind with
    | .expression _ => [body.note]
    | k => k.children.flatten

/-- The logged expressions of an expression: the items of a sequence, or the expression itself. -/
def contentOf (t : Tree) (expr : NodeId) : List NodeId :=
  match t.kind expr with
  | .sequence es => es
  | _ => [expr]

/-- Turns an expression statement into a log statement. -/
def expandStatement (c : ExpansionContext) (s : Synthesizer) (m : Metadata) (statement : NodeId)
    (session : Session) : Except (Diagnostic × Session) Session :=
  match session.tree.kind statement with
  | .expression expr =>
      let site : LogSite :=
        { logFunction := c.logFunction
          content := contentOf session.tree expr
          metadata := m
          span := session.tree.span statement }
      match s.synthesize session.tree site with
      | .error d => .error (d, session)
      | .ok (made, tree) =>
          let (replacement, tree) := tree.ensureStatement made
          match edit session (tree.replace statement replacement) with
          | .error e => .error e
          | .ok session =>
              .ok { session with
                handled := replacement :: session.handled
                stats := { session.stats with calls := session.stats.calls + 1 } }
  | _ => .ok session

/-- Turns expression statements into log statements, in order. -/
def expandStatements (c : ExpansionContext) (s : Synthesizer) (m : Metadata) :
    List NodeId → Session → Except (Diagnostic × Session) Session
  | [], session => .ok session
  | id :: ids, session =>
      match expandStatement c s m id session with
      | .error e => .error e
      | .ok session => expandStatements c s m ids session

/-- The nodes that take the place of a label with the given body. -/
def unwrap (t : Tree) (body : NodeId) : List NodeId :=
  match t.kind body with
  | .block statements => statements
  | .empty => []
  | _ => [body]

/-- The body of a label; `old` if the node is no label any more. -/
def bodyOf (t : Tree) (id old : NodeId) : NodeId :=
  match t.kind id with
  | .labeled _ body => body
  | _ => old

/-- Treats one label and gives the nodes that now stand in its place. -/
def process (c : ExpansionContext) (id : NodeId) (label : String) (body : NodeId) (s : Synthesizer)
    (session : Session) : Result (List NodeId) :=
  let session := { session with stats := { session.stats with labels := session.stats.labels + 1 } }
  let m := Metadata.collect session.tree id c.file c.known session.handled
  if shouldStrip c.strip c.environment label m then
    match edit session (session.tree.remove id) with
    | .error e => .error e
    | .ok session =>
        .ok ([], { session with
          stats := { session.stats with stripped := session.stats.stripped + 1 } })
  else
    match Purity.check session.tree c.known label c.file.filename body with
    | .error d => .error (d, session)
    | .ok () =>
        let statements :=
          expressionStatements c.known session.handled (session.tree.reading body)
        match expandStatements c s m statements session with
        | .error e => .error e
        | .ok session =>
            let replacements := unwrap session.tree (bodyOf session.tree id body)
            match edit session (session.tree.replaceWithMany id replacements) with
            | .error e => .error e
            | .ok session => .ok (replacements, session)

/-- Visits one node and gives the nodes to visit in its place. -/
def step (c : ExpansionContext) (id : NodeId) (session : Session) : Result (List NodeId) :=
  if id ∈ session.handled then .ok ([], session)
  else
    match session.tree.kind id with
    | .labeled label body =>
        match c.table.get? label with
        | some s => process c id label body s session
        | none => .ok ([body], session)
    | k => .ok (k.children, session)

/-- A way to visit nodes and all that come in their places: what it comes to, if it has a result. -/
abbrev Pass := List NodeId → Session → Option (Except (Diagnostic × Session) Session)

/-- Visits the first node. Then `rest` goes on with the nodes to visit in its place and the others. -/
@[inline] def Pass.afterVisit (rest : Pass) (c : ExpansionContext) : Pass := fun pending session =>
  match pending with
  | [] => some (.ok session)
  | id :: pending =>
      match step c id session with
      | .error e => some (.error e)
      | .ok (next, session) => rest (next ++ pending) session

section

variable (c : ExpansionContext)

/-- Visits nodes in order, each followed by the nodes to visit in its place, until none is left or a
visit fails. This is the least solution of its equation: nothing bounds the visits, and there is no
result if there is always a node left. -/
def visitAll : Pass := fun pending session => visitAll.afterVisit c pending session
partial_fixpoint monotonicity by
  -- The results that are there stay when `rest` gets more of them.
  intro rest rest' hrest pending session
  cases pending with
  | nil => exact .refl
  | cons id pending =>
      dsimp only [Pass.afterVisit]
      cases step c id session with
      | error e => exact .refl
      | ok outcome => exact hrest _ _

end

/-- The same with a bound on the visits. Running out of fuel is reported apart from other
failures. -/
def loop (c : ExpansionContext) : Nat → List NodeId → Session →
    Except (Diagnostic × Session) Session
  | _, [], session => .ok session
  | 0, _ :: _, session => .error (⟨.unsettledExpansion, none⟩, session)
  | fuel + 1, id :: pending, session =>
      match step c id session with
      | .error e => .error e
      | .ok (next, session) => loop c fuel (next ++ pending) session

/-- Expands the labels of a tree. There is no result if the pass has no end. -/
def run? (c : ExpansionContext) (t : Tree) : Option (Except (Diagnostic × Session) Session) :=
  visitAll c [t.root] { tree := t }

/-- The result of a pass. For a pass without an end `unsettledExpansion` stands in, with the tree as
it was. -/
def run (c : ExpansionContext) (t : Tree) : Except (Diagnostic × Session) Session :=
  (run? c t).getD (.error (⟨.unsettledExpansion, none⟩, { tree := t }))

end Expansion

end LogLabel
