import LogLabel.Diagnostic
import LogLabel.Program.Ast
import LogLabel.Text.Lines

set_option autoImplicit false

/-!
# Program trees

A `Tree` holds a program in an arena: nodes are addressed by `NodeId`, and every
node records its parent, so that ancestors are found by walking outward and a
node can be replaced without a walk from the root. Replaced nodes stay in the
arena, detached; only what is reachable from the root belongs to the program.

* `Tree.alloc`, `Tree.setKind` store a layer and make its parts point to it.
* `Tree.replaceWithMany` puts nodes in the place of another one.
* `Tree.reading` reads the nested program below a node.
* `Ast.plant` stores a nested program; `Tree.clone` copies a part of a tree.
-/

namespace LogLabel.Program

/-- Address of a node in a tree. -/
structure NodeId where
  index : Nat
deriving DecidableEq, Inhabited

/-- A stored node. -/
structure Node where
  kind : Kind NodeId
  span : Span
  parent : Option NodeId

/-- A program in an arena, with the index of the lines of its text. -/
structure Tree where
  nodes : Array Node
  root : NodeId
  lineStarts : List Nat

namespace Tree

/-- A tree whose root is an empty program that covers the text. -/
def ofText (text : String) : Tree where
  nodes := #[⟨.program [], ⟨0, text.utf8ByteSize⟩, none⟩]
  root := ⟨0⟩
  lineStarts := Text.lineStarts text

/-- Number of nodes, detached ones included. -/
def size (t : Tree) : Nat := t.nodes.size

/-- The node at an address. -/
def node? (t : Tree) (id : NodeId) : Option Node := t.nodes[id.index]?

/-- The kind of a node; an address outside the tree reads as an empty statement. -/
def kind (t : Tree) (id : NodeId) : Kind NodeId :=
  match t.node? id with
  | some n => n.kind
  | none => .empty

/-- The span of a node. -/
def span (t : Tree) (id : NodeId) : Span :=
  match t.node? id with
  | some n => n.span
  | none => default

/-- The parent of a node. -/
def parent (t : Tree) (id : NodeId) : Option NodeId :=
  (t.node? id).bind Node.parent

/-- Records `p` as the parent of a node. -/
def setParent (t : Tree) (p : Option NodeId) (id : NodeId) : Tree :=
  { t with nodes := t.nodes.modify id.index fun n => { n with parent := p } }

/-- Records `p` as the parent of several nodes. -/
def adopt (t : Tree) (p : NodeId) (ids : List NodeId) : Tree :=
  ids.foldl (fun t id => t.setParent (some p) id) t

/-- Stores a detached node; the parts of its kind become its children. -/
def alloc (t : Tree) (kind : Kind NodeId) (span : Span) : NodeId × Tree :=
  let id : NodeId := ⟨t.size⟩
  let t := t.adopt id kind.children
  (id, { t with nodes := t.nodes.push ⟨kind, span, none⟩ })

/-- Stores a kind in the place of another one without touching any parent. -/
def putKind (t : Tree) (id : NodeId) (kind : Kind NodeId) : Tree :=
  { t with nodes := t.nodes.modify id.index fun n => { n with kind := kind } }

/-- Replaces the kind of a node; the parts of the new kind become its children. -/
def setKind (t : Tree) (id : NodeId) (kind : Kind NodeId) : Tree :=
  (t.adopt id kind.children).putKind id kind

/-- Replaces the statements of the program. -/
def setProgramBody (t : Tree) (body : List NodeId) : Tree :=
  t.setKind t.root (.program body)

/-- The nodes met when walking outward from an optional node. -/
def outward (t : Tree) : Nat → Option NodeId → List NodeId
  | 0, _ => []
  | _ + 1, none => []
  | fuel + 1, some id => id :: t.outward fuel (t.parent id)

/-- Ancestors of a node from the nearest outward. A walk without a repetition is not longer than
the tree. -/
def ancestors (t : Tree) (id : NodeId) : List NodeId :=
  t.outward t.size (t.parent id)

/-- Line of a byte offset. -/
def lineOfOffset (t : Tree) (offset : Nat) : Nat := Text.lineAt t.lineStarts offset

/-- Line on which a node starts. -/
def lineOf (t : Tree) (id : NodeId) : Nat := t.lineOfOffset (t.span id).start

/-- Statement list of a scope: the body of a program or block, or the body block of a function or
method; empty for anything else. -/
def statements (t : Tree) (scope : NodeId) : List NodeId :=
  match t.kind scope with
  | .program body => body
  | .block body => body
  | .function _ body =>
      match t.kind body with
      | .block body => body
      | _ => []
  | .method _ _ body =>
      match t.kind body with
      | .block body => body
      | _ => []
  | _ => []

/-! ## Replacement -/

/-- Outcome of an edit: the edited tree, or why it failed and the tree as it was left. -/
abbrev Edited := Except (Diagnostic × Tree) Tree

/-- The list with the first occurrence of `target` replaced by `replacements`, if it occurs. -/
def splice? (target : NodeId) (replacements : List NodeId) : List NodeId → Option (List NodeId)
  | [] => none
  | id :: ids =>
      if id = target then some (replacements ++ ids)
      else (splice? target replacements ids).map (id :: ·)

/-- A statement list with `target` replaced in it, if the kind is such a list and has it. -/
def spliceKind? (target : NodeId) (replacements : List NodeId) : Kind NodeId → Option (Kind NodeId)
  | .program body => (splice? target replacements body).map .program
  | .block body => (splice? target replacements body).map .block
  | _ => none

/-- Puts `replacement` into every slot of `parent` that holds `target`. -/
def replaceSlot (t : Tree) (parent target replacement : NodeId) : Edited :=
  if target ∈ (t.kind parent).children then
    let kind := (t.kind parent).map fun id => if id = target then replacement else id
    .ok ((t.putKind parent kind).setParent (some parent) replacement)
  else
    .error (⟨.strangerNode target.index parent.index, none⟩, t)

/-- The one node that stands for several in a single slot: an empty statement for none, the node
itself for one, and a block for more. -/
def gather (t : Tree) (span : Span) : List NodeId → NodeId × Tree
  | [] => t.alloc .empty span
  | [id] => (id, t)
  | ids => t.alloc (.block ids) span

/-- Replaces `target` by `replacements`. In the body of a program or block they are spliced in
order; a single slot takes one node that stands for them. -/
def replaceWithMany (t : Tree) (target : NodeId) (replacements : List NodeId) : Edited :=
  match t.parent target with
  | none => .error (⟨.orphanNode target.index, none⟩, t)
  | some parent =>
      match spliceKind? target replacements (t.kind parent) with
      | some kind =>
          .ok (((t.putKind parent kind).adopt parent replacements).setParent none target)
      | none =>
          let (replacement, t) := t.gather (t.span target) replacements
          (t.replaceSlot parent target replacement).map (·.setParent none target)

/-- Replaces `target` by one node. -/
def replace (t : Tree) (target replacement : NodeId) : Edited :=
  t.replaceWithMany target [replacement]

/-- Removes `target` from its statement list. -/
def remove (t : Tree) (target : NodeId) : Edited :=
  t.replaceWithMany target []

/-! ## Nested programs in a tree -/

/-- The nested program below a node down to a depth, with the address of each node. -/
def unfold (t : Tree) : Nat → NodeId → Ast NodeId
  | 0, id => .node id .empty
  | depth + 1, id => .node id ((t.kind id).map (t.unfold depth))

/-- The nested program below a node. A path without a repetition is not longer than the tree, so
nothing is cut off. -/
def reading (t : Tree) (id : NodeId) : Ast NodeId := t.unfold t.size id

/-- The nested program of the whole tree. -/
def program (t : Tree) : Ast NodeId := t.reading t.root

/-- The labels at and below a node, given those below its parts. -/
def labelsStep (id : NodeId) (k : Kind (List NodeId)) : List NodeId :=
  (if k.isLabeled then [id] else []) ++ k.children.flatten

/-- The labeled statements of the program in source order. -/
def labels (t : Tree) : List NodeId := t.program.fold labelsStep

/-- An action that stores nodes in a tree and gives the address of the last one. -/
abbrev Planting := Tree → NodeId × Tree

/-- Stores the parts of a layer from left to right, then the layer. -/
def plantLayer (span : Span) (kind : Kind Planting) : Planting := fun t =>
  let (kind, t) := kind.mapState (fun plant t => plant t) t
  t.alloc kind span

end Tree

/-- Stores a nested program in a tree, parts before the nodes that hold them. -/
def Ast.plant : Ast Span → Tree.Planting := Ast.fold Tree.plantLayer

/-- Copies the nested program below a node; the copy is detached and keeps the spans. -/
def Tree.clone (t : Tree) (id : NodeId) : NodeId × Tree :=
  ((t.reading id).mapNotes t.span).plant t

end LogLabel.Program
