import LogLabel.Program.Builder
import LogLabel.Program.Parser

set_option autoImplicit false

/-!
# Alias templates

A template is one statement with three named slots: the log function, the logged
content and the metadata. `Template.compile` reads and checks it once;
`Template.instantiate` stores a copy of it in a tree with the slots filled.

The content is a list. Inside an argument list or an array literal its entries are
spliced in place, anywhere else they become an array literal. A bound node is used
itself the first time and copied on every later use.
-/

namespace LogLabel

open Program (Ast Draft Kind Mode NodeId Span Tree)

/-- The slots of a template. -/
inductive Slot where
  | logFunction
  | content
  | metadata
deriving DecidableEq

/-- The slot with a name. -/
def Slot.ofName? (name : String) : Option Slot :=
  if name = "logFunction" then some .logFunction
  else if name = "content" then some .content
  else if name = "metadata" then some .metadata
  else none

/-- A checked template of a label. -/
structure Template where
  label : String
  source : String
  statement : Ast Span

namespace Template

/-! ## Reading -/

/-- The slots of a node from the last to the first, given those of its parts. -/
def slotsStep (span : Span) : Kind (List (Span × String)) → List (Span × String)
  | .placeholder name => [(span, name)]
  | k => k.children.reverse.flatten

/-- The slots of a program with their names, from the last to the first. -/
def slotsBackward : Ast Span → List (Span × String) := Ast.fold slotsStep

/-- Whether a statement is empty. -/
def isEmptyStatement (a : Ast Span) : Bool :=
  match a.kind with
  | .empty => true
  | _ => false

/-- Reads the template of a label. It has to be one statement, empty ones not counted, and all its
slots have to be known; of several unknown ones the last is reported. -/
def compile (label source : String) : Except Diagnostic Template :=
  match Program.read .template source with
  | .error d => .error d
  | .ok body =>
      let statements := body.filter (!isEmptyStatement ·)
      let whole : Span := ⟨0, source.utf8ByteSize⟩
      match statements with
      | [] => .error ⟨.emptyTemplate label, some whole⟩
      | [statement] =>
          match (slotsBackward statement).find? fun (_, name) => (Slot.ofName? name).isNone with
          | some (span, name) => .error ⟨.unknownPlaceholder name, some span⟩
          | none => .ok ⟨label, source, statement⟩
      | _ => .error ⟨.crowdedTemplate label statements.length, some whole⟩

/-! ## Filling the slots -/

/-- Values of the slots; the nodes are in the tree that is filled. -/
structure Bindings where
  logFunction : String
  content : List NodeId
  metadata : NodeId

/-- The tree that is filled, and the bound nodes that are already used. -/
structure Filling where
  tree : Tree
  used : List NodeId

/-- Uses a bound node: itself the first time, and a copy on every later use. -/
def take (id : NodeId) (f : Filling) : NodeId × Filling :=
  if id ∈ f.used then
    let (copy, tree) := f.tree.clone id
    (copy, { f with tree := tree })
  else (id, { f with used := id :: f.used })

/-- Stores a node. -/
def store (kind : Kind NodeId) (span : Span) (f : Filling) : NodeId × Filling :=
  let (id, tree) := f.tree.alloc kind span
  (id, { f with tree := tree })

/-- Uses the content nodes in order. -/
def takeContent (b : Bindings) : Filling → List NodeId × Filling :=
  Kind.mapStateList take b.content

/-- Fills a slot that stands alone. -/
def fillSlot (b : Bindings) (span : Span) (name : String) (f : Filling) : NodeId × Filling :=
  match Slot.ofName? name with
  | some .logFunction => store (.ident b.logFunction) span f
  | some .metadata => take b.metadata f
  | some .content =>
      let (elements, f) := takeContent b f
      store (.array elements) span f
  | none => store (.ident name) span f

/-- How a part of a template is copied, and whether it is the content slot. -/
structure Copier where
  isContent : Bool
  copy : Filling → NodeId × Filling

/-- Copies a list of parts, with the content spliced in place of its slot. -/
def copyList (b : Bindings) : List Copier → Filling → List NodeId × Filling
  | [], f => ([], f)
  | c :: cs, f =>
      if c.isContent then
        let (ids, f) := takeContent b f
        let (rest, f) := copyList b cs f
        (ids ++ rest, f)
      else
        let (id, f) := c.copy f
        let (rest, f) := copyList b cs f
        (id :: rest, f)

/-- Copies a layer whose parts are copied by `kind`. -/
def copyLayer (b : Bindings) (span : Span) : Kind Copier → Filling → NodeId × Filling
  | .placeholder name, f => fillSlot b span name f
  | .call callee arguments, f =>
      let (callee, f) := callee.copy f
      let (arguments, f) := copyList b arguments f
      store (.call callee arguments) span f
  | .newExpr callee arguments, f =>
      let (callee, f) := callee.copy f
      let (arguments, f) := copyList b arguments f
      store (.newExpr callee arguments) span f
  | .array elements, f =>
      let (elements, f) := copyList b elements f
      store (.array elements) span f
  | kind, f =>
      let (kind, f) := kind.mapState Copier.copy f
      store kind span f

/-- Whether a layer is the content slot. -/
def isContentSlot {α : Type} : Kind α → Bool
  | .placeholder name => Slot.ofName? name = some .content
  | _ => false

/-- How a program is copied; all new nodes have the span of the instantiation. -/
def copier (b : Bindings) (span : Span) : Ast Span → Copier :=
  Ast.fold fun _ kind => ⟨isContentSlot kind, copyLayer b span kind⟩

/-- Stores a copy of a program with the slots filled. -/
def fill (b : Bindings) (span : Span) (a : Ast Span) (t : Tree) : NodeId × Tree :=
  let (id, f) := (copier b span a).copy ⟨t, []⟩
  (id, f.tree)

/-- The expression of the template if it is an expression statement, and else its statement. -/
def body (template : Template) : Ast Span :=
  match template.statement.kind with
  | .expression e => e
  | _ => template.statement

/-- Stores a copy of the template's statement. -/
def instantiateStatement (template : Template) (t : Tree) (b : Bindings) (span : Span) :
    NodeId × Tree :=
  fill b span template.statement t

/-- Stores a copy of the template, as an expression where it is one. -/
def instantiate (template : Template) (t : Tree) (b : Bindings) (span : Span) : NodeId × Tree :=
  fill b span template.body t

end Template

end LogLabel
