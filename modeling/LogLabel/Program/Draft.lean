import LogLabel.Program.Grouping
import LogLabel.Program.Tree

set_option autoImplicit false

/-!
# Drafts

A draft is a program as it was read: a nested program with spans in which chains
of binary operators are still flat. It has two readings.

* `Draft.resolve` groups the chains and gives the nested program.
* `Draft.plant` stores the program in a tree. All operands of a chain are stored
  before the operators that join them, so the order in which nodes are stored is
  decided by the draft and not by the grouping.
-/

namespace LogLabel.Program

/-- A program with flat operator chains. -/
inductive Draft where
  | node (span : Span) (kind : Kind Draft)
  | chain (span : Span) (first : Draft) (rest : List (String × Draft))

namespace Draft

variable {β : Type}

/-- The span of the top node. -/
def span : Draft → Span
  | .node s _ => s
  | .chain s _ _ => s

/-- A chain with the span of its outer operands; without an operator it is its only operand. -/
def ofChain (first : Draft) : List (String × Draft) → Draft
  | [] => first
  | link :: links =>
      .chain (first.span.cover ((link :: links).getLastD link).2.span) first (link :: links)

mutual

/-- Bottom-up evaluation of nodes and chains. -/
def fold (f : Span → Kind β → β) (g : β → List (String × β) → β) : Draft → β
  | .node s k => f s (foldKind f g k)
  | .chain _ first rest => g (fold f g first) (foldLinks f g rest)

/-- Evaluates the parts of a layer. -/
def foldKind (f : Span → Kind β → β) (g : β → List (String × β) → β) : Kind Draft → Kind β
  | .program body => .program (foldList f g body)
  | .block body => .block (foldList f g body)
  | .empty => .empty
  | .expression e => .expression (fold f g e)
  | .labeled l body => .labeled l (fold f g body)
  | .varDecl k ds => .varDecl k (foldList f g ds)
  | .declarator n init => .declarator n (foldOption f g init)
  | .returnStmt a => .returnStmt (foldOption f g a)
  | .throwStmt a => .throwStmt (fold f g a)
  | .ifStmt t c a => .ifStmt (fold f g t) (fold f g c) (foldOption f g a)
  | .whileStmt t b => .whileStmt (fold f g t) (fold f g b)
  | .breakStmt l => .breakStmt l
  | .continueStmt l => .continueStmt l
  | .function h b => .function h (fold f g b)
  | .classDef n s b d => .classDef n (foldOption f g s) (fold f g b) d
  | .classBody ms => .classBody (foldList f g ms)
  | .method k h b => .method (foldKey f g k) h (fold f g b)
  | .ident n => .ident n
  | .this => .this
  | .number r => .number r
  | .str v => .str v
  | .rawStr r => .rawStr r
  | .bool b => .bool b
  | .null => .null
  | .array es => .array (foldList f g es)
  | .object ps => .object (foldList f g ps)
  | .property k v s => .property (foldKey f g k) (fold f g v) s
  | .call c as => .call (fold f g c) (foldList f g as)
  | .newExpr c as => .newExpr (fold f g c) (foldList f g as)
  | .member o k => .member (fold f g o) (foldKey f g k)
  | .unary op a => .unary op (fold f g a)
  | .binary op l r => .binary op (fold f g l) (fold f g r)
  | .conditional t c a => .conditional (fold f g t) (fold f g c) (fold f g a)
  | .assign op t v => .assign op (fold f g t) (fold f g v)
  | .update op x a => .update op x (fold f g a)
  | .sequence es => .sequence (foldList f g es)
  | .yieldExpr a d => .yieldExpr (foldOption f g a) d
  | .placeholder n => .placeholder n

/-- Evaluates a list of drafts. -/
def foldList (f : Span → Kind β → β) (g : β → List (String × β) → β) : List Draft → List β
  | [] => []
  | d :: ds => fold f g d :: foldList f g ds

/-- Evaluates an optional draft. -/
def foldOption (f : Span → Kind β → β) (g : β → List (String × β) → β) : Option Draft → Option β
  | none => none
  | some d => some (fold f g d)

/-- Evaluates the draft of a computed key. -/
def foldKey (f : Span → Kind β → β) (g : β → List (String × β) → β) : Key Draft → Key β
  | .named n => .named n
  | .str v => .str v
  | .computed e => .computed (fold f g e)

/-- Evaluates the operands of a chain. -/
def foldLinks (f : Span → Kind β → β) (g : β → List (String × β) → β) :
    List (String × Draft) → List (String × β)
  | [] => []
  | (operator, d) :: links => (operator, fold f g d) :: foldLinks f g links

end

/-! ## Reading as a nested program -/

/-- Joins two operands; the span runs from the first to the second. -/
def join (operator : String) (left right : Ast Span) : Ast Span :=
  .node (left.note.cover right.note) (.binary operator left right)

/-- The nested program of a draft. -/
def resolve : Draft → Ast Span :=
  fold .node fun first rest => (Grouping.ofChain first rest).fold join

/-! ## Storing in a tree -/

/-- Stores the operands of a chain from left to right. -/
def plantLinks : List (String × Tree.Planting) → Tree → List (String × NodeId) × Tree :=
  Kind.mapStateList fun (operator, plant) t =>
    let (id, t) := plant t
    ((operator, id), t)

/-- Stores an operator over two stored operands. -/
def plantJoin (operator : String) (left right : NodeId) : Tree.Planting := fun t =>
  t.alloc (.binary operator left right) ((t.span left).cover (t.span right))

/-- Stores the operands of a chain, then its operators. -/
def plantChain (first : Tree.Planting) (rest : List (String × Tree.Planting)) : Tree.Planting :=
  fun t =>
    let (first, t) := first t
    let (rest, t) := plantLinks rest t
    (Grouping.ofChain first rest).foldState plantJoin t

/-- Stores the program of a draft in a tree. -/
def plant : Draft → Tree.Planting := fold Tree.plantLayer plantChain

/-- Stores a list of statements as the program of a fresh tree for the text. -/
def plantProgram (text : String) (body : List Draft) : Tree :=
  let (ids, t) := Kind.mapStateList plant body (Tree.ofText text)
  t.setProgramBody ids

end Draft

end LogLabel.Program
