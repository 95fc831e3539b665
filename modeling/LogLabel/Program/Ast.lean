import LogLabel.Program.Kind

set_option autoImplicit false

/-!
# Nested programs

`Ast ι` is a whole program as a nested value, with a note of type `ι` on every
node: its span, its address in an arena, or nothing. Functions that do not
depend on the notes, such as the printer, are written once for all of them.

`Ast.fold` is the one recursion over nested programs that most operations need:
a step turns a layer whose parts are already results into a result.
-/

namespace LogLabel.Program

/-- A program with a note on every node. -/
inductive Ast (ι : Type) where
  | node (note : ι) (kind : Kind (Ast ι))

namespace Ast

variable {ι κ β : Type}

/-- The note of the top node. -/
def note : Ast ι → ι
  | .node i _ => i

/-- The top layer. -/
def kind : Ast ι → Kind (Ast ι)
  | .node _ k => k

mutual

/-- Bottom-up evaluation: `f` sees the note of a node and its layer of results. -/
def fold (f : ι → Kind β → β) : Ast ι → β
  | .node i k => f i (foldKind f k)

/-- Evaluates the parts of a layer. -/
def foldKind (f : ι → Kind β → β) : Kind (Ast ι) → Kind β
  | .program body => .program (foldList f body)
  | .block body => .block (foldList f body)
  | .empty => .empty
  | .expression e => .expression (fold f e)
  | .labeled l body => .labeled l (fold f body)
  | .varDecl k ds => .varDecl k (foldList f ds)
  | .declarator n init => .declarator n (foldOption f init)
  | .returnStmt a => .returnStmt (foldOption f a)
  | .throwStmt a => .throwStmt (fold f a)
  | .ifStmt t c a => .ifStmt (fold f t) (fold f c) (foldOption f a)
  | .whileStmt t b => .whileStmt (fold f t) (fold f b)
  | .breakStmt l => .breakStmt l
  | .continueStmt l => .continueStmt l
  | .function h b => .function h (fold f b)
  | .classDef n s b d => .classDef n (foldOption f s) (fold f b) d
  | .classBody ms => .classBody (foldList f ms)
  | .method k h b => .method (foldKey f k) h (fold f b)
  | .ident n => .ident n
  | .this => .this
  | .number r => .number r
  | .str v => .str v
  | .rawStr r => .rawStr r
  | .bool b => .bool b
  | .null => .null
  | .array es => .array (foldList f es)
  | .object ps => .object (foldList f ps)
  | .property k v s => .property (foldKey f k) (fold f v) s
  | .call c as => .call (fold f c) (foldList f as)
  | .newExpr c as => .newExpr (fold f c) (foldList f as)
  | .member o k => .member (fold f o) (foldKey f k)
  | .unary op a => .unary op (fold f a)
  | .binary op l r => .binary op (fold f l) (fold f r)
  | .conditional t c a => .conditional (fold f t) (fold f c) (fold f a)
  | .assign op t v => .assign op (fold f t) (fold f v)
  | .update op x a => .update op x (fold f a)
  | .sequence es => .sequence (foldList f es)
  | .yieldExpr a d => .yieldExpr (foldOption f a) d
  | .placeholder n => .placeholder n

/-- Evaluates a list of programs. -/
def foldList (f : ι → Kind β → β) : List (Ast ι) → List β
  | [] => []
  | a :: as => fold f a :: foldList f as

/-- Evaluates an optional program. -/
def foldOption (f : ι → Kind β → β) : Option (Ast ι) → Option β
  | none => none
  | some a => some (fold f a)

/-- Evaluates the program of a computed key. -/
def foldKey (f : ι → Kind β → β) : Key (Ast ι) → Key β
  | .named n => .named n
  | .str v => .str v
  | .computed e => .computed (fold f e)

end

/-- The same program with other notes. -/
def mapNotes (f : ι → κ) : Ast ι → Ast κ :=
  fold fun i k => .node (f i) k

/-- The program alone: two programs with the same bare form differ in their notes only. -/
def bare : Ast ι → Ast Unit :=
  mapNotes fun _ => ()

/-- Statement list of a scope: the body of a program or block, or the body block of a function or
method; empty for anything else. -/
def statements : Ast ι → List (Ast ι)
  | .node _ (.program body) => body
  | .node _ (.block body) => body
  | .node _ (.function _ (.node _ (.block body))) => body
  | .node _ (.method _ _ (.node _ (.block body))) => body
  | _ => []

end Ast

end LogLabel.Program
