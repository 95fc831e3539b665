import LogLabel.Program.Span

set_option autoImplicit false

/-!
# Kinds of program nodes

`Kind α` is one layer of a program: what a node is, with its direct parts given
as values of `α`. With `α` the addresses of an arena a kind is a stored node;
with `α` the programs themselves it is the top layer of a nested program.

* `Kind.children` lists the direct parts in source order.
* `Kind.map` and `Kind.mapState` replace every part, the second one from left to
  right while threading a state.
* `Kind.isStatement` tells the kinds that may stand in a statement position.
-/

namespace LogLabel.Program

/-- The declaring word of a variable declaration. -/
inductive VarKind where
  | var
  | let_
  | const
deriving DecidableEq

/-- The word as it is written. -/
def VarKind.word : VarKind → String
  | .var => "var"
  | .let_ => "let"
  | .const => "const"

/-- How a function was written. -/
inductive FunctionForm where
  | declaration
  | expression
  | arrow
deriving DecidableEq

/-- The role of a class member. -/
inductive MethodKind where
  | method
  | constructor
  | getter
  | setter
deriving DecidableEq

/-- The side of its operand on which an update operator stands. -/
inductive Fixity where
  | before
  | after
deriving DecidableEq

/-- Name of a member, method or object property: an identifier or number printed as it is,
a quoted string, or a computed expression in brackets. -/
inductive Key (α : Type) where
  | named (name : String)
  | str (value : String)
  | computed (expr : α)
deriving DecidableEq

/-- What a function has besides its body. -/
structure FunctionHead where
  name : Option String
  params : List String
  form : FunctionForm
  isAsync : Bool
  isGenerator : Bool
deriving DecidableEq

/-- What a method has besides its key and its body. -/
structure MethodHead where
  kind : MethodKind
  isStatic : Bool
  isAsync : Bool
  isGenerator : Bool
  params : List String
deriving DecidableEq

/-- One layer of a program. A `rawStr` is a string literal kept as written because it denotes no
text; a `placeholder` is a slot of an alias template. -/
inductive Kind (α : Type) where
  | program (body : List α)
  | block (body : List α)
  | empty
  | expression (expr : α)
  | labeled (label : String) (body : α)
  | varDecl (kind : VarKind) (declarators : List α)
  | declarator (name : String) (init : Option α)
  | returnStmt (argument : Option α)
  | throwStmt (argument : α)
  | ifStmt (test consequent : α) (alternate : Option α)
  | whileStmt (test body : α)
  | breakStmt (label : Option String)
  | continueStmt (label : Option String)
  | function (head : FunctionHead) (body : α)
  | classDef (name : Option String) (superclass : Option α) (body : α) (isDeclaration : Bool)
  | classBody (members : List α)
  | method (key : Key α) (head : MethodHead) (body : α)
  | ident (name : String)
  | this
  | number (raw : String)
  | str (value : String)
  | rawStr (raw : String)
  | bool (value : Bool)
  | null
  | array (elements : List α)
  | object (properties : List α)
  | property (key : Key α) (value : α) (shorthand : Bool)
  | call (callee : α) (arguments : List α)
  | newExpr (callee : α) (arguments : List α)
  | member (object : α) (property : Key α)
  | unary (operator : String) (argument : α)
  | binary (operator : String) (left right : α)
  | conditional (test consequent alternate : α)
  | assign (operator : String) (target value : α)
  | update (operator : String) (fixity : Fixity) (argument : α)
  | sequence (expressions : List α)
  | yieldExpr (argument : Option α) (delegate : Bool)
  | placeholder (name : String)

variable {α β σ : Type}

/-- The part of a computed key, if there is one. -/
def Key.children : Key α → List α
  | .named _ => []
  | .str _ => []
  | .computed e => [e]

/-- A key with its part replaced. -/
def Key.map (f : α → β) : Key α → Key β
  | .named n => .named n
  | .str v => .str v
  | .computed e => .computed (f e)

/-- A key with its part replaced while a state is threaded. -/
def Key.mapState (f : α → σ → β × σ) : Key α → σ → Key β × σ
  | .named n, s => (.named n, s)
  | .str v, s => (.str v, s)
  | .computed e, s =>
      let (e, s) := f e s
      (.computed e, s)

namespace Kind

/-- Direct parts in source order. -/
def children : Kind α → List α
  | .program body => body
  | .block body => body
  | .empty => []
  | .expression e => [e]
  | .labeled _ body => [body]
  | .varDecl _ ds => ds
  | .declarator _ init => init.toList
  | .returnStmt a => a.toList
  | .throwStmt a => [a]
  | .ifStmt t c a => t :: c :: a.toList
  | .whileStmt t b => [t, b]
  | .breakStmt _ => []
  | .continueStmt _ => []
  | .function _ b => [b]
  | .classDef _ s b _ => s.toList ++ [b]
  | .classBody ms => ms
  | .method k _ b => k.children ++ [b]
  | .ident _ => []
  | .this => []
  | .number _ => []
  | .str _ => []
  | .rawStr _ => []
  | .bool _ => []
  | .null => []
  | .array es => es
  | .object ps => ps
  | .property k v _ => k.children ++ [v]
  | .call c as => c :: as
  | .newExpr c as => c :: as
  | .member o k => o :: k.children
  | .unary _ a => [a]
  | .binary _ l r => [l, r]
  | .conditional t c a => [t, c, a]
  | .assign _ t v => [t, v]
  | .update _ _ a => [a]
  | .sequence es => es
  | .yieldExpr a _ => a.toList
  | .placeholder _ => []

/-- The same layer with every part replaced. -/
def map (f : α → β) : Kind α → Kind β
  | .program body => .program (body.map f)
  | .block body => .block (body.map f)
  | .empty => .empty
  | .expression e => .expression (f e)
  | .labeled l body => .labeled l (f body)
  | .varDecl k ds => .varDecl k (ds.map f)
  | .declarator n init => .declarator n (init.map f)
  | .returnStmt a => .returnStmt (a.map f)
  | .throwStmt a => .throwStmt (f a)
  | .ifStmt t c a => .ifStmt (f t) (f c) (a.map f)
  | .whileStmt t b => .whileStmt (f t) (f b)
  | .breakStmt l => .breakStmt l
  | .continueStmt l => .continueStmt l
  | .function h b => .function h (f b)
  | .classDef n s b d => .classDef n (s.map f) (f b) d
  | .classBody ms => .classBody (ms.map f)
  | .method k h b => .method (k.map f) h (f b)
  | .ident n => .ident n
  | .this => .this
  | .number r => .number r
  | .str v => .str v
  | .rawStr r => .rawStr r
  | .bool b => .bool b
  | .null => .null
  | .array es => .array (es.map f)
  | .object ps => .object (ps.map f)
  | .property k v s => .property (k.map f) (f v) s
  | .call c as => .call (f c) (as.map f)
  | .newExpr c as => .newExpr (f c) (as.map f)
  | .member o k => .member (f o) (k.map f)
  | .unary op a => .unary op (f a)
  | .binary op l r => .binary op (f l) (f r)
  | .conditional t c a => .conditional (f t) (f c) (f a)
  | .assign op t v => .assign op (f t) (f v)
  | .update op x a => .update op x (f a)
  | .sequence es => .sequence (es.map f)
  | .yieldExpr a d => .yieldExpr (a.map f) d
  | .placeholder n => .placeholder n

/-- Every item of a list replaced from left to right while a state is threaded. -/
def mapStateList (f : α → σ → β × σ) : List α → σ → List β × σ
  | [], s => ([], s)
  | a :: as, s =>
      let (b, s) := f a s
      let (bs, s) := mapStateList f as s
      (b :: bs, s)

/-- An optional part replaced while a state is threaded. -/
def mapStateOption (f : α → σ → β × σ) : Option α → σ → Option β × σ
  | none, s => (none, s)
  | some a, s =>
      let (b, s) := f a s
      (some b, s)

/-- The same layer with every part replaced in source order while a state is threaded. -/
def mapState (f : α → σ → β × σ) : Kind α → σ → Kind β × σ
  | .program body, s =>
      let (body, s) := mapStateList f body s
      (.program body, s)
  | .block body, s =>
      let (body, s) := mapStateList f body s
      (.block body, s)
  | .empty, s => (.empty, s)
  | .expression e, s =>
      let (e, s) := f e s
      (.expression e, s)
  | .labeled l body, s =>
      let (body, s) := f body s
      (.labeled l body, s)
  | .varDecl k ds, s =>
      let (ds, s) := mapStateList f ds s
      (.varDecl k ds, s)
  | .declarator n init, s =>
      let (init, s) := mapStateOption f init s
      (.declarator n init, s)
  | .returnStmt a, s =>
      let (a, s) := mapStateOption f a s
      (.returnStmt a, s)
  | .throwStmt a, s =>
      let (a, s) := f a s
      (.throwStmt a, s)
  | .ifStmt t c a, s =>
      let (t, s) := f t s
      let (c, s) := f c s
      let (a, s) := mapStateOption f a s
      (.ifStmt t c a, s)
  | .whileStmt t b, s =>
      let (t, s) := f t s
      let (b, s) := f b s
      (.whileStmt t b, s)
  | .breakStmt l, s => (.breakStmt l, s)
  | .continueStmt l, s => (.continueStmt l, s)
  | .function h b, s =>
      let (b, s) := f b s
      (.function h b, s)
  | .classDef n p b d, s =>
      let (p, s) := mapStateOption f p s
      let (b, s) := f b s
      (.classDef n p b d, s)
  | .classBody ms, s =>
      let (ms, s) := mapStateList f ms s
      (.classBody ms, s)
  | .method k h b, s =>
      let (k, s) := k.mapState f s
      let (b, s) := f b s
      (.method k h b, s)
  | .ident n, s => (.ident n, s)
  | .this, s => (.this, s)
  | .number r, s => (.number r, s)
  | .str v, s => (.str v, s)
  | .rawStr r, s => (.rawStr r, s)
  | .bool b, s => (.bool b, s)
  | .null, s => (.null, s)
  | .array es, s =>
      let (es, s) := mapStateList f es s
      (.array es, s)
  | .object ps, s =>
      let (ps, s) := mapStateList f ps s
      (.object ps, s)
  | .property k v h, s =>
      let (k, s) := k.mapState f s
      let (v, s) := f v s
      (.property k v h, s)
  | .call c as, s =>
      let (c, s) := f c s
      let (as, s) := mapStateList f as s
      (.call c as, s)
  | .newExpr c as, s =>
      let (c, s) := f c s
      let (as, s) := mapStateList f as s
      (.newExpr c as, s)
  | .member o k, s =>
      let (o, s) := f o s
      let (k, s) := k.mapState f s
      (.member o k, s)
  | .unary op a, s =>
      let (a, s) := f a s
      (.unary op a, s)
  | .binary op l r, s =>
      let (l, s) := f l s
      let (r, s) := f r s
      (.binary op l r, s)
  | .conditional t c a, s =>
      let (t, s) := f t s
      let (c, s) := f c s
      let (a, s) := f a s
      (.conditional t c a, s)
  | .assign op t v, s =>
      let (t, s) := f t s
      let (v, s) := f v s
      (.assign op t v, s)
  | .update op x a, s =>
      let (a, s) := f a s
      (.update op x a, s)
  | .sequence es, s =>
      let (es, s) := mapStateList f es s
      (.sequence es, s)
  | .yieldExpr a d, s =>
      let (a, s) := mapStateOption f a s
      (.yieldExpr a d, s)
  | .placeholder n, s => (.placeholder n, s)

/-- Kinds that may stand in a statement position. -/
def isStatement : Kind α → Bool
  | .block _ => true
  | .empty => true
  | .expression _ => true
  | .labeled _ _ => true
  | .varDecl _ _ => true
  | .returnStmt _ => true
  | .throwStmt _ => true
  | .ifStmt _ _ _ => true
  | .whileStmt _ _ => true
  | .breakStmt _ => true
  | .continueStmt _ => true
  | .function h _ => h.form == .declaration
  | .classDef _ _ _ d => d
  | _ => false

/-- Whether the kind is the program. -/
def isProgram : Kind α → Bool
  | .program _ => true
  | _ => false

/-- Whether the kind is a block. -/
def isBlock : Kind α → Bool
  | .block _ => true
  | _ => false

/-- Whether the kind is a function of any form. -/
def isFunction : Kind α → Bool
  | .function _ _ => true
  | _ => false

/-- Whether the kind is a class. -/
def isClass : Kind α → Bool
  | .classDef _ _ _ _ => true
  | _ => false

/-- Whether the kind is the body of a class. -/
def isClassBody : Kind α → Bool
  | .classBody _ => true
  | _ => false

/-- Whether the kind is a class member. -/
def isMethod : Kind α → Bool
  | .method _ _ _ => true
  | _ => false

/-- Whether the kind is a labeled statement. -/
def isLabeled : Kind α → Bool
  | .labeled _ _ => true
  | _ => false

end Kind

end LogLabel.Program
