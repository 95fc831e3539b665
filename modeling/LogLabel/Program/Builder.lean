import LogLabel.Program.Tree

set_option autoImplicit false

/-!
# Nodes made by a program

Short forms for storing the nodes a synthesizer makes. Each one stores a detached
node and gives its address; it is attached by replacing another node or as a part
of a further node.
-/

namespace LogLabel.Program.Tree

/-- Stores an identifier. -/
def addIdent (t : Tree) (name : String) (span : Span) : NodeId × Tree := t.alloc (.ident name) span

/-- Stores a string literal. -/
def addString (t : Tree) (value : String) (span : Span) : NodeId × Tree := t.alloc (.str value) span

/-- Stores a number written in decimal. -/
def addNumber (t : Tree) (value : Nat) (span : Span) : NodeId × Tree :=
  t.alloc (.number (toString value)) span

/-- Stores a truth value. -/
def addBool (t : Tree) (value : Bool) (span : Span) : NodeId × Tree := t.alloc (.bool value) span

/-- Stores an array literal. -/
def addArray (t : Tree) (elements : List NodeId) (span : Span) : NodeId × Tree :=
  t.alloc (.array elements) span

/-- Stores an array literal of string literals. -/
def addStrings (t : Tree) (values : List String) (span : Span) : NodeId × Tree :=
  let (elements, t) := Kind.mapStateList (fun value (t : Tree) => t.addString value span) values t
  t.addArray elements span

/-- Stores an object literal with plain keys in the given order. -/
def addObject (t : Tree) (entries : List (String × NodeId)) (span : Span) : NodeId × Tree :=
  let (properties, t) :=
    Kind.mapStateList
      (fun (entry : String × NodeId) (t : Tree) =>
        t.alloc (.property (.named entry.1) entry.2 false) span)
      entries t
  t.alloc (.object properties) span

/-- Stores a call. -/
def addCall (t : Tree) (callee : NodeId) (arguments : List NodeId) (span : Span) : NodeId × Tree :=
  t.alloc (.call callee arguments) span

/-- Stores an expression statement. -/
def addStatement (t : Tree) (expr : NodeId) (span : Span) : NodeId × Tree :=
  t.alloc (.expression expr) span

/-- Wraps an expression in a statement of the same span; a statement stays as it is. -/
def ensureStatement (t : Tree) (id : NodeId) : NodeId × Tree :=
  if (t.kind id).isStatement then (id, t) else t.addStatement id (t.span id)

end LogLabel.Program.Tree
