import LogLabel.Program.Operator
import LogLabel.Program.Tree
import LogLabel.Text.Blank
import LogLabel.Text.Quoted

set_option autoImplicit false

/-!
# Printing programs

Programs are printed with two spaces of indentation and one statement a line.
Parentheses are not remembered: they are put where the binding powers of an
operator and its operand ask for them, and in a few places where binding power
alone does not decide.

`printBare` prints a node as it stands; `wrap` adds the parentheses that a position
asks for. `Ast.print` prints a whole program, `Tree.print` the program of a tree.
-/

namespace LogLabel.Program

/-! ## Binding powers -/

/-- Binding powers of expression positions; a higher power binds tighter. -/
inductive Power where
  | sequence
  | assign
  | conditional
  | binaryBase
  | unary
  | suffix
  | call
  | primary
deriving DecidableEq

/-- The number of a binding power. The powers of binary operators follow `binaryBase`. -/
def Power.rank : Power → Nat
  | .sequence => 1
  | .assign => 2
  | .conditional => 3
  | .binaryBase => 4
  | .unary => 16
  | .suffix => 17
  | .call => 18
  | .primary => 19

namespace Ast

variable {ι : Type}

/-- Binding power of a binary operator among expressions. -/
def binaryRank (operator : String) : Nat :=
  Power.rank .binaryBase + Operator.precedence operator

/-- Binding power of a node. -/
def rank : Ast ι → Nat
  | .node _ (.sequence _) => Power.rank .sequence
  | .node _ (.assign _ _ _) => Power.rank .assign
  | .node _ (.yieldExpr _ _) => Power.rank .assign
  | .node _ (.function h _) =>
      if h.form = .arrow then Power.rank .assign else Power.rank .primary
  | .node _ (.conditional _ _ _) => Power.rank .conditional
  | .node _ (.binary op _ _) => binaryRank op
  | .node _ (.unary _ _) => Power.rank .unary
  | .node _ (.update _ .before _) => Power.rank .unary
  | .node _ (.update _ .after _) => Power.rank .suffix
  | .node _ (.call _ _) => Power.rank .call
  | .node _ (.newExpr _ _) => Power.rank .call
  | .node _ (.member _ _) => Power.rank .call
  | _ => Power.rank .primary

/-! ## Questions about operands -/

/-- The kind of the node whose text starts the printed form of an expression: whether it is an
object, a class, or a function that is no arrow. -/
inductive Opening where
  | object
  | classDef
  | function
  | other
deriving DecidableEq

/-- What the printed form of an expression starts with. -/
def opening : Ast ι → Opening
  | .node _ (.call callee _) => opening callee
  | .node _ (.member object _) => opening object
  | .node _ (.binary _ left _) => opening left
  | .node _ (.assign _ target _) => opening target
  | .node _ (.conditional test _ _) => opening test
  | .node _ (.update _ .after argument) => opening argument
  | .node _ (.sequence (first :: _)) => opening first
  | .node _ (.object _) => .object
  | .node _ (.classDef _ _ _ _) => .classDef
  | .node _ (.function h _) => if h.form = .arrow then .other else .function
  | _ => .other

/-- Whether a call stands in the member chain of a constructor. Then the constructor is put in
parentheses, because its arguments would be taken for those of the call. -/
def hasCall : Ast ι → Bool
  | .node _ (.call _ _) => true
  | .node _ (.member object _) => hasCall object
  | _ => false

/-- Whether an operand is a bare integer, after which a point would be read as a decimal one. -/
def isBareInteger : Ast ι → Bool
  | .node _ (.number raw) => raw.toList.all fun c => c.isDigit || c == '_'
  | _ => false

/-- Whether an operator is one of the two logical ones that do not mix with `??`. -/
def isLogical (operator : String) : Bool := operator == "||" || operator == "&&"

/-- Whether an operand mixes `??` with `||` or `&&`. -/
def mixesNullish (operator : String) : Ast ι → Bool
  | .node _ (.binary inner _ _) =>
      (operator == "??" && isLogical inner) || (inner == "??" && isLogical operator)
  | _ => false

/-- Whether an operand starts with the sign of the operator before it. -/
def startsWithSign (operator : String) : Ast ι → Bool
  | .node _ (.unary inner _) => operator.toList.isPrefixOf inner.toList
  | .node _ (.update inner .before _) => operator.toList.isPrefixOf inner.toList
  | _ => false

/-- Whether an operator is written with letters. -/
def isWordOperator (operator : String) : Bool := operator.toList.all Char.isAlpha

/-- Whether a node is a block. -/
def isBlock (a : Ast ι) : Bool := a.kind.isBlock

/-- Whether a node is an `if` statement. -/
def isIf : Ast ι → Bool
  | .node _ (.ifStmt _ _ _) => true
  | _ => false

/-! ## Pieces of text -/

/-- Indentation at a depth. -/
def indent : Nat → String
  | 0 => ""
  | depth + 1 => "  " ++ indent depth

/-- Text in parentheses. -/
def parens (text : String) : String := "(" ++ text ++ ")"

/-- The text of an operand with the parentheses that its position asks for. -/
def wrap (floor : Nat) (a : Ast ι) (text : String) : String :=
  if a.rank < floor then parens text else text

/-- A parameter list. -/
def paramsText (params : List String) : String := parens (", ".intercalate params)

/-- An optional name after a space. -/
def nameText : Option String → String
  | none => ""
  | some name => " " ++ name

/-- A jump with its optional target. -/
def jumpText (word : String) (label : Option String) : String := word ++ nameText label ++ ";"

/-- The words before the name and the parameters of a function that is no arrow. -/
def functionWords (h : FunctionHead) : String :=
  (if h.isAsync then "async " else "") ++ "function" ++ (if h.isGenerator then "*" else "")

/-- The words before the key of a method. -/
def methodWords (h : MethodHead) : String :=
  (if h.isStatic then "static " else "")
    ++ (match h.kind with
        | .getter => "get "
        | .setter => "set "
        | _ => "")
    ++ (if h.isAsync then "async " else "")
    ++ (if h.isGenerator then "*" else "")

/-- What separates a prefix operator from its operand. -/
def unaryGap (operator : String) (argument : Ast ι) : String :=
  if isWordOperator operator then " " else if startsWithSign operator argument then " " else ""

/-- Least binding power of the left operand of an operator. -/
def leftFloor (operator : String) (left : Ast ι) : Nat :=
  if mixesNullish operator left then Power.rank .primary
  else if operator = "**" then Power.rank .suffix
  else binaryRank operator

/-- Least binding power of the right operand of an operator. -/
def rightFloor (operator : String) (right : Ast ι) : Nat :=
  if mixesNullish operator right then Power.rank .primary
  else if Operator.isRightAssociative operator then binaryRank operator
  else binaryRank operator + 1

/-- Whether an expression statement has to be put in parentheses: it may not start with a brace,
`function` or `class`. -/
def needsStatementParens (e : Ast ι) : Bool := opening e ≠ .other

/-- The text of a statement list between braces at a depth, given the lines inside. -/
def bracesText (depth : Nat) (lines : String) : String :=
  if lines = "" then "\x7b\x7d" else "\x7b\n" ++ lines ++ indent depth ++ "\x7d"

/-- The body of `if`, `else` or `while`, given its text at each depth: a block stays on the line,
and any other statement goes on the next line one level deeper. -/
def nestedText (depth : Nat) (a : Ast ι) (text : Nat → String) : String :=
  if isBlock a then " " ++ text depth else "\n" ++ indent (depth + 1) ++ text (depth + 1)

/-! ## Nodes -/

mutual

/-- The text of a node at a depth, without parentheses around it. -/
def printBare (depth : Nat) : Ast ι → String
  | .node _ (.program _) => ""
  | .node _ (.block body) => bracesText depth (printLines (depth + 1) body)
  | .node _ .empty => ";"
  | .node _ (.expression e) =>
      (if needsStatementParens e then parens (printBare depth e) else printBare depth e) ++ ";"
  | .node _ (.labeled label body) => label ++ ": " ++ printBare depth body
  | .node _ (.varDecl kind ds) => kind.word ++ " " ++ printDeclarators depth true ds ++ ";"
  | .node _ (.declarator _ _) => ""
  | .node _ (.returnStmt none) => "return;"
  | .node _ (.returnStmt (some a)) => "return " ++ printBare depth a ++ ";"
  | .node _ (.throwStmt a) => "throw " ++ printBare depth a ++ ";"
  | .node _ (.ifStmt test consequent none) =>
      "if " ++ parens (printBare depth test) ++ nestedText depth consequent (fun d => printBare d consequent)
  | .node _ (.ifStmt test consequent (some alternate)) =>
      "if " ++ parens (printBare depth test) ++ nestedText depth consequent (fun d => printBare d consequent)
        ++ (if isBlock consequent then " else" else "\n" ++ indent depth ++ "else")
        ++ (if isIf alternate then " " ++ printBare depth alternate
            else nestedText depth alternate (fun d => printBare d alternate))
  | .node _ (.whileStmt test body) =>
      "while " ++ parens (printBare depth test) ++ nestedText depth body (fun d => printBare d body)
  | .node _ (.breakStmt label) => jumpText "break" label
  | .node _ (.continueStmt label) => jumpText "continue" label
  | .node _ (.function h body) =>
      if h.form = .arrow then
        (if h.isAsync then "async " else "") ++ paramsText h.params ++ " => "
          ++ (if isBlock body then printBraced depth body
              else if opening body = .object then
                parens (wrap (Power.rank .assign) body (printBare depth body))
              else wrap (Power.rank .assign) body (printBare depth body))
      else
        functionWords h ++ nameText h.name ++ paramsText h.params ++ " " ++ printBraced depth body
  | .node _ (.classDef name none body _) =>
      "class" ++ nameText name ++ " " ++ printClassBody depth body
  | .node _ (.classDef name (some superclass) body _) =>
      "class" ++ nameText name ++ " extends "
        ++ wrap (Power.rank .call) superclass (printBare depth superclass)
        ++ " " ++ printClassBody depth body
  | .node _ (.classBody _) => ""
  | .node _ (.method key h body) =>
      methodWords h ++ printKey depth key ++ paramsText h.params ++ " " ++ printBraced depth body
  | .node _ (.ident name) => name
  | .node _ .this => "this"
  | .node _ (.number raw) => raw
  | .node _ (.str value) => Text.quote value
  | .node _ (.rawStr raw) => raw
  | .node _ (.bool value) => if value then "true" else "false"
  | .node _ .null => "null"
  | .node _ (.array elements) => "[" ++ printItems depth true elements ++ "]"
  | .node _ (.object []) => "\x7b\x7d"
  | .node _ (.object (p :: ps)) => "\x7b " ++ printProperties depth true (p :: ps) ++ " \x7d"
  | .node _ (.property key value shorthand) =>
      printKey depth key
        ++ (if shorthand then "" else ": " ++ wrap (Power.rank .assign) value (printBare depth value))
  | .node _ (.call callee arguments) =>
      wrap (Power.rank .call) callee (printBare depth callee)
        ++ parens (printItems depth true arguments)
  | .node _ (.newExpr callee arguments) =>
      "new "
        ++ (if hasCall callee then parens (printBare depth callee)
            else wrap (Power.rank .call) callee (printBare depth callee))
        ++ parens (printItems depth true arguments)
  | .node _ (.member object (.named name)) =>
      (if isBareInteger object then parens (printBare depth object)
        else wrap (Power.rank .call) object (printBare depth object))
        ++ "." ++ name
  | .node _ (.member object (.str value)) =>
      wrap (Power.rank .call) object (printBare depth object) ++ "[" ++ Text.quote value ++ "]"
  | .node _ (.member object (.computed e)) =>
      wrap (Power.rank .call) object (printBare depth object) ++ "[" ++ printBare depth e ++ "]"
  | .node _ (.unary operator argument) =>
      operator ++ unaryGap operator argument
        ++ wrap (Power.rank .unary) argument (printBare depth argument)
  | .node _ (.update operator .before argument) =>
      operator ++ wrap (Power.rank .unary) argument (printBare depth argument)
  | .node _ (.update operator .after argument) =>
      wrap (Power.rank .suffix) argument (printBare depth argument) ++ operator
  | .node _ (.binary operator left right) =>
      wrap (leftFloor operator left) left (printBare depth left)
        ++ " " ++ operator ++ " "
        ++ wrap (rightFloor operator right) right (printBare depth right)
  | .node _ (.conditional test consequent alternate) =>
      wrap (Power.rank .conditional + 1) test (printBare depth test)
        ++ " ? " ++ wrap (Power.rank .assign) consequent (printBare depth consequent)
        ++ " : " ++ wrap (Power.rank .assign) alternate (printBare depth alternate)
  | .node _ (.assign operator target value) =>
      wrap (Power.rank .suffix) target (printBare depth target)
        ++ " " ++ operator ++ " " ++ wrap (Power.rank .assign) value (printBare depth value)
  | .node _ (.sequence es) => printItems depth true es
  | .node _ (.yieldExpr none delegate) => "yield" ++ (if delegate then "*" else "")
  | .node _ (.yieldExpr (some a) delegate) =>
      "yield" ++ (if delegate then "*" else "") ++ " "
        ++ wrap (Power.rank .assign) a (printBare depth a)
  | .node _ (.placeholder name) => "%%" ++ name ++ "%%"

/-- The text of a node in the place of a function body: the statements of a scope in braces. -/
def printBraced (depth : Nat) : Ast ι → String
  | .node _ (.program body) => bracesText depth (printLines (depth + 1) body)
  | .node _ (.block body) => bracesText depth (printLines (depth + 1) body)
  | .node _ (.function _ (.node _ (.block body))) =>
      bracesText depth (printLines (depth + 1) body)
  | .node _ (.method _ _ (.node _ (.block body))) =>
      bracesText depth (printLines (depth + 1) body)
  | _ => bracesText depth ""

/-- Statements on lines of their own. -/
def printLines (depth : Nat) : List (Ast ι) → String
  | [] => ""
  | a :: as => indent depth ++ printBare depth a ++ "\n" ++ printLines depth as

/-- Declared variables with commas between them; other nodes print as nothing. -/
def printDeclarators (depth : Nat) (isFirst : Bool) : List (Ast ι) → String
  | [] => ""
  | a :: as =>
      (if isFirst then "" else ", ") ++ printDeclarator depth a ++ printDeclarators depth false as

/-- A declared variable. -/
def printDeclarator (depth : Nat) : Ast ι → String
  | .node _ (.declarator name none) => name
  | .node _ (.declarator name (some init)) =>
      name ++ " = " ++ wrap (Power.rank .assign) init (printBare depth init)
  | _ => ""

/-- The members of a class in braces. -/
def printClassBody (depth : Nat) : Ast ι → String
  | .node _ (.classBody members) => bracesText depth (printMembers (depth + 1) members)
  | _ => "\x7b\x7d"

/-- Class members on lines of their own. -/
def printMembers (depth : Nat) : List (Ast ι) → String
  | [] => ""
  | a :: as => indent depth ++ printMember depth a ++ "\n" ++ printMembers depth as

/-- A class member; other nodes print as nothing. -/
def printMember (depth : Nat) : Ast ι → String
  | .node _ (.method key h body) =>
      methodWords h ++ printKey depth key ++ paramsText h.params ++ " " ++ printBraced depth body
  | _ => ""

/-- Expressions with commas between them. -/
def printItems (depth : Nat) (isFirst : Bool) : List (Ast ι) → String
  | [] => ""
  | a :: as =>
      (if isFirst then "" else ", ") ++ wrap (Power.rank .assign) a (printBare depth a)
        ++ printItems depth false as

/-- Properties with commas between them. -/
def printProperties (depth : Nat) (isFirst : Bool) : List (Ast ι) → String
  | [] => ""
  | a :: as =>
      (if isFirst then "" else ", ") ++ printBare depth a ++ printProperties depth false as

/-- The key of a method or property. -/
def printKey (depth : Nat) : Key (Ast ι) → String
  | .named name => name
  | .str value => Text.quote value
  | .computed e => "[" ++ wrap (Power.rank .assign) e (printBare depth e) ++ "]"

end

/-- The text of a whole program. -/
def print (a : Ast ι) : String := printLines 0 a.statements

/-- The text of one statement or expression. Blanks at the end of a statement are dropped. -/
def printNode (a : Ast ι) : String :=
  if a.kind.isStatement then Text.trimEnd (printBare 0 a) else printBare 0 a

end Ast

/-- The text of the program in a tree. -/
def Tree.print (t : Tree) : String := t.program.print

/-- The text of one node of a tree. -/
def Tree.printNode (t : Tree) (id : NodeId) : String := (t.reading id).printNode

end LogLabel.Program
