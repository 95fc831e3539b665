import LogLabel.Program.Grammar

set_option autoImplicit false

/-!
# Parts of captured rules

A captured rule is built from the rules captured directly inside of it. `Rule.takes` says which
lists of them a rule can be built from: every part that is needed has to be there, and a part
of a rule that is not known in its place is refused.
-/

namespace LogLabel.Program.Rule

/-! ## Places -/

/-- The rules that are known in the place of a statement. -/
def isStatementPart : Rule → Bool
  | .block | .emptyStmt | .varDecl | .functionDecl | .classDecl | .returnStmt | .throwStmt
  | .breakStmt | .continueStmt | .ifStmt | .whileStmt | .labeledStmt | .exprStmt => true
  | _ => false

/-- The rules that are known in the place of an expression. -/
def isExpressionPart : Rule → Bool
  | .expression | .assignExpr | .arrowFunction | .yieldExpr | .yieldArgument | .conditional
  | .binary | .unary | .suffixed | .callMember | .newCallee | .newExpr | .paren | .number | .string
  | .boolean | .nullLiteral | .thisLiteral | .identifier | .placeholder | .functionExpr
  | .classExpr | .array | .object => true
  | _ => false

/-- The rules that are known in the place of a key. -/
def isKeyPart : Rule → Bool
  | .identifierName | .string | .number | .computedKey => true
  | _ => false

/-- The rules that are known behind the operand of a call or an access. -/
def isSuffixPart : Rule → Bool
  | .arguments | .memberDot | .memberIndex => true
  | _ => false

/-- The rules that are known before the parameters of a function. -/
def isFunctionPart : Rule → Bool
  | .word .function | .asyncWord | .generatorStar | .identifier => true
  | _ => false

/-- The rules that are known at the front of a class. -/
def isClassPart : Rule → Bool
  | .word .classWord | .identifier => true
  | _ => false

/-- The rules that are known before the key of a class member. -/
def isMethodPart : Rule → Bool
  | .staticWord | .accessorWord | .asyncWord | .generatorStar => true
  | _ => false

/-- The rules that are built from their text alone. -/
def isToken : Rule → Bool
  | .endOfInput | .keyword | .identifier | .identifierName | .number | .string | .boolean
  | .nullLiteral | .thisLiteral | .word _ | .varKind | .asyncWord | .staticWord | .accessorWord
  | .generatorStar | .assignOp | .arrowAsync | .binaryOp | .prefixOp | .suffixOp => true
  | _ => false

/-! ## Lists of parts -/

/-- One operand. -/
def isOperand : List Rule → Bool
  | [operand] => operand.isExpressionPart
  | _ => false

/-- Binary operators, each with an operand behind it. -/
def areLinks : List Rule → Bool
  | [] => true
  | .binaryOp :: operand :: parts => operand.isExpressionPart && areLinks parts
  | _ => false

/-- An operand with prefix operators before it. -/
def arePrefixed : List Rule → Bool
  | [operand] => operand.isExpressionPart
  | .prefixOp :: parts => arePrefixed parts
  | _ => false

/-- An operand with calls and accesses behind it. -/
def areSuffixed : List Rule → Bool
  | operand :: parts => operand.isExpressionPart && parts.all isSuffixPart
  | [] => false

/-- The parts of a function, of which the last two are its parameters and its body. -/
def areFunctionParts (parts : List Rule) : Bool :=
  match parts.reverse with
  | .block :: .params :: parts => parts.all isFunctionPart
  | _ => false

/-- The parts of a class, of which the last one is its body, with the superclass before it. -/
def areClassParts (parts : List Rule) : Bool :=
  match parts.reverse with
  | .classBody :: .heritage :: parts => parts.all isClassPart
  | .classBody :: parts => parts.all isClassPart
  | _ => false

/-- The parts of a class member, of which the last three are its key, its parameters and its body. -/
def areMethodParts (parts : List Rule) : Bool :=
  match parts.reverse with
  | .block :: .params :: key :: parts => key.isKeyPart && parts.all isMethodPart
  | _ => false

/-- Whether a rule can be built from parts of the given rules. -/
@[simp]
def takes (rule : Rule) (parts : List Rule) : Bool :=
  match rule with
  | .program => (parts.filter (· ≠ .endOfInput)).all isStatementPart
  | .block => parts.all isStatementPart
  | .emptyStmt => parts.isEmpty
  | .varDecl =>
      match parts with
      | .varKind :: parts => parts.all (· = .declarator)
      | _ => false
  | .declarator =>
      match parts with
      | [.identifier] => true
      | [.identifier, init] => init.isExpressionPart
      | _ => false
  | .functionDecl | .functionExpr => areFunctionParts parts
  | .params => parts.all (· = .identifier)
  | .classDecl | .classExpr => areClassParts parts
  | .heritage =>
      match parts with
      | [.word .extendsWord, superclass] => superclass.isExpressionPart
      | _ => false
  | .classBody => parts.all (· = .method)
  | .method => areMethodParts parts
  | .computedKey | .exprStmt | .yieldArgument | .memberIndex | .paren => isOperand parts
  | .returnStmt =>
      match parts with
      | [.word .returnWord] => true
      | [.word .returnWord, argument] => argument.isExpressionPart
      | _ => false
  | .throwStmt =>
      match parts with
      | [.word .throwWord, argument] => argument.isExpressionPart
      | _ => false
  | .breakStmt =>
      match parts with
      | [.word .breakWord] => true
      | [.word .breakWord, .identifier] => true
      | _ => false
  | .continueStmt =>
      match parts with
      | [.word .continueWord] => true
      | [.word .continueWord, .identifier] => true
      | _ => false
  | .ifStmt =>
      match parts with
      | [.word .ifWord, test, body] => test.isExpressionPart && body.isStatementPart
      | [.word .ifWord, test, body, .word .elseWord, alternate] =>
          test.isExpressionPart && body.isStatementPart && alternate.isStatementPart
      | _ => false
  | .whileStmt =>
      match parts with
      | [.word .whileWord, test, body] => test.isExpressionPart && body.isStatementPart
      | _ => false
  | .labeledStmt =>
      match parts with
      | [.identifier, body] => body.isStatementPart
      | _ => false
  | .expression => !parts.isEmpty && parts.all isExpressionPart
  | .assignExpr =>
      match parts with
      | [target, .assignOp, value] => target.isExpressionPart && value.isExpressionPart
      | _ => false
  | .arrowFunction =>
      match parts with
      | [.arrowParams, body] => body = .block || body.isExpressionPart
      | [.arrowAsync, .arrowParams, body] => body = .block || body.isExpressionPart
      | _ => false
  | .arrowParams =>
      match parts with
      | [.identifier] => true
      | [.params] => true
      | _ => false
  | .yieldExpr =>
      match parts with
      | [.word .yieldWord] => true
      | [.word .yieldWord, .generatorStar] => true
      | [.word .yieldWord, argument] => argument.isExpressionPart
      | [.word .yieldWord, .generatorStar, argument] => argument.isExpressionPart
      | _ => false
  | .conditional =>
      match parts with
      | [test] => test.isExpressionPart
      | [test, consequent, alternate] =>
          test.isExpressionPart && consequent.isExpressionPart && alternate.isExpressionPart
      | _ => false
  | .binary =>
      match parts with
      | operand :: parts => operand.isExpressionPart && areLinks parts
      | [] => false
  | .unary => arePrefixed parts
  | .suffixed =>
      match parts with
      | [operand] => operand.isExpressionPart
      | [operand, .suffixOp] => operand.isExpressionPart
      | _ => false
  | .callMember | .newCallee => areSuffixed parts
  | .newExpr =>
      match parts with
      | [.word .newWord, callee] => callee.isExpressionPart
      | [.word .newWord, callee, .arguments] => callee.isExpressionPart
      | _ => false
  | .arguments | .array => parts.all isExpressionPart
  | .memberDot | .placeholder =>
      match parts with
      | [.identifierName] => true
      | _ => false
  | .object => parts.all (· = .property)
  | .property =>
      match parts with
      | [.shorthand] => true
      | [key, value] => key.isKeyPart && value.isExpressionPart
      | _ => false
  | .shorthand =>
      match parts with
      | [.identifier] => true
      | _ => false
  | .statement | .assignment | .primary => false
  | _ => rule.isToken && parts.isEmpty

end LogLabel.Program.Rule
