import LogLabel.Peg.Match

set_option autoImplicit false

/-!
# Grammar of programs

The subset of JavaScript whose labels are expanded. Statements, functions,
classes and the expressions that occur in logging labels are covered; modules,
regular expressions, template strings, destructuring, `switch`, `try` and loops
other than `while` are not. Their keywords are reserved, so that a program using
them is refused instead of being misread.

A statement ends at a semicolon, before a closing brace, at the end of the text,
or at a line break that the next token cannot continue. Blanks between two parts
are skipped even where the second part matches nothing, so a rule that ends in an
optional part would swallow line breaks. Such rules are compound, with explicit
gaps, and the rules they call turn blanks on again.
-/

namespace LogLabel.Program

open Peg (Expr RuleDef Grammar)
open Peg.Expr (lit lits any seqs alts)

/-- The words that only mark a construct. -/
inductive Word where
  | function
  | classWord
  | extendsWord
  | returnWord
  | throwWord
  | ifWord
  | elseWord
  | whileWord
  | newWord
  | yieldWord
  | breakWord
  | continueWord
deriving DecidableEq

/-- The rules of the grammar. -/
inductive Rule where
  | program
  | endOfInput
  | keyword
  | identifier
  | identifierName
  | number
  | string
  | boolean
  | nullLiteral
  | thisLiteral
  | placeholder
  | word (w : Word)
  | varKind
  | asyncWord
  | staticWord
  | accessorWord
  | generatorStar
  | statement
  | block
  | emptyStmt
  | varDecl
  | declarator
  | returnStmt
  | throwStmt
  | breakStmt
  | continueStmt
  | ifStmt
  | whileStmt
  | labeledStmt
  | exprStmt
  | functionDecl
  | params
  | classDecl
  | heritage
  | classBody
  | method
  | computedKey
  | expression
  | assignment
  | assignExpr
  | assignOp
  | arrowFunction
  | arrowAsync
  | arrowParams
  | yieldExpr
  | yieldArgument
  | conditional
  | binary
  | binaryOp
  | unary
  | prefixOp
  | suffixed
  | suffixOp
  | callMember
  | newExpr
  | newCallee
  | arguments
  | memberDot
  | memberIndex
  | primary
  | paren
  | functionExpr
  | classExpr
  | array
  | object
  | property
  | shorthand
deriving DecidableEq

namespace Rule

/-! ## Lexical parts -/

/-- A parsing expression over the rules of programs. -/
abbrev Part := Expr Rule

/-- Characters of an identifier. -/
def isIdentChar (c : Char) : Bool := c.isAlphanum || c == '_' || c == '$'

/-- Characters that may start an identifier. -/
def isIdentStart (c : Char) : Bool := c.isAlpha || c == '_' || c == '$'

/-- Blank characters: space, tab, carriage return, line feed and the byte order mark. -/
def isBlankChar (c : Char) : Bool :=
  c == ' ' || c == '\t' || c == '\r' || c == '\n' || c == '\uFEFF'

/-- Blank characters that stay on the line. -/
def isInlineBlank (c : Char) : Bool := c == ' ' || c == '\t' || c == '\uFEFF'

/-- Not followed by a character of an identifier. -/
def wordEnd : Part := .absent (.one isIdentChar)

/-- A whole word. -/
def whole (s : String) : Part := .seq (lit s) wordEnd

/-- A marking word as it is written. -/
def spelled : Word → Part
  | .function => whole "function"
  | .classWord => whole "class"
  | .extendsWord => whole "extends"
  | .returnWord => whole "return"
  | .throwWord => whole "throw"
  | .ifWord => whole "if"
  | .elseWord => whole "else"
  | .whileWord => whole "while"
  | .newWord => whole "new"
  | .yieldWord => whole "yield"
  | .breakWord => whole "break"
  | .continueWord => whole "continue"

/-- The words that are no identifiers. -/
def reservedWords : List String :=
  ["var", "let", "const", "function", "class", "extends", "return", "if", "else", "while", "throw",
    "new", "this", "true", "false", "null", "typeof", "void", "delete", "instanceof", "in", "yield",
    "await", "break", "continue", "do", "for", "switch", "case", "default", "try", "catch",
    "finally", "import", "export", "debugger", "with", "enum"]

/-- Digits of a class, with single underscores between them. -/
def digits (accepts : Char → Bool) : Part :=
  .seq (.one accepts) (.star (.seq (.opt (lit "_")) (.one accepts)))

/-- Decimal digits. -/
def decimalDigits : Part := digits Char.isDigit

/-- Hexadecimal digits. -/
def isHexDigit (c : Char) : Bool :=
  c.isDigit || ('a' ≤ c && c ≤ 'f') || ('A' ≤ c && c ≤ 'F')

/-- Digits of a number with a base mark, and the mark of a big integer. -/
def based (marks : List String) (accepts : Char → Bool) : Part :=
  seqs [lits marks, digits accepts, .opt (lit "n")]

/-- The exponent of a decimal number. -/
def exponent : Part := seqs [lits ["e", "E"], .opt (lits ["+", "-"]), decimalDigits]

/-- A number of any form, without the check of what follows it. -/
def numeral : Part :=
  alts [
    based ["0x", "0X"] isHexDigit,
    based ["0b", "0B"] (fun c => c == '0' || c == '1'),
    based ["0o", "0O"] (fun c => '0' ≤ c && c ≤ '7'),
    .seq decimalDigits (lit "n"),
    .seq
      (.alt
        (.seq decimalDigits (.opt (.seq (lit ".") (.opt decimalDigits))))
        (.seq (lit ".") decimalDigits))
      (.opt exponent)]

/-- A string in the given quotes: an escaped character, or any but the quote, the backslash and a
line feed. -/
def quotedWith (quote : Char) : Part :=
  seqs [
    .text [quote],
    .star (.alt
      (.seq (lit "\\") any)
      (.one fun c => c != quote && c != '\\' && c != '\n')),
    .text [quote]]

/-- The apostrophe. -/
def apostrophe : Char := Char.ofNat 39

/-- The end of a block comment and everything before it. -/
def blockCommentRest : Part :=
  .seq (.star (.seq (.absent (lit "*/")) any)) (lit "*/")

/-- A block comment. -/
def blockComment : Part := .seq (lit "/*") blockCommentRest

/-- A comment up to the end of the line, or a block comment. -/
def comment : Part :=
  .alt (.seq (lit "//") (.star (.one (· != '\n')))) blockComment

/-- What may be skipped. -/
def blank : Part := .alt (.one isBlankChar) comment

/-- Any blanks. -/
def gap : Part := .star blank

/-- Blanks that stay on the line. -/
def inlineGap : Part :=
  .star (.alt
    (.one isInlineBlank)
    (seqs [
      lit "/*",
      .star (.seq (.absent (lit "*/")) (.one fun c => c != '\n' && c != '\r')),
      lit "*/"]))

/-- A line break ahead, or a block comment that spans one. -/
def lineBreak : Part :=
  .alt (.present (lits ["\n", "\r", "//"])) blockComment

/-- End of a simple statement. -/
def endOfStatement : Part :=
  .alt
    (.seq gap (lit ";"))
    (.seq inlineGap (alts [.present (lit "\x7d"), .absent any, lineBreak]))

/-- A word that marks a construct unless an opening parenthesis follows it. -/
def modifier (words : List String) : Part :=
  seqs [lits words, wordEnd, .absent (.seq (.star (.one isBlankChar)) (lit "("))]

/-! ## Short forms -/

/-- Matched as a captured rule. -/
def ref (r : Rule) : Part := .rule r

/-- A marking word. -/
def mark (w : Word) : Part := .rule (.word w)

/-- Items with commas between them and an optional comma after the last one. -/
def commaList (item : Part) : Part :=
  .opt (seqs [item, .star (.seq (lit ",") item), .opt (lit ",")])

/-- Items with commas and gaps between them. -/
def gapList (item : Part) : Part :=
  .seq item (.star (seqs [gap, lit ",", gap, item]))

/-- The key of a method or property. -/
def key : Part := alts [ref .identifierName, ref .string, ref .number, ref .computedKey]

/-- Form and body of each rule. -/
def define : Rule → RuleDef Rule
  | .program => ⟨.plain, seqs [.text [], .star (ref .statement), ref .endOfInput]⟩
  | .endOfInput => ⟨.plain, .absent any⟩
  | .keyword => ⟨.atomic, .seq (lits reservedWords) wordEnd⟩
  | .identifier =>
      ⟨.atomic, seqs [.absent (ref .keyword), .one isIdentStart, .star (.one isIdentChar)]⟩
  | .identifierName => ⟨.atomic, .seq (.one isIdentStart) (.star (.one isIdentChar))⟩
  | .number => ⟨.atomic, .seq numeral wordEnd⟩
  | .string => ⟨.atomic, .alt (quotedWith '"') (quotedWith apostrophe)⟩
  | .boolean => ⟨.atomic, .seq (lits ["true", "false"]) wordEnd⟩
  | .nullLiteral => ⟨.atomic, whole "null"⟩
  | .thisLiteral => ⟨.atomic, whole "this"⟩
  | .placeholder => ⟨.compound, seqs [lit "%%", ref .identifierName, lit "%%"]⟩
  | .word w => ⟨.atomic, spelled w⟩
  | .varKind => ⟨.atomic, .seq (lits ["const", "let", "var"]) wordEnd⟩
  | .asyncWord => ⟨.atomic, modifier ["async"]⟩
  | .staticWord => ⟨.atomic, modifier ["static"]⟩
  | .accessorWord => ⟨.atomic, modifier ["get", "set"]⟩
  | .generatorStar => ⟨.plain, lit "*"⟩
  | .statement =>
      ⟨.silent, alts [
        ref .block, ref .emptyStmt, ref .varDecl, ref .functionDecl, ref .classDecl,
        ref .returnStmt, ref .throwStmt, ref .breakStmt, ref .continueStmt, ref .ifStmt,
        ref .whileStmt, ref .labeledStmt, ref .exprStmt]⟩
  | .block => ⟨.spaced, seqs [lit "\x7b", .star (ref .statement), lit "\x7d"]⟩
  | .emptyStmt => ⟨.plain, lit ";"⟩
  | .varDecl =>
      ⟨.compound, seqs [ref .varKind, gap, gapList (ref .declarator), endOfStatement]⟩
  | .declarator =>
      ⟨.compound,
        .seq (ref .identifier) (.opt (seqs [gap, lit "=", gap, ref .assignment]))⟩
  | .returnStmt =>
      ⟨.compound,
        seqs [mark .returnWord, .opt (.seq inlineGap (ref .expression)), endOfStatement]⟩
  | .throwStmt =>
      ⟨.compound, seqs [mark .throwWord, inlineGap, ref .expression, endOfStatement]⟩
  | .breakStmt =>
      ⟨.compound, seqs [mark .breakWord, .opt (.seq inlineGap (ref .identifier)), endOfStatement]⟩
  | .continueStmt =>
      ⟨.compound,
        seqs [mark .continueWord, .opt (.seq inlineGap (ref .identifier)), endOfStatement]⟩
  | .ifStmt =>
      ⟨.plain, seqs [
        mark .ifWord, lit "(", ref .expression, lit ")", ref .statement,
        .opt (.seq (mark .elseWord) (ref .statement))]⟩
  | .whileStmt =>
      ⟨.plain, seqs [mark .whileWord, lit "(", ref .expression, lit ")", ref .statement]⟩
  | .labeledStmt => ⟨.plain, seqs [ref .identifier, lit ":", ref .statement]⟩
  | .exprStmt =>
      ⟨.compound, seqs [
        .absent (alts [
          lit "\x7b", mark .function, mark .classWord,
          seqs [ref .asyncWord, gap, mark .function]]),
        ref .expression, endOfStatement]⟩
  | .functionDecl =>
      ⟨.plain, seqs [
        .opt (ref .asyncWord), mark .function, .opt (ref .generatorStar), ref .identifier,
        ref .params, ref .block]⟩
  | .params => ⟨.spaced, seqs [lit "(", commaList (ref .identifier), lit ")"]⟩
  | .classDecl =>
      ⟨.plain, seqs [
        mark .classWord, ref .identifier, .opt (ref .heritage), ref .classBody]⟩
  | .heritage => ⟨.plain, .seq (mark .extendsWord) (ref .callMember)⟩
  | .classBody =>
      ⟨.plain, seqs [lit "\x7b", .star (.alt (ref .method) (lit ";")), lit "\x7d"]⟩
  | .method =>
      ⟨.plain, seqs [
        .opt (ref .staticWord), .opt (ref .accessorWord), .opt (ref .asyncWord),
        .opt (ref .generatorStar), key, ref .params, ref .block]⟩
  | .computedKey => ⟨.plain, seqs [lit "[", ref .assignment, lit "]"]⟩
  | .expression => ⟨.compound, gapList (ref .assignment)⟩
  | .assignment =>
      ⟨.silent,
        alts [ref .arrowFunction, ref .yieldExpr, ref .assignExpr, ref .conditional]⟩
  | .assignExpr => ⟨.spaced, seqs [ref .callMember, ref .assignOp, ref .assignment]⟩
  | .assignOp =>
      ⟨.atomic, .alt
        (.seq (lit "=") (.absent (lits ["=", ">"])))
        (lits ["+=", "-=", "**=", "*=", "/=", "%=", "<<=", ">>>=", ">>=", "&&=", "||=", "??=",
          "&=", "|=", "^="])⟩
  | .arrowFunction =>
      ⟨.spaced, seqs [
        .alt (.seq (ref .arrowAsync) (ref .arrowParams)) (ref .arrowParams),
        lit "=>", .alt (ref .block) (ref .assignment)]⟩
  | .arrowAsync => ⟨.atomic, whole "async"⟩
  | .arrowParams => ⟨.spaced, .alt (ref .identifier) (ref .params)⟩
  | .yieldExpr =>
      ⟨.compound, seqs [
        mark .yieldWord, .opt (.seq inlineGap (ref .generatorStar)),
        .opt (.seq inlineGap (ref .yieldArgument))]⟩
  | .yieldArgument => ⟨.spaced, ref .assignment⟩
  | .conditional =>
      ⟨.compound,
        .seq (ref .binary) (.opt (seqs [
          gap, lit "?", gap, ref .assignment, gap, lit ":", gap, ref .assignment]))⟩
  | .binary =>
      ⟨.compound,
        .seq (ref .unary) (.star (seqs [gap, ref .binaryOp, gap, ref .unary]))⟩
  | .binaryOp =>
      ⟨.atomic, alts [
        lits ["??", "||", "&&", "===", "!==", "==", "!=", "<=", ">=", ">>>", "<<", ">>", "**",
          "<", ">"],
        .seq (lit "+") (.absent (lit "+")),
        .seq (lit "-") (.absent (lit "-")),
        lits ["*", "/", "%", "&", "|", "^"],
        .seq (lits ["instanceof", "in"]) wordEnd]⟩
  | .unary =>
      ⟨.compound, .seq (.star (.seq (ref .prefixOp) gap)) (ref .suffixed)⟩
  | .prefixOp =>
      ⟨.atomic, .alt
        (lits ["++", "--", "!", "~", "+", "-"])
        (.seq (lits ["typeof", "void", "delete", "await"]) wordEnd)⟩
  | .suffixed =>
      ⟨.compound, .seq (ref .callMember) (.opt (.seq inlineGap (ref .suffixOp)))⟩
  | .suffixOp => ⟨.atomic, lits ["++", "--"]⟩
  | .callMember =>
      ⟨.compound,
        .seq (.alt (ref .newExpr) (ref .primary))
          (.star (.seq gap (alts [ref .arguments, ref .memberDot, ref .memberIndex])))⟩
  | .newExpr =>
      ⟨.compound, seqs [
        mark .newWord, gap, ref .newCallee, .opt (.seq gap (ref .arguments))]⟩
  | .newCallee =>
      ⟨.compound,
        .seq (ref .primary) (.star (.seq gap (.alt (ref .memberDot) (ref .memberIndex))))⟩
  | .arguments => ⟨.spaced, seqs [lit "(", commaList (ref .assignment), lit ")"]⟩
  | .memberDot => ⟨.spaced, .seq (lit ".") (ref .identifierName)⟩
  | .memberIndex => ⟨.spaced, seqs [lit "[", ref .expression, lit "]"]⟩
  | .primary =>
      ⟨.silent, alts [
        ref .number, ref .string, ref .boolean, ref .nullLiteral, ref .thisLiteral,
        ref .functionExpr, ref .classExpr, ref .array, ref .object, ref .placeholder,
        ref .identifier, ref .paren]⟩
  | .paren => ⟨.spaced, seqs [lit "(", ref .expression, lit ")"]⟩
  | .functionExpr =>
      ⟨.spaced, seqs [
        .alt (.seq (ref .asyncWord) (mark .function)) (mark .function),
        .opt (ref .generatorStar), .opt (ref .identifier), ref .params, ref .block]⟩
  | .classExpr =>
      ⟨.spaced, seqs [
        mark .classWord, .opt (ref .identifier), .opt (ref .heritage), ref .classBody]⟩
  | .array => ⟨.spaced, seqs [lit "[", commaList (ref .assignment), lit "]"]⟩
  | .object => ⟨.spaced, seqs [lit "\x7b", commaList (ref .property), lit "\x7d"]⟩
  | .property =>
      ⟨.spaced, .alt (seqs [key, lit ":", ref .assignment]) (ref .shorthand)⟩
  | .shorthand => ⟨.plain, ref .identifier⟩

end Rule

/-- The grammar of programs. -/
def grammar : Grammar Rule := ⟨Rule.define, Rule.blank⟩

end LogLabel.Program
