import LogLabel.Program.Draft
import LogLabel.Program.Parts
import LogLabel.Text.Quoted

set_option autoImplicit false

/-!
# Reading programs

A text is matched against the grammar, and the captures are assembled bottom-up
into drafts: `Piece.assemble` says for each rule how the pieces captured inside it
make up the piece of the rule. A capture whose parts its rule does not take is refused, and so
is a template slot in a source file.

* `draftsIn` reads the statements of a text.
* `read` gives the nested programs of the statements, and `parse` stores them in a
  tree.
-/

namespace LogLabel.Program

open Peg (Capture)

/-- What is read: a source file, or the template of an alias. -/
inductive Mode where
  | source
  | template
deriving DecidableEq

/-- What a captured rule contributes to the rule around it. -/
inductive Piece where
  /-- A rule captured as text: a name, a literal, an operator or a word. -/
  | token (rule : Rule) (span : Span) (text : String)
  /-- A statement or expression. -/
  | draft (d : Draft)
  /-- Parameter names. -/
  | names (ns : List String)
  /-- The expression after `extends`. -/
  | superclass (d : Draft)
  /-- A computed key. -/
  | computed (d : Draft)
  /-- Arguments of a call that ends at `stop`. -/
  | arguments (stop : Nat) (ds : List Draft)
  /-- Access to a named member, ending at `stop`. -/
  | dot (stop : Nat) (name : String)
  /-- Access to a computed member, ending at `stop`. -/
  | index (stop : Nat) (d : Draft)

namespace Piece

/-- A string literal: its text, or the literal as written when it denotes none. -/
def stringKind {α : Type} (raw : String) : Kind α :=
  match Text.decodeLiteral raw with
  | some value => .str value
  | none => .rawStr raw

/-- The statement or expression that a piece is. -/
def draft? : Piece → Option Draft
  | .draft d => some d
  | .token .number s t => some (.node s (.number t))
  | .token .string s t => some (.node s (stringKind t))
  | .token .boolean s t => some (.node s (.bool (t == "true")))
  | .token .nullLiteral s _ => some (.node s .null)
  | .token .thisLiteral s _ => some (.node s .this)
  | .token .identifier s t => some (.node s (.ident t))
  | _ => none

/-- The key that a piece is. -/
def key? : Piece → Option (Key Draft)
  | .token .identifierName _ t => some (.named t)
  | .token .number _ t => some (.named t)
  | .token .string _ t =>
      match Text.decodeLiteral t with
      | some value => some (.str value)
      | none => some (.named t)
  | .computed d => some (.computed d)
  | _ => none

/-- The name that a piece is. -/
def name? : Piece → Option String
  | .token .identifier _ t => some t
  | _ => none

/-- The parameter names that a piece is. -/
def names? : Piece → Option (List String)
  | .names ns => some ns
  | _ => none

/-- The superclass that a piece is. -/
def superclass? : Piece → Option Draft
  | .superclass d => some d
  | _ => none

/-- Whether a piece is a token of the given rule. -/
def isToken (rule : Rule) : Piece → Bool
  | .token r _ _ => r = rule
  | _ => false

/-- Whether a piece is a word that only marks a construct. -/
def isMark : Piece → Bool
  | .token (.word _) _ _ => true
  | _ => false

/-- A node as a piece. -/
def node (span : Span) (kind : Kind Draft) : Option Piece := some (.draft (.node span kind))

/-- Links of a chain: operators and operands in turn. -/
def links? : List Piece → Option (List (String × Draft))
  | [] => some []
  | .token .binaryOp _ op :: operand :: ps =>
      match operand.draft?, links? ps with
      | some d, some links => some ((op, d) :: links)
      | _, _ => none
  | _ => none

/-- Applies prefix operators to an operand that ends at `stop`, the last one first. -/
def prefixed? (stop : Nat) : List Piece → Option Draft
  | [] => none
  | [p] => p.draft?
  | .token .prefixOp s op :: ps =>
      (prefixed? stop ps).map fun d =>
        .node ⟨s.start, stop⟩ (if op = "++" ∨ op = "--" then .update op .before d else .unary op d)
  | _ => none

/-- Applies calls and member accesses to what starts at `start`. -/
def suffixed? (start : Nat) (d : Draft) : List Piece → Option Draft
  | [] => some d
  | .arguments stop ds :: ps => suffixed? start (.node ⟨start, stop⟩ (.call d ds)) ps
  | .dot stop name :: ps => suffixed? start (.node ⟨start, stop⟩ (.member d (.named name))) ps
  | .index stop e :: ps => suffixed? start (.node ⟨start, stop⟩ (.member d (.computed e))) ps
  | _ => none

/-- A function from its pieces, of which the last is the body. -/
def function? (span : Span) (form : FunctionForm) (ps : List Piece) : Option Piece :=
  match ps.getLast?.bind draft? with
  | some body =>
      node span (.function
        { name := ps.findSome? name?
          params := (ps.findSome? names?).getD []
          form := form
          isAsync := ps.any (isToken .asyncWord)
          isGenerator := ps.any (isToken .generatorStar) }
        body)
  | none => none

/-- A class from its pieces, of which the last is the body. -/
def class? (span : Span) (isDeclaration : Bool) (ps : List Piece) : Option Piece :=
  match ps.getLast?.bind draft? with
  | some body =>
      node span
        (.classDef (ps.findSome? name?) (ps.findSome? superclass?) body isDeclaration)
  | none => none

/-- The role of a member from its accessor word, its key and whether it is static. -/
def methodKind (ps : List Piece) (isStatic : Bool) (key : Key Draft) : MethodKind :=
  match ps.find? (isToken .accessorWord) with
  | some (.token _ _ word) => if word = "get" then .getter else .setter
  | _ =>
      match key with
      | .named "constructor" => if isStatic then .method else .constructor
      | _ => .method

/-- A class member from its pieces, of which the last is the body. -/
def method? (span : Span) (ps : List Piece) : Option Piece :=
  match ps.findSome? key?, ps.getLast?.bind draft? with
  | some key, some body =>
      let isStatic := ps.any (isToken .staticWord)
      node span (.method key
        { kind := methodKind ps isStatic key
          isStatic := isStatic
          isAsync := ps.any (isToken .asyncWord)
          isGenerator := ps.any (isToken .generatorStar)
          params := (ps.findSome? names?).getD [] }
        body)
  | _, _ => none

/-- The declaring word of a declaration. -/
def varKind (word : String) : VarKind :=
  if word = "const" then .const else if word = "let" then .let_ else .var

/-- The piece of a captured rule from the pieces captured inside it, words that only mark the
construct left out. -/
def assembleParts (rule : Rule) (span : Span) (text : Unit → String) (ps : List Piece) :
    Option Piece :=
  match rule, ps with
  | .block, ps => (ps.mapM draft?).bind fun body => node span (.block body)
  | .emptyStmt, _ => node span .empty
  | .varDecl, .token .varKind _ word :: ps =>
      (ps.mapM draft?).bind fun ds => node span (.varDecl (varKind word) ds)
  | .declarator, [.token .identifier _ name] => node span (.declarator name none)
  | .declarator, [.token .identifier _ name, init] =>
      init.draft?.bind fun d => node span (.declarator name (some d))
  | .functionDecl, ps => function? span .declaration ps
  | .functionExpr, ps => function? span .expression ps
  | .classDecl, ps => class? span true ps
  | .classExpr, ps => class? span false ps
  | .classBody, ps => (ps.mapM draft?).bind fun ms => node span (.classBody ms)
  | .heritage, [p] => p.draft?.map .superclass
  | .method, ps => method? span ps
  | .computedKey, [p] => p.draft?.map .computed
  | .params, ps => (ps.mapM name?).map .names
  | .returnStmt, [] => node span (.returnStmt none)
  | .returnStmt, [p] => p.draft?.bind fun d => node span (.returnStmt (some d))
  | .throwStmt, [p] => p.draft?.bind fun d => node span (.throwStmt d)
  | .breakStmt, [] => node span (.breakStmt none)
  | .breakStmt, [.token .identifier _ label] => node span (.breakStmt (some label))
  | .continueStmt, [] => node span (.continueStmt none)
  | .continueStmt, [.token .identifier _ label] => node span (.continueStmt (some label))
  | .ifStmt, [test, consequent] =>
      match test.draft?, consequent.draft? with
      | some t, some c => node span (.ifStmt t c none)
      | _, _ => none
  | .ifStmt, [test, consequent, alternate] =>
      match test.draft?, consequent.draft?, alternate.draft? with
      | some t, some c, some a => node span (.ifStmt t c (some a))
      | _, _, _ => none
  | .whileStmt, [test, body] =>
      match test.draft?, body.draft? with
      | some t, some b => node span (.whileStmt t b)
      | _, _ => none
  | .labeledStmt, [.token .identifier _ label, body] =>
      body.draft?.bind fun b => node span (.labeled label b)
  | .exprStmt, [p] => p.draft?.bind fun e => node span (.expression e)
  | .expression, [p] => some p
  | .expression, ps => (ps.mapM draft?).bind fun es => node span (.sequence es)
  | .assignExpr, [target, .token .assignOp _ op, value] =>
      match target.draft?, value.draft? with
      | some t, some v => node span (.assign op t v)
      | _, _ => none
  | .arrowParams, [.token .identifier _ name] => some (.names [name])
  | .arrowParams, [.names ns] => some (.names ns)
  | .arrowFunction, .token .arrowAsync _ _ :: [.names ns, body] =>
      body.draft?.bind fun b => node span (.function ⟨none, ns, .arrow, true, false⟩ b)
  | .arrowFunction, [.names ns, body] =>
      body.draft?.bind fun b => node span (.function ⟨none, ns, .arrow, false, false⟩ b)
  | .yieldExpr, [] => node span (.yieldExpr none false)
  | .yieldExpr, [.token .generatorStar _ _] => node span (.yieldExpr none true)
  | .yieldExpr, [.token .generatorStar _ _, p] =>
      p.draft?.bind fun d => node span (.yieldExpr (some d) true)
  | .yieldExpr, [p] => p.draft?.bind fun d => node span (.yieldExpr (some d) false)
  | .yieldArgument, [p] => some p
  | .conditional, [p] => some p
  | .conditional, [test, consequent, alternate] =>
      match test.draft?, consequent.draft?, alternate.draft? with
      | some t, some c, some a => node span (.conditional t c a)
      | _, _, _ => none
  | .binary, first :: rest =>
      match first.draft?, links? rest with
      | some d, some links => some (.draft (.ofChain d links))
      | _, _ => none
  | .unary, ps => (prefixed? span.stop ps).map .draft
  | .suffixed, [p] => some p
  | .suffixed, [p, .token .suffixOp _ op] =>
      p.draft?.bind fun d => node span (.update op .after d)
  | .callMember, first :: rest =>
      first.draft?.bind fun d => (suffixed? span.start d rest).map .draft
  | .newCallee, first :: rest =>
      first.draft?.bind fun d => (suffixed? span.start d rest).map .draft
  | .newExpr, [callee] => callee.draft?.bind fun d => node span (.newExpr d [])
  | .newExpr, [callee, .arguments _ as] => callee.draft?.bind fun d => node span (.newExpr d as)
  | .arguments, ps => (ps.mapM draft?).map (.arguments span.stop)
  | .memberDot, [.token .identifierName _ name] => some (.dot span.stop name)
  | .memberIndex, [p] => p.draft?.map (.index span.stop)
  | .paren, [p] => some p
  | .array, ps => (ps.mapM draft?).bind fun es => node span (.array es)
  | .object, ps => (ps.mapM draft?).bind fun es => node span (.object es)
  | .shorthand, _ => some (.token .shorthand span (text ()))
  | .property, [.token .shorthand _ name] =>
      node span (.property (.named name) (.node span (.ident name)) true)
  | .property, [k, v] =>
      match k.key?, v.draft? with
      | some k, some v => node span (.property k v false)
      | _, _ => none
  | .placeholder, [.token .identifierName _ name] => node span (.placeholder name)
  | rule, [] => some (.token rule span (text ()))
  | _, _ => none

/-- The piece of a captured rule from the pieces captured inside it. -/
def assemble (rule : Rule) (span : Span) (text : Unit → String) (ps : List Piece) : Option Piece :=
  assembleParts rule span text (ps.filter (!·.isMark))

/-- What was built, or the failure of a match whose parts do not fit together. -/
def complete {α : Type} : Option α → Except Diagnostic α
  | some a => .ok a
  | none => .error ⟨.incompleteMatch, none⟩

mutual

/-- The piece that a capture makes up. A template slot is refused in a source file. -/
def ofCapture (mode : Mode) : Capture Rule → Except Diagnostic Piece
  | .mk rule start stop input inner =>
      if mode = .source ∧ rule = .placeholder then
        .error ⟨.strayPlaceholder, some ⟨start, stop⟩⟩
      else if rule.takes (inner.map Capture.name) then
        match ofCaptures mode inner with
        | .ok ps =>
            complete
              (assemble rule ⟨start, stop⟩ (fun _ => (Capture.mk rule start stop input []).text) ps)
        | .error d => .error d
      else .error ⟨.incompleteMatch, none⟩

/-- The pieces that several captures make up, from left to right. -/
def ofCaptures (mode : Mode) : List (Capture Rule) → Except Diagnostic (List Piece)
  | [] => .ok []
  | c :: cs =>
      match ofCapture mode c with
      | .ok p =>
          match ofCaptures mode cs with
          | .ok ps => .ok (p :: ps)
          | .error d => .error d
      | .error d => .error d

end

end Piece

/-! ## Programs -/

/-- Depth of matching that a text of `length` characters can need: between two characters that are
consumed, only boundedly many parts of the grammar are entered. -/
def matchDepth (length : Nat) : Nat := 512 * (length + 1)

/-- The outcome of matching a text as a program. -/
def matchText (text : String) : Peg.Outcome Rule :=
  let chars := text.toList
  Peg.run grammar (matchDepth chars.length) .free .consuming (.rule .program) ⟨chars, 0⟩ 0

/-- The statements of a captured program. -/
def bodyOf (mode : Mode) : List (Capture Rule) → Except Diagnostic (List Draft)
  | [.mk .program _ _ _ inner] =>
      if Rule.program.takes (inner.map Capture.name) then
        (Piece.ofCaptures mode inner).bind fun ps =>
          Piece.complete ((ps.filter (!·.isToken .endOfInput)).mapM Piece.draft?)
      else .error ⟨.incompleteMatch, none⟩
  | _ => .error ⟨.incompleteMatch, none⟩

/-- The statements of a text in the given mode. A text that is no program is reported at the furthest
place the grammar looked at. -/
def draftsIn (mode : Mode) (text : String) : Except Diagnostic (List Draft) :=
  match matchText text with
  | .matched _ captures _ => bodyOf mode captures
  | .failed reach => .error ⟨.malformedProgram, some ⟨reach, reach⟩⟩
  | .exhausted => .error ⟨.incompleteMatch, none⟩

/-- Reads a text as nested programs, one for each statement. -/
def read (mode : Mode) (text : String) : Except Diagnostic (List (Ast Span)) :=
  (draftsIn mode text).map fun body => body.map Draft.resolve

/-- Reads a text into a tree. -/
def parse (mode : Mode) (text : String) : Except Diagnostic Tree :=
  (draftsIn mode text).map fun body => Draft.plantProgram text body

end LogLabel.Program
