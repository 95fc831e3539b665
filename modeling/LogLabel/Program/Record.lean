import LogLabel.Document.Value
import LogLabel.Program.Tree

set_option autoImplicit false

/-!
# Trees as documents

The document form of a tree. A kind without parts is a text, any other kind is a
record with the name of the kind as its only key. Addresses are numbers, and absent
parts are `null`.

`Tree.toDocument` writes a tree; `Tree.ofDocument?` reads one back without asking
whether its links agree. The fields of a record may also be given as a list in their
order, an optional field of a record may be left out, and unknown fields are ignored.
-/

namespace LogLabel.Program

open Document (Value)
open Document.Value (tagged ofOption ofList)

/-! ## Writing -/

/-- The document of an address. -/
def NodeId.toDocument (id : NodeId) : Value := .natural id.index

/-- The document of a declaring word. -/
def VarKind.toDocument : VarKind → Value
  | .var => .text "Var"
  | .let_ => .text "Let"
  | .const => .text "Const"

/-- The document of the form of a function. -/
def FunctionForm.toDocument : FunctionForm → Value
  | .declaration => .text "Declaration"
  | .expression => .text "Expression"
  | .arrow => .text "Arrow"

/-- The document of the role of a class member. -/
def MethodKind.toDocument : MethodKind → Value
  | .method => .text "Method"
  | .constructor => .text "Constructor"
  | .getter => .text "Getter"
  | .setter => .text "Setter"

/-- The document of a key. -/
def Key.toDocument : Key NodeId → Value
  | .named name => tagged "Named" (.text name)
  | .str value => tagged "Str" (.text value)
  | .computed e => tagged "Computed" e.toDocument

/-- The document of several addresses. -/
def idsDocument (ids : List NodeId) : Value := ofList NodeId.toDocument ids

/-- The document of an optional address. -/
def optionalId (id : Option NodeId) : Value := ofOption NodeId.toDocument id

/-- The document of an optional name. -/
def optionalName (name : Option String) : Value := ofOption .text name

/-- The document of a kind, with the fields in a fixed order. -/
def Kind.toDocument : Kind NodeId → Value
  | .program body => tagged "Program" (.record [("body", idsDocument body)])
  | .block body => tagged "Block" (.record [("body", idsDocument body)])
  | .empty => .text "Empty"
  | .expression e => tagged "Expression" (.record [("expr", e.toDocument)])
  | .labeled l b => tagged "Labeled" (.record [("label", .text l), ("body", b.toDocument)])
  | .varDecl k ds =>
      tagged "VarDecl" (.record [("kind", k.toDocument), ("declarators", idsDocument ds)])
  | .declarator n i => tagged "Declarator" (.record [("name", .text n), ("init", optionalId i)])
  | .returnStmt a => tagged "Return" (.record [("argument", optionalId a)])
  | .throwStmt a => tagged "Throw" (.record [("argument", a.toDocument)])
  | .ifStmt t c a =>
      tagged "If" (.record
        [("test", t.toDocument), ("consequent", c.toDocument), ("alternate", optionalId a)])
  | .whileStmt t b => tagged "While" (.record [("test", t.toDocument), ("body", b.toDocument)])
  | .breakStmt l => tagged "Break" (.record [("label", optionalName l)])
  | .continueStmt l => tagged "Continue" (.record [("label", optionalName l)])
  | .function h b =>
      tagged "Function" (.record
        [("name", optionalName h.name), ("params", ofList .text h.params),
          ("body", b.toDocument), ("form", h.form.toDocument), ("is_async", .bool h.isAsync),
          ("is_generator", .bool h.isGenerator)])
  | .classDef n s b d =>
      tagged "Class" (.record
        [("name", optionalName n), ("superclass", optionalId s), ("body", b.toDocument),
          ("is_declaration", .bool d)])
  | .classBody ms => tagged "ClassBody" (.record [("members", idsDocument ms)])
  | .method k h b =>
      tagged "Method" (.record
        [("key", k.toDocument), ("kind", h.kind.toDocument), ("is_static", .bool h.isStatic),
          ("is_async", .bool h.isAsync), ("is_generator", .bool h.isGenerator),
          ("params", ofList .text h.params), ("body", b.toDocument)])
  | .ident n => tagged "Ident" (.text n)
  | .this => .text "This"
  | .number r => tagged "Number" (.text r)
  | .str v => tagged "Str" (.text v)
  | .rawStr r => tagged "RawStr" (.text r)
  | .bool b => tagged "Bool" (.bool b)
  | .null => .text "Null"
  | .array es => tagged "Array" (.record [("elements", idsDocument es)])
  | .object ps => tagged "Object" (.record [("properties", idsDocument ps)])
  | .property k v s =>
      tagged "Property" (.record
        [("key", k.toDocument), ("value", v.toDocument), ("shorthand", .bool s)])
  | .call c as =>
      tagged "Call" (.record [("callee", c.toDocument), ("arguments", idsDocument as)])
  | .newExpr c as =>
      tagged "New" (.record [("callee", c.toDocument), ("arguments", idsDocument as)])
  | .member o k =>
      tagged "Member" (.record [("object", o.toDocument), ("property", k.toDocument)])
  | .unary op a => tagged "Unary" (.record [("operator", .text op), ("argument", a.toDocument)])
  | .binary op l r =>
      tagged "Binary" (.record
        [("operator", .text op), ("left", l.toDocument), ("right", r.toDocument)])
  | .conditional t c a =>
      tagged "Conditional" (.record
        [("test", t.toDocument), ("consequent", c.toDocument), ("alternate", a.toDocument)])
  | .assign op t v =>
      tagged "Assign" (.record
        [("operator", .text op), ("target", t.toDocument), ("value", v.toDocument)])
  | .update op x a =>
      tagged "Update" (.record
        [("operator", .text op), ("prefix", .bool (x = .before)), ("argument", a.toDocument)])
  | .sequence es => tagged "Sequence" (.record [("expressions", idsDocument es)])
  | .yieldExpr a d =>
      tagged "Yield" (.record [("argument", optionalId a), ("delegate", .bool d)])
  | .placeholder n => tagged "Placeholder" (.text n)

/-- The document of a span. -/
def Span.toDocument (s : Span) : Value :=
  .record [("start", .natural s.start), ("end", .natural s.stop)]

/-- The document of a node. -/
def Node.toDocument (n : Node) : Value :=
  .record
    [("kind", n.kind.toDocument), ("span", n.span.toDocument), ("parent", optionalId n.parent)]

/-- The document of a tree. -/
def Tree.toDocument (t : Tree) : Value :=
  .record [("nodes", ofList Node.toDocument t.nodes.toList), ("root", t.root.toDocument)]

/-! ## Reading -/

namespace Reading

/-- The values of the named fields of a record, or of a list that gives all of them in order. -/
def fields? (names : List String) : Value → Option (List (Option Value))
  | .record entries => some (names.map fun name => entries.lookup name)
  | .list items => if items.length = names.length then some (items.map some) else none
  | _ => none

/-- A field that has to be there. -/
def required {α : Type} (read : Value → Option α) (v : Option Value) : Option α := v.bind read

/-- A field that may be absent or `null`. -/
def optional {α : Type} (read : Value → Option α) : Option Value → Option (Option α)
  | none => some none
  | some .null => some none
  | some v => (read v).map some

/-- A text. -/
def text? : Value → Option String
  | .text s => some s
  | _ => none

/-- A truth value. -/
def bool? : Value → Option Bool
  | .bool b => some b
  | _ => none

/-- A number of 64 bits. -/
def natural? : Value → Option Nat
  | .natural n => if n < 18446744073709551616 then some n else none
  | _ => none

/-- An address. -/
def id? (v : Value) : Option NodeId := (natural? v).map NodeId.mk

/-- A list of values. -/
def list? {α : Type} (read : Value → Option α) : Value → Option (List α)
  | .list items => items.mapM read
  | _ => none

/-- Addresses. -/
def ids? : Value → Option (List NodeId) := list? id?

/-- The name and the content of a tagged value; a text is a tag without content. -/
def tag? : Value → Option (String × Value)
  | .text tag => some (tag, .null)
  | .record [(tag, v)] => some (tag, v)
  | _ => none

/-- A tag without content. -/
def bareTag? (v : Value) : Option String :=
  match tag? v with
  | some (tag, .null) => some tag
  | _ => none

/-- A declaring word. -/
def varKind? (v : Value) : Option VarKind :=
  match bareTag? v with
  | some "Var" => some .var
  | some "Let" => some .let_
  | some "Const" => some .const
  | _ => none

/-- The form of a function. -/
def functionForm? (v : Value) : Option FunctionForm :=
  match bareTag? v with
  | some "Declaration" => some .declaration
  | some "Expression" => some .expression
  | some "Arrow" => some .arrow
  | _ => none

/-- The role of a class member. -/
def methodKind? (v : Value) : Option MethodKind :=
  match bareTag? v with
  | some "Method" => some .method
  | some "Constructor" => some .constructor
  | some "Getter" => some .getter
  | some "Setter" => some .setter
  | _ => none

/-- A key. -/
def key? : Value → Option (Key NodeId)
  | .record [("Named", .text name)] => some (.named name)
  | .record [("Str", .text value)] => some (.str value)
  | .record [("Computed", v)] => (id? v).map .computed
  | _ => none

/-- A kind with one list of parts. -/
def listKind? (field : String) (make : List NodeId → Kind NodeId) (v : Value) :
    Option (Kind NodeId) :=
  match fields? [field] v with
  | some [ids] => (required ids? ids).map make
  | _ => none

/-- A kind with one part. -/
def partKind? (field : String) (make : NodeId → Kind NodeId) (v : Value) : Option (Kind NodeId) :=
  match fields? [field] v with
  | some [id] => (required id? id).map make
  | _ => none

/-- A kind with one optional name. -/
def nameKind? (field : String) (make : Option String → Kind NodeId) (v : Value) :
    Option (Kind NodeId) :=
  match fields? [field] v with
  | some [name] => (optional text? name).map make
  | _ => none

/-- A kind with a part and a list of parts. -/
def applyKind? (make : NodeId → List NodeId → Kind NodeId) (v : Value) : Option (Kind NodeId) :=
  match fields? ["callee", "arguments"] v with
  | some [c, as] => do return make (← required id? c) (← required ids? as)
  | _ => none

/-- The kind with a given tag and content. -/
def taggedKind? (tag : String) (v : Value) : Option (Kind NodeId) :=
  match tag with
  | "Program" => listKind? "body" .program v
  | "Block" => listKind? "body" .block v
  | "Expression" => partKind? "expr" .expression v
  | "Labeled" =>
      match fields? ["label", "body"] v with
      | some [l, b] => do return .labeled (← required text? l) (← required id? b)
      | _ => none
  | "VarDecl" =>
      match fields? ["kind", "declarators"] v with
      | some [k, ds] => do return .varDecl (← required varKind? k) (← required ids? ds)
      | _ => none
  | "Declarator" =>
      match fields? ["name", "init"] v with
      | some [n, i] => do return .declarator (← required text? n) (← optional id? i)
      | _ => none
  | "Return" =>
      match fields? ["argument"] v with
      | some [a] => do return .returnStmt (← optional id? a)
      | _ => none
  | "Throw" => partKind? "argument" .throwStmt v
  | "If" =>
      match fields? ["test", "consequent", "alternate"] v with
      | some [t, c, a] => do
          return .ifStmt (← required id? t) (← required id? c) (← optional id? a)
      | _ => none
  | "While" =>
      match fields? ["test", "body"] v with
      | some [t, b] => do return .whileStmt (← required id? t) (← required id? b)
      | _ => none
  | "Break" => nameKind? "label" .breakStmt v
  | "Continue" => nameKind? "label" .continueStmt v
  | "Function" =>
      match fields? ["name", "params", "body", "form", "is_async", "is_generator"] v with
      | some [n, ps, b, f, a, g] => do
          let head : FunctionHead :=
            { name := ← optional text? n
              params := ← required (list? text?) ps
              form := ← required functionForm? f
              isAsync := ← required bool? a
              isGenerator := ← required bool? g }
          return .function head (← required id? b)
      | _ => none
  | "Class" =>
      match fields? ["name", "superclass", "body", "is_declaration"] v with
      | some [n, s, b, d] => do
          return .classDef (← optional text? n) (← optional id? s) (← required id? b)
            (← required bool? d)
      | _ => none
  | "ClassBody" => listKind? "members" .classBody v
  | "Method" =>
      match
        fields? ["key", "kind", "is_static", "is_async", "is_generator", "params", "body"] v
      with
      | some [k, m, s, a, g, ps, b] => do
          let head : MethodHead :=
            { kind := ← required methodKind? m
              isStatic := ← required bool? s
              isAsync := ← required bool? a
              isGenerator := ← required bool? g
              params := ← required (list? text?) ps }
          return .method (← required key? k) head (← required id? b)
      | _ => none
  | "Ident" => (text? v).map .ident
  | "Number" => (text? v).map .number
  | "Str" => (text? v).map .str
  | "RawStr" => (text? v).map .rawStr
  | "Bool" => (bool? v).map .bool
  | "Array" => listKind? "elements" .array v
  | "Object" => listKind? "properties" .object v
  | "Property" =>
      match fields? ["key", "value", "shorthand"] v with
      | some [k, x, s] => do
          return .property (← required key? k) (← required id? x) (← required bool? s)
      | _ => none
  | "Call" => applyKind? .call v
  | "New" => applyKind? .newExpr v
  | "Member" =>
      match fields? ["object", "property"] v with
      | some [o, k] => do return .member (← required id? o) (← required key? k)
      | _ => none
  | "Unary" =>
      match fields? ["operator", "argument"] v with
      | some [op, a] => do return .unary (← required text? op) (← required id? a)
      | _ => none
  | "Binary" =>
      match fields? ["operator", "left", "right"] v with
      | some [op, l, r] => do
          return .binary (← required text? op) (← required id? l) (← required id? r)
      | _ => none
  | "Conditional" =>
      match fields? ["test", "consequent", "alternate"] v with
      | some [t, c, a] => do
          return .conditional (← required id? t) (← required id? c) (← required id? a)
      | _ => none
  | "Assign" =>
      match fields? ["operator", "target", "value"] v with
      | some [op, t, x] => do
          return .assign (← required text? op) (← required id? t) (← required id? x)
      | _ => none
  | "Update" =>
      match fields? ["operator", "prefix", "argument"] v with
      | some [op, p, a] => do
          let fixity := if ← required bool? p then Fixity.before else Fixity.after
          return .update (← required text? op) fixity (← required id? a)
      | _ => none
  | "Sequence" => listKind? "expressions" .sequence v
  | "Yield" =>
      match fields? ["argument", "delegate"] v with
      | some [a, d] => do return .yieldExpr (← optional id? a) (← required bool? d)
      | _ => none
  | "Placeholder" => (text? v).map .placeholder
  | _ => none

/-- A span. -/
def span? (v : Value) : Option Span :=
  match fields? ["start", "end"] v with
  | some [s, e] => do return ⟨← required natural? s, ← required natural? e⟩
  | _ => none

end Reading

open Reading

/-- Reads a kind. -/
def Kind.ofDocument? (v : Value) : Option (Kind NodeId) :=
  match tag? v with
  | some ("Empty", .null) => some .empty
  | some ("This", .null) => some .this
  | some ("Null", .null) => some .null
  | some (tag, v) => taggedKind? tag v
  | none => none

/-- Reads a node. -/
def Node.ofDocument? (v : Value) : Option Node :=
  match fields? ["kind", "span", "parent"] v with
  | some [k, s, p] => do
      return ⟨← required Kind.ofDocument? k, ← required span? s, ← optional id? p⟩
  | _ => none

/-- Reads a tree. It has no index of lines, so everything is on the first line. -/
def Tree.ofDocument? (v : Value) : Option Tree :=
  match fields? ["nodes", "root"] v with
  | some [ns, r] => do
      return ⟨(← required (list? Node.ofDocument?) ns).toArray, ← required id? r, []⟩
  | _ => none

end LogLabel.Program
