import LogLabel.Proofs.Program.Names
import Mathlib.Data.List.Basic
import Mathlib.Data.List.Flatten

set_option autoImplicit false

/-!
# Assembly of pieces

`Piece.assembleParts` says for each rule how the pieces captured inside of it make up its own
piece. There are few ways to do so: most rules make one layer of the drafts of their pieces, in
the order in which the pieces stand, and the others make a token, hand a piece on, or join
drafts by operators and suffixes.

* `Piece.parts`: the drafts of a piece, and `Piece.mentions`: the names in it.
* `Piece.Assembled rule span text ps p`: the ways in which `p` can come from the pieces `ps`.
* `Piece.assembled_of_assembleParts`: every rule assembles its piece in one of them.
* `Rule.isStatement`, `Rule.holdsStatements` and `Rule.makes` say which rules are for statements.
-/

namespace LogLabel.Program

open Peg (Capture)

/-! ## Rules -/

/-- Whether a rule makes a statement, or a list of statements. -/
def Rule.isStatement : Rule → Bool
  | .program | .statement | .block | .emptyStmt | .varDecl | .functionDecl | .classDecl
  | .returnStmt | .throwStmt | .breakStmt | .continueStmt | .ifStmt | .whileStmt | .labeledStmt
  | .exprStmt => true
  | _ => false

/-- Whether a rule may have statements as parts. -/
def Rule.holdsStatements : Rule → Bool
  | .program | .statement | .block | .ifStmt | .whileStmt | .labeledStmt | .functionDecl
  | .functionExpr | .arrowFunction | .method => true
  | _ => false

/-- Whether the parts of a layer stand in an expression, given whether the layer does: the part of an
expression statement does, and the body of a function does not. -/
def Kind.inside {α : Type} (inExpression : Bool) : Kind α → Bool
  | .expression _ => true
  | .function _ _ => false
  | .method _ _ _ => false
  | _ => inExpression

/-- Whether a rule may make a layer: a rule for an expression makes no statement, and a rule that has
statements as parts puts none of them into an expression. -/
def Rule.makes {α : Type} (r : Rule) (k : Kind α) : Bool :=
  (!k.isStatement || r.isStatement) && (!k.inside (!r.isStatement) || !r.holdsStatements)

/-- Whether a rule neither makes a statement nor has statements as parts. -/
def Rule.isExpression (r : Rule) : Bool := !r.isStatement && !r.holdsStatements

namespace Piece

/-! ## Drafts of pieces -/

/-- The drafts that a piece can become parts of a node with. -/
def parts : Piece → List Draft
  | .superclass d => [d]
  | .computed d => [d]
  | .arguments _ ds => ds
  | .index _ d => [d]
  | p => p.draft?.toList

variable {p : Piece} {rule : Rule} {span : Span} {text : String} {ps : List Piece} {d d' : Draft}
  {ds : List Draft} {k : Kind Draft}

@[simp] theorem parts_arguments (stop : Nat) (ds : List Draft) : (arguments stop ds).parts = ds := rfl

theorem parts_token (rule : Rule) (span : Span) (text : String) :
    (token rule span text).parts = (token rule span text).draft?.toList := rfl

theorem parts_of_draft? (hd : p.draft? = some d) : p.parts = [d] := by
  cases p <;> first | exact (congrArg Option.toList hd) | cases hd

/-- The drafts of pieces that all are drafts. -/
theorem parts_of_mapM (h : ps.mapM draft? = some ds) : ps.flatMap parts = ds := by
  induction ps generalizing ds with
  | nil => simpa using h
  | cons p ps ih =>
      simp only [List.mapM_cons, Option.bind_eq_bind, Option.bind_eq_some_iff, Option.pure_def,
        Option.some.injEq] at h
      obtain ⟨d, hd, ds', hds', rfl⟩ := h
      rw [List.flatMap_cons, parts_of_draft? hd, ih hds']
      rfl

theorem key?_sublist {key : Key Draft} (h : p.key? = some key) : key.children.Sublist p.parts := by
  unfold key? at h
  split at h
  · cases h; exact List.nil_sublist _
  · cases h; exact List.nil_sublist _
  · split at h <;> cases h <;> exact List.nil_sublist _
  · cases h; exact List.Sublist.refl _
  · cases h

/-- The draft of the last piece. -/
theorem singleton_sublist_parts (hlast : ps.getLast?.bind draft? = some d) :
    [d].Sublist (ps.flatMap parts) := by
  obtain ⟨q, hq, hd⟩ := Option.bind_eq_some_iff.1 hlast
  refine List.singleton_sublist.2 (List.mem_flatMap.2 ⟨q, List.mem_of_getLast? hq, ?_⟩)
  rw [parts_of_draft? hd]
  exact List.mem_singleton.2 rfl

/-- A piece that is looked for, and is not the last one, stands before the last one. -/
theorem pair_sublist_parts {β : Type} {f : Piece → Option β} {x : β}
    (hfind : ps.findSome? f = some x) (hlast : ps.getLast?.bind draft? = some d')
    (hparts : ∀ q, f q = some x → q.draft? = none ∧ q.parts = [d]) :
    [d, d'].Sublist (ps.flatMap parts) := by
  obtain ⟨q, hq, hd⟩ := Option.bind_eq_some_iff.1 hlast
  obtain ⟨before, p, after, rfl, hp, -⟩ := List.findSome?_eq_some_iff.1 hfind
  have hafter : after ≠ [] := by
    rintro rfl
    obtain rfl : p = q := by simpa using hq
    rw [(hparts p hp).1] at hd
    cases hd
  have hmem : q ∈ after := by
    rw [List.getLast?_append_of_ne_nil _ (List.cons_ne_nil _ _), List.getLast?_cons_of_ne_nil hafter]
      at hq
    exact List.mem_of_getLast? hq
  have hpair : [p, q].Sublist (before ++ p :: after) :=
    ((List.singleton_sublist.2 hmem).cons_cons p).trans (List.sublist_append_right _ _)
  have hflat := hpair.flatMap parts
  simpa [(hparts p hp).2, parts_of_draft? hd] using hflat

/-! ## Names of pieces -/

/-- The names that a piece mentions. -/
def mentions : Piece → List String
  | .token .shorthand _ name => [name]
  | .names ns => ns
  | p => p.parts.flatMap Draft.names

@[simp] theorem mentions_names (ns : List String) : (names ns).mentions = ns := rfl

@[simp] theorem mentions_shorthand (span : Span) (name : String) :
    (token .shorthand span name).mentions = [name] := rfl

@[simp] theorem mentions_identifier (span : Span) (name : String) :
    (token .identifier span name).mentions = [name] := by
  change [Draft.node span (.ident name)].flatMap Draft.names = [name]
  simp [Draft.names_node, Kind.names, Kind.children]

theorem mentions_of_draft? (hd : p.draft? = some d) : p.mentions = d.names := by
  have hparts := parts_of_draft? hd
  unfold mentions
  split
  · cases hd
  · cases hd
  · rw [hparts, List.flatMap_singleton]

/-- The names of the drafts of a piece are mentioned. -/
theorem names_subset_mentions : p.parts.flatMap Draft.names ⊆ p.mentions := by
  unfold mentions
  split
  · exact List.nil_subset _
  · exact List.nil_subset _
  · exact List.Subset.refl _

theorem mem_mentions_of_name? {name : String} (h : p.name? = some name) : name ∈ p.mentions := by
  unfold name? at h
  split at h
  · cases h
    simp
  · cases h

theorem mentions_of_names? {ns : List String} (h : p.names? = some ns) : p.mentions = ns := by
  unfold names? at h
  split at h
  · cases h
    rfl
  · cases h

/-- A name that is looked for among pieces is mentioned there. -/
theorem findSome?_name?_subset : (ps.findSome? name?).toList ⊆ ps.flatMap mentions := by
  intro name hname
  obtain ⟨q, hq, hfound⟩ := List.exists_of_findSome?_eq_some (Option.mem_toList.1 hname)
  exact List.mem_flatMap.2 ⟨q, hq, mem_mentions_of_name? hfound⟩

/-- Parameter names that are looked for among pieces are mentioned there. -/
theorem findSome?_names?_subset : (ps.findSome? names?).getD [] ⊆ ps.flatMap mentions := by
  intro name hname
  cases hfind : ps.findSome? names? with
  | none =>
      rw [hfind] at hname
      cases hname
  | some ns =>
      rw [hfind] at hname
      obtain ⟨q, hq, hfound⟩ := List.exists_of_findSome?_eq_some hfind
      exact List.mem_flatMap.2 ⟨q, hq, (mentions_of_names? hfound).symm ▸ hname⟩

theorem mapM_name?_subset {ns : List String} (h : ps.mapM name? = some ns) :
    ns ⊆ ps.flatMap mentions := by
  induction ps generalizing ns with
  | nil =>
      cases h
      exact List.nil_subset _
  | cons p ps ih =>
      simp only [List.mapM_cons, Option.bind_eq_bind, Option.bind_eq_some_iff, Option.pure_def,
        Option.some.injEq] at h
      obtain ⟨name, hname, ns', hns', rfl⟩ := h
      rw [List.flatMap_cons]
      refine List.cons_subset.2 ⟨?_, ?_⟩
      · exact List.mem_append_left _ (mem_mentions_of_name? hname)
      · exact List.Subset.trans (ih hns') (List.subset_append_right _ _)

/-! ## Ways to assemble a piece -/

/-- How the piece of a rule can come from the pieces captured inside of it. -/
inductive Assembled (rule : Rule) (span : Span) (text : String) (ps : List Piece) : Piece → Prop
  /-- The text of the rule. -/
  | token : Assembled rule span text ps (.token rule span text)
  /-- Names of parameters. -/
  | names {ns : List String} (mentioned : ns ⊆ ps.flatMap mentions) :
      Assembled rule span text ps (.names ns)
  /-- A piece that is handed on. -/
  | same {p : Piece} (isExpression : rule.isExpression = true) (mem : p ∈ ps) :
      Assembled rule span text ps p
  /-- A layer of drafts, in the order in which their pieces stand. -/
  | layer {k : Kind Draft} (makes : rule.makes k = true)
      (children : k.children.Sublist (ps.flatMap parts)) (mentioned : k.names ⊆ ps.flatMap mentions) :
      Assembled rule span text ps (.draft (.node span k))
  /-- A property in short form, whose value has the span of the property. -/
  | shorthand {name : String} (mentioned : name ∈ ps.flatMap mentions) : Assembled rule span text ps
      (.draft (.node span (.property (.named name) (.node span (.ident name)) true)))
  /-- The expression after `extends`. -/
  | superclass {p : Piece} {d : Draft} (isExpression : rule.isExpression = true) (mem : p ∈ ps)
      (draft : p.draft? = some d) : Assembled rule span text ps (.superclass d)
  /-- A computed key. -/
  | computed {p : Piece} {d : Draft} (isExpression : rule.isExpression = true) (mem : p ∈ ps)
      (draft : p.draft? = some d) : Assembled rule span text ps (.computed d)
  /-- The arguments of a call. -/
  | arguments {ds : List Draft} (isExpression : rule.isExpression = true)
      (drafts : ps.mapM draft? = some ds) : Assembled rule span text ps (.arguments span.stop ds)
  /-- Access to a named member. -/
  | dot (name : String) : Assembled rule span text ps (.dot span.stop name)
  /-- Access to a computed member. -/
  | index {p : Piece} {d : Draft} (isExpression : rule.isExpression = true) (mem : p ∈ ps)
      (draft : p.draft? = some d) : Assembled rule span text ps (.index span.stop d)
  /-- Operands with binary operators between them. -/
  | chain {first : Piece} {rest : List Piece} {d : Draft} {links : List (String × Draft)}
      (isExpression : rule.isExpression = true) (pieces : ps = first :: rest)
      (draft : first.draft? = some d) (operands : links? rest = some links) :
      Assembled rule span text ps (.draft (.ofChain d links))
  /-- An operand after prefix operators. -/
  | prefixed {d : Draft} (isExpression : rule.isExpression = true)
      (draft : prefixed? span.stop ps = some d) : Assembled rule span text ps (.draft d)
  /-- An operand with calls and accesses behind it. -/
  | suffixed {first : Piece} {rest : List Piece} {d d' : Draft}
      (isExpression : rule.isExpression = true) (pieces : ps = first :: rest)
      (draft : first.draft? = some d) (result : suffixed? span.start d rest = some d') :
      Assembled rule span text ps (.draft d')

theorem assembled_node (h : node span k = some p) (makes : rule.makes k = true)
    (children : k.children.Sublist (ps.flatMap parts)) (mentioned : k.names ⊆ ps.flatMap mentions) :
    Assembled rule span text ps p := by
  cases h
  exact .layer makes children mentioned

theorem assembled_function? {form : FunctionForm} (h : function? span form ps = some p)
    (hform : form = .declaration → rule.isStatement = true) : Assembled rule span text ps p := by
  unfold function? at h
  split at h
  · next body hbody =>
      refine assembled_node h ?_ (singleton_sublist_parts hbody)
        (List.append_subset.2 ⟨findSome?_name?_subset, findSome?_names?_subset⟩)
      cases form with
      | declaration => simpa [Rule.makes, Kind.isStatement, Kind.inside] using hform
      | expression => rfl
      | arrow => rfl
  · cases h

theorem assembled_class? {isDeclaration : Bool} (h : class? span isDeclaration ps = some p)
    (hform : isDeclaration = true → rule.isStatement = true)
    (hholds : rule.holdsStatements = false) : Assembled rule span text ps p := by
  unfold class? at h
  split at h
  · next body hbody =>
      refine assembled_node h ?_ ?_ findSome?_name?_subset
      · cases isDeclaration with
        | true => simpa [Rule.makes, Kind.isStatement, hholds] using hform
        | false => simp [Rule.makes, Kind.isStatement, hholds]
      · cases hfind : ps.findSome? superclass? with
        | none => exact singleton_sublist_parts hbody
        | some d =>
            refine pair_sublist_parts hfind hbody fun q hq => ?_
            cases q <;> cases hq
            exact ⟨rfl, rfl⟩
  · cases h

theorem assembled_method? (h : method? span ps = some p) : Assembled .method span text ps p := by
  unfold method? at h
  split at h
  · next key body hkey hbody =>
      refine assembled_node h rfl ?_ findSome?_names?_subset
      cases key with
      | named name => exact singleton_sublist_parts hbody
      | str value => exact singleton_sublist_parts hbody
      | computed e =>
          refine pair_sublist_parts hkey hbody fun q hq => ?_
          unfold key? at hq
          split at hq
          · cases hq
          · cases hq
          · split at hq <;> cases hq
          · cases hq
            exact ⟨rfl, rfl⟩
          · cases hq
  · cases h

theorem assembled_suffixes {first : Piece} (hrule : rule.isExpression = true)
    (h : (first.draft?.bind fun d => (suffixed? span.start d ps).map .draft) = some p) :
    Assembled rule span text (first :: ps) p := by
  obtain ⟨d, hd, h⟩ := Option.bind_eq_some_iff.1 h
  obtain ⟨e, he, rfl⟩ := Option.map_eq_some_iff.1 h
  exact .suffixed hrule rfl hd he

/-- Every rule assembles its piece in one of these ways. -/
theorem assembled_of_assembleParts {text : Unit → String}
    (h : assembleParts rule span text ps = some p) : Assembled rule span (text ()) ps p := by
  unfold assembleParts at h
  split at h
  -- A declaration of variables, whose parts come after a token.
  case h_3 s word ps =>
    obtain ⟨ds, hds, h⟩ := Option.bind_eq_some_iff.1 h
    refine assembled_node h rfl ?_ (List.nil_subset _)
    rw [List.flatMap_cons, parts_of_mapM hds]
    exact List.sublist_append_right _ _
  -- Functions and classes, as statements and as expressions, and methods.
  case h_6 => exact assembled_function? h fun _ => rfl
  case h_7 => exact assembled_function? h (fun h => by cases h)
  case h_8 => exact assembled_class? h (fun _ => rfl) rfl
  case h_9 => exact assembled_class? h (fun h => by cases h) rfl
  case h_12 => exact assembled_method? h
  -- Superclasses, computed keys and names of parameters.
  case h_11 q =>
    obtain ⟨d, hd, rfl⟩ := Option.map_eq_some_iff.1 h
    exact .superclass rfl List.mem_cons_self hd
  case h_13 q =>
    obtain ⟨d, hd, rfl⟩ := Option.map_eq_some_iff.1 h
    exact .computed rfl List.mem_cons_self hd
  case h_14 =>
    obtain ⟨ns, hns, rfl⟩ := Option.map_eq_some_iff.1 h
    exact .names (mapM_name?_subset hns)
  case h_30 =>
    cases h
    exact .names (by simp)
  -- Operators between, before and behind operands.
  case h_41 first rest =>
    split at h
    · next d links hd hlinks =>
        cases h
        exact .chain rfl rfl hd hlinks
    · cases h
  case h_42 =>
    obtain ⟨d, hd, rfl⟩ := Option.map_eq_some_iff.1 h
    exact .prefixed rfl hd
  case h_45 => exact assembled_suffixes rfl h
  case h_46 => exact assembled_suffixes rfl h
  -- Arguments and accesses.
  case h_48 callee stop as =>
    obtain ⟨d, hd, h⟩ := Option.bind_eq_some_iff.1 h
    exact assembled_node h rfl (by simp [Kind.children, parts_of_draft? hd]) (List.nil_subset _)
  case h_49 =>
    obtain ⟨ds, hds, rfl⟩ := Option.map_eq_some_iff.1 h
    exact .arguments rfl hds
  case h_50 =>
    cases h
    exact .dot _
  case h_51 q =>
    obtain ⟨d, hd, rfl⟩ := Option.map_eq_some_iff.1 h
    exact .index rfl List.mem_cons_self hd
  -- Properties in short form and with a key.
  case h_56 =>
    cases h
    exact .shorthand (by simp)
  case h_57 k v =>
    split at h
    · next key d hkey hd =>
        refine assembled_node h rfl ?_ (List.nil_subset _)
        rw [List.flatMap_cons, List.flatMap_singleton, parts_of_draft? hd]
        exact (key?_sublist hkey).append (List.Sublist.refl [d])
    · cases h
  -- The others fail, make a token, hand on a piece, or make a layer of drafts.
  all_goals
    first
    | (cases h; done)
    | (cases h; exact .token)
    | (cases h; exact .same rfl List.mem_cons_self)
    | exact assembled_node h rfl (List.nil_sublist _) (by simp [Kind.names])
    | (obtain ⟨ds, hds, h⟩ := Option.bind_eq_some_iff.1 h
       exact assembled_node h rfl (parts_of_mapM hds ▸ List.Sublist.refl _) (List.nil_subset _))
    | (obtain ⟨d, hd, h⟩ := Option.bind_eq_some_iff.1 h
       exact assembled_node h rfl (by simp [Kind.children, parts_of_draft? hd])
         (by simp [Kind.names]))
    | (split at h
       · exact assembled_node h rfl (by simp [Kind.children, parts_of_draft?, *])
           (List.nil_subset _)
       · cases h)

theorem eq_some_of_complete {α : Type} {o : Option α} {a : α} (h : complete o = .ok a) :
    o = some a := by
  cases o with
  | none => cases h
  | some b => cases h; rfl

/-- The piece of a capture is assembled from the pieces of the captures inside of it. -/
theorem assemble_of_ofCapture {mode : Mode} {start stop : Nat} {input : List Char}
    {inner : List (Capture Rule)} (h : ofCapture mode (.mk rule start stop input inner) = .ok p) :
    ∃ ps, ofCaptures mode inner = .ok ps ∧
      assemble rule ⟨start, stop⟩ (fun _ => (Capture.mk rule start stop input []).text) ps
        = some p := by
  rw [ofCapture] at h
  split at h
  · cases h
  · split at h
    · split at h
      · next ps hps => exact ⟨ps, hps, eq_some_of_complete h⟩
      · cases h
    · cases h

/-- Captures make up their pieces one by one. -/
theorem ofCaptures_cons {mode : Mode} {c : Capture Rule} {cs : List (Capture Rule)}
    (h : ofCaptures mode (c :: cs) = .ok ps) :
    ∃ q qs, ps = q :: qs ∧ ofCapture mode c = .ok q ∧ ofCaptures mode cs = .ok qs := by
  rw [ofCaptures] at h
  split at h
  · next q hq =>
      split at h
      · next qs hqs =>
          cases h
          exact ⟨q, qs, rfl, hq, hqs⟩
      · cases h
  · cases h

end Piece

end LogLabel.Program
