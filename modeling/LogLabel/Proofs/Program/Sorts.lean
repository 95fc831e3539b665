import LogLabel.Proofs.Peg.Captures
import LogLabel.Proofs.Program.Assembly
import LogLabel.Proofs.Program.Planting
import LogLabel.Proofs.Program.Revision

set_option autoImplicit false

/-!
# Sorts of nodes

Statements and expressions are layers of one type, so a nested program could have a
statement as an operand. A program that was read has none: a statement stands in an
expression only inside of the body of a function or a method.

* `Ast.wellSorted inExpression a`: the property of a program that stands in an expression,
  or in a place for a statement.
* `nests_statements`: the bodies of the rules have statements as parts where
  `Rule.holdsStatements` says so.
* `Piece.assembleParts_wellSorted`: every rule makes a sorted piece of sorted pieces.
* `parse_wellSorted`: the program of a parsed tree is sorted.
-/

namespace LogLabel.Program

open Peg (Capture)

variable {α β ι κ : Type}

/-! ## Sorted programs -/

/-- A layer over sorted parts that is no statement where an expression stands. -/
def sortStep (k : Kind (Bool → Bool)) (inExpression : Bool) : Bool :=
  !(inExpression && k.isStatement) && k.children.all fun part => part (k.inside inExpression)

/-- No statement of the program stands in an expression, except in the body of a function. -/
def Ast.wellSorted (inExpression : Bool) (a : Ast ι) : Bool :=
  a.fold (fun _ => sortStep) inExpression

/-- The same for the program of a draft: all operands of a chain stand where the chain does. -/
def Draft.wellSorted (inExpression : Bool) (d : Draft) : Bool :=
  d.fold (fun _ => sortStep) (fun first rest b => first b && rest.all fun link => link.2 b)
    inExpression

theorem Kind.inside_map (f : α → β) (b : Bool) (k : Kind α) : (k.map f).inside b = k.inside b := by
  cases k <;> rfl

theorem Kind.isStatement_map (f : α → β) (k : Kind α) : (k.map f).isStatement = k.isStatement := by
  cases k <;> rfl

theorem Kind.inside_mono {b b' : Bool} (h : b' = true → b = true) (k : Kind α)
    (hk : k.inside b' = true) : k.inside b = true := by
  cases k <;> first | rfl | exact h hk | exact hk

theorem sortStep_map (f : α → Bool → Bool) (k : Kind α) (b : Bool) :
    sortStep (k.map f) b = true
      ↔ (b = true → k.isStatement = false) ∧ ∀ c ∈ k.children, f c (k.inside b) = true := by
  cases b <;> simp [sortStep, Kind.isStatement_map, Kind.inside_map]

namespace Ast

theorem wellSorted_node (b : Bool) (i : ι) (k : Kind (Ast ι)) :
    (Ast.node i k).wellSorted b = true
      ↔ (b = true → k.isStatement = false) ∧ ∀ c ∈ k.children, c.wellSorted (k.inside b) = true := by
  rw [wellSorted, fold_node]
  exact sortStep_map (fun c b => c.wellSorted b) k b

theorem wellSorted_mapNotes (f : ι → κ) (a : Ast ι) :
    ∀ b : Bool, (a.mapNotes f).wellSorted b = true ↔ a.wellSorted b = true := by
  induction a using Ast.induction with
  | node i k ih =>
      intro b
      rw [mapNotes_node, wellSorted_node, wellSorted_node, Kind.isStatement_map, Kind.inside_map,
        Kind.children_map, List.forall_mem_map]
      exact and_congr_right fun _ => forall₂_congr fun c hc => ih c hc _

/-- Every part of a sorted program is sorted where it stands. -/
theorem wellSorted_part {a e : Ast ι} (h : e.Part a) :
    ∀ {b : Bool}, a.wellSorted b = true → ∃ b', e.wellSorted b' = true := by
  induction h with
  | self => exact fun ha => ⟨_, ha⟩
  | @inside a c hc _ ih =>
      intro b ha
      cases a with
      | node i k => exact ih (((wellSorted_node b i k).1 ha).2 c hc)

/-- What is sorted as an expression is sorted as a statement. -/
theorem wellSorted_mono (a : Ast ι) :
    ∀ {b b' : Bool}, (b' = true → b = true) → a.wellSorted b = true → a.wellSorted b' = true := by
  induction a using Ast.induction with
  | node i k ih =>
      intro b b' hb h
      rw [wellSorted_node] at h ⊢
      exact ⟨fun hb' => h.1 (hb hb'), fun c hc => ih c hc (k.inside_mono hb) (h.2 c hc)⟩

/-- The expression of an expression statement is sorted as an expression. -/
theorem wellSorted_expression {a e x : Ast ι} {b : Bool} (ha : a.wellSorted b = true) (h : e.Part a)
    (hx : e.kind = .expression x) : x.wellSorted true = true := by
  obtain ⟨b', he⟩ := wellSorted_part h ha
  cases e with
  | node i k =>
      obtain rfl : k = .expression x := hx
      exact ((wellSorted_node b' i _).1 he).2 x (List.mem_singleton.2 rfl)

end Ast

namespace Draft

variable {b : Bool}

theorem wellSorted_node (b : Bool) (s : Span) (k : Kind Draft) :
    (Draft.node s k).wellSorted b = true
      ↔ (b = true → k.isStatement = false) ∧ ∀ c ∈ k.children, c.wellSorted (k.inside b) = true := by
  rw [wellSorted, fold_node]
  exact sortStep_map (fun c b => c.wellSorted b) k b

theorem wellSorted_chain (b : Bool) (s : Span) (first : Draft) (rest : List (String × Draft)) :
    (Draft.chain s first rest).wellSorted b = true
      ↔ first.wellSorted b = true ∧ ∀ link ∈ rest, link.2.wellSorted b = true := by
  rw [wellSorted, fold_chain, Bool.and_eq_true, List.all_map, List.all_eq_true]
  rfl

theorem wellSorted_leaf {s : Span} {k : Kind Draft} (hk : k.isStatement = false)
    (hparts : k.children = []) : (Draft.node s k).wellSorted b = true := by
  rw [wellSorted_node, hparts]
  exact ⟨fun _ => hk, by simp⟩

/-- What is sorted as an expression is sorted as a statement. -/
theorem wellSorted_mono (d : Draft) :
    ∀ {b b' : Bool}, (b' = true → b = true) → d.wellSorted b = true → d.wellSorted b' = true := by
  induction d using Draft.induction with
  | node s k ih =>
      intro b b' hb h
      rw [wellSorted_node] at h ⊢
      exact ⟨fun hb' => h.1 (hb hb'), fun c hc => ih c hc (k.inside_mono hb) (h.2 c hc)⟩
  | chain s first rest ihfirst ihrest =>
      intro b b' hb h
      rw [wellSorted_chain] at h ⊢
      exact ⟨ihfirst hb h.1, fun link hlink => ihrest link hlink hb (h.2 link hlink)⟩

/-- Joining sorted operands along a tree of operators. -/
theorem wellSorted_join (g : Grouping (Ast Span)) (h : ∀ a ∈ g.leaves, a.wellSorted b = true) :
    (g.fold join).wellSorted b = true := by
  induction g with
  | leaf a => exact h a (List.mem_singleton.2 rfl)
  | branch op l r ihl ihr =>
      rw [Grouping.fold, join, Ast.wellSorted_node]
      refine ⟨fun _ => rfl, ?_⟩
      have hl := ihl fun a ha => h a (List.mem_append_left _ ha)
      have hr := ihr fun a ha => h a (List.mem_append_right _ ha)
      simpa [Kind.children, Kind.inside] using ⟨hl, hr⟩

/-- Grouping the chains of a sorted draft gives a sorted program. -/
theorem wellSorted_resolve (d : Draft) :
    ∀ {b : Bool}, d.wellSorted b = true → d.resolve.wellSorted b = true := by
  induction d using Draft.induction with
  | node s k ih =>
      intro b h
      rw [wellSorted_node] at h
      rw [resolve_node, Ast.wellSorted_node, Kind.isStatement_map, Kind.inside_map,
        Kind.children_map, List.forall_mem_map]
      exact ⟨h.1, fun c hc => ih c hc (h.2 c hc)⟩
  | chain s first rest ihfirst ihrest =>
      intro b h
      rw [wellSorted_chain] at h
      rw [resolve_chain]
      refine wellSorted_join _ fun a ha => ?_
      have hmem := Grouping.leaves_ofChain_subset _ _ ha
      rw [List.map_map] at hmem
      rcases List.mem_cons.1 hmem with rfl | hmem
      · exact ihfirst h.1
      · obtain ⟨link, hlink, rfl⟩ := List.mem_map.1 hmem
        exact ihrest link hlink (h.2 link hlink)

end Draft

/-! ## Rules -/

/-- Statements are captured directly inside of rules for them only. -/
theorem nests_statements :
    grammar.Nests fun r n => n.isStatement = true → r.holdsStatements = true := by
  have hnames : ∀ r : Rule,
      ((Rule.define r).body.names.all fun n => !n.isStatement || r.holdsStatements) = true := by
    intro r
    cases r with
    | word w => cases w <;> rfl
    | _ => rfl
  have hnest : ∀ r : Rule, ∀ n ∈ (Rule.define r).body.names,
      n.isStatement = true → r.holdsStatements = true := by
    intro r n hn hstatement
    have h := List.all_eq_true.1 (hnames r) n hn
    simpa [hstatement] using h
  refine ⟨hnest, fun r n hr hsilent m hm hstatement => hr ?_⟩
  have hholds := hnest n m hm hstatement
  cases n with
  | statement => rfl
  | assignment => exact absurd hholds (by decide)
  | primary => exact absurd hholds (by decide)
  | _ => exact absurd hsilent (by simp [grammar, Rule.define])

/-! ## Pieces -/

namespace Piece

/-- All drafts of a piece are sorted. -/
def wellSorted (b : Bool) : Piece → Bool
  | .token _ _ _ => true
  | .draft d => d.wellSorted b
  | .names _ => true
  | .superclass d => d.wellSorted b
  | .computed d => d.wellSorted b
  | .arguments _ ds => ds.all (·.wellSorted b)
  | .dot _ _ => true
  | .index _ d => d.wellSorted b

variable {b b' : Bool} {p : Piece} {d d' : Draft} {ps : List Piece} {ds : List Draft}

theorem wellSorted_mono (hb : b' = true → b = true) (h : p.wellSorted b = true) :
    p.wellSorted b' = true := by
  cases p with
  | arguments stop ds =>
      rw [wellSorted, List.all_eq_true] at h ⊢
      exact fun d hd => d.wellSorted_mono hb (h d hd)
  | draft d => exact d.wellSorted_mono hb h
  | superclass d => exact d.wellSorted_mono hb h
  | computed d => exact d.wellSorted_mono hb h
  | index stop d => exact d.wellSorted_mono hb h
  | token _ _ _ => rfl
  | names _ => rfl
  | dot _ _ => rfl

theorem wellSorted_draft? (h : p.wellSorted b = true) (hd : p.draft? = some d) :
    d.wellSorted b = true := by
  unfold draft? at hd
  split at hd <;> cases hd
  case h_1 => exact h
  case h_3 s t =>
    unfold stringKind
    split <;> exact Draft.wellSorted_leaf rfl rfl
  all_goals exact Draft.wellSorted_leaf rfl rfl

/-- The drafts of a sorted piece are sorted. -/
theorem wellSorted_parts (h : p.wellSorted b = true) : ∀ d ∈ p.parts, d.wellSorted b = true := by
  cases hd : p.draft? with
  | some d =>
      rw [parts_of_draft? hd]
      simpa using wellSorted_draft? h hd
  | none =>
      cases p with
      | draft d => cases hd
      | token rule s text =>
          rw [parts_token, hd]
          simp
      | names ns => simp [parts, draft?]
      | dot stop name => simp [parts, draft?]
      | superclass d => simpa [parts, wellSorted] using h
      | computed d => simpa [parts, wellSorted] using h
      | index stop d => simpa [parts, wellSorted] using h
      | arguments stop ds => simpa [wellSorted] using h

theorem wellSorted_mapM (h : ∀ p ∈ ps, p.wellSorted b = true) (hds : ps.mapM draft? = some ds) :
    ∀ d ∈ ds, d.wellSorted b = true := by
  intro d hd
  rw [← parts_of_mapM hds, List.mem_flatMap] at hd
  obtain ⟨q, hq, hd⟩ := hd
  exact wellSorted_parts (h q hq) d hd

theorem wellSorted_links? {links : List (String × Draft)} (h : ∀ p ∈ ps, p.wellSorted b = true)
    (hlinks : links? ps = some links) : ∀ link ∈ links, link.2.wellSorted b = true := by
  fun_induction links? ps generalizing links with
  | case1 => cases hlinks; simp
  | case2 s op operand ps ls d hls hd ih =>
      cases hlinks
      intro link hlink
      rcases List.mem_cons.1 hlink with rfl | hlink
      · exact wellSorted_draft? (h operand (by simp)) hd
      · exact ih (fun q hq => h q (by simp [hq])) hls link hlink
  | case3 => cases hlinks
  | case4 => cases hlinks

theorem wellSorted_prefixed? {stop : Nat} (h : ∀ p ∈ ps, p.wellSorted b = true)
    (hd : prefixed? stop ps = some d) : d.wellSorted b = true := by
  fun_induction prefixed? stop ps generalizing d with
  | case1 => cases hd
  | case2 p => exact wellSorted_draft? (h p (by simp)) hd
  | case3 s op ps hps ih =>
      obtain ⟨e, he, rfl⟩ := Option.map_eq_some_iff.1 hd
      have hoperand := ih (fun q hq => h q (by simp [hq])) he
      rw [Draft.wellSorted_node]
      split
      · exact ⟨fun _ => rfl, by simpa [Kind.children, Kind.inside] using hoperand⟩
      · exact ⟨fun _ => rfl, by simpa [Kind.children, Kind.inside] using hoperand⟩
  | case4 => cases hd

theorem wellSorted_suffixed? {start : Nat} (hd : d.wellSorted b = true)
    (h : ∀ p ∈ ps, p.wellSorted b = true) (hd' : suffixed? start d ps = some d') :
    d'.wellSorted b = true := by
  fun_induction suffixed? start d ps with
  | case1 =>
      cases hd'
      exact hd
  | case2 d stop ds ps ih =>
      refine ih ?_ (fun q hq => h q (by simp [hq])) hd'
      have hds := h (.arguments stop ds) (by simp)
      rw [Draft.wellSorted_node]
      refine ⟨fun _ => rfl, ?_⟩
      simpa [Kind.children, Kind.inside, wellSorted, hd] using hds
  | case3 d stop name ps ih =>
      refine ih ?_ (fun q hq => h q (by simp [hq])) hd'
      rw [Draft.wellSorted_node]
      exact ⟨fun _ => rfl, by simpa [Kind.children, Kind.inside, Key.children] using hd⟩
  | case4 d stop e ps ih =>
      refine ih ?_ (fun q hq => h q (by simp [hq])) hd'
      have he := h (.index stop e) (by simp)
      rw [Draft.wellSorted_node]
      refine ⟨fun _ => rfl, ?_⟩
      simpa [Kind.children, Kind.inside, Key.children, hd, wellSorted] using he
  | case5 => cases hd'

/-! ## What rules make -/

variable {rule : Rule} {span : Span} {k : Kind Draft}

/-- A layer that a rule makes over sorted parts. -/
theorem wellSorted_layer (makes : rule.makes k = true)
    (hparts : ∀ c ∈ k.children, c.wellSorted (!rule.holdsStatements) = true) :
    (Draft.node span k).wellSorted (!rule.isStatement) = true := by
  simp only [Rule.makes, Bool.and_eq_true, Bool.or_eq_true, Bool.not_eq_true'] at makes
  refine (Draft.wellSorted_node _ _ _).2 ⟨fun hb => ?_, fun c hc => ?_⟩
  · exact makes.1.resolve_right (by simpa using hb)
  · refine c.wellSorted_mono (fun hinside => ?_) (hparts c hc)
    simpa [hinside] using makes.2

/-- Every rule makes a sorted piece of sorted pieces. -/
theorem assembleParts_wellSorted {text : Unit → String} (h : assembleParts rule span text ps = some p)
    (hparts : ∀ q ∈ ps, q.wellSorted (!rule.holdsStatements) = true) :
    p.wellSorted (!rule.isStatement) = true := by
  -- In a rule for expressions the parts stand where the piece does.
  have hsame : rule.isExpression = true → ∀ q ∈ ps, q.wellSorted (!rule.isStatement) = true := by
    intro hrule
    rw [Rule.isExpression, Bool.and_eq_true, Bool.not_eq_true', Bool.not_eq_true'] at hrule
    rwa [hrule.1, ← hrule.2]
  cases assembled_of_assembleParts h with
  | token => rfl
  | names _ => rfl
  | dot name => rfl
  | same hrule hmem => exact hsame hrule p hmem
  | layer makes hchildren _ =>
      refine wellSorted_layer makes fun c hc => ?_
      obtain ⟨q, hq, hd⟩ := List.mem_flatMap.1 (hchildren.subset hc)
      exact wellSorted_parts (hparts q hq) c hd
  | shorthand _ =>
      refine (Draft.wellSorted_node _ _ _).2 ⟨fun _ => rfl, fun c hc => ?_⟩
      obtain rfl := List.mem_singleton.1 hc
      exact Draft.wellSorted_leaf rfl rfl
  | superclass hrule hmem hd => exact wellSorted_draft? (hsame hrule _ hmem) hd
  | computed hrule hmem hd => exact wellSorted_draft? (hsame hrule _ hmem) hd
  | index hrule hmem hd => exact wellSorted_draft? (hsame hrule _ hmem) hd
  | arguments hrule hds => exact List.all_eq_true.2 (wellSorted_mapM (hsame hrule) hds)
  | @chain first rest d links hrule hpieces hd hlinks =>
      subst hpieces
      have hfirst := wellSorted_draft? (hsame hrule first List.mem_cons_self) hd
      have hrest := wellSorted_links?
        (fun q hq => hsame hrule q (List.mem_cons_of_mem _ hq)) hlinks
      cases links with
      | nil => exact hfirst
      | cons link links => exact (Draft.wellSorted_chain _ _ _ _).2 ⟨hfirst, hrest⟩
  | prefixed hrule hd => exact wellSorted_prefixed? (hsame hrule) hd
  | @suffixed first rest d d' hrule hpieces hd hresult =>
      subst hpieces
      exact wellSorted_suffixed? (wellSorted_draft? (hsame hrule first List.mem_cons_self) hd)
        (fun q hq => hsame hrule q (List.mem_cons_of_mem _ hq)) hresult

theorem exists_of_ofCaptures {mode : Mode} {cs : List (Capture Rule)}
    (h : ofCaptures mode cs = .ok ps) : ∀ q ∈ ps, ∃ c ∈ cs, ofCapture mode c = .ok q := by
  induction cs generalizing ps with
  | nil =>
      cases h
      simp
  | cons c cs ih =>
      obtain ⟨q, qs, rfl, hq, hqs⟩ := ofCaptures_cons h
      simp only [List.mem_cons, forall_eq_or_imp, exists_eq_or_imp]
      exact ⟨Or.inl hq, fun r hr => Or.inr (ih hqs r hr)⟩

/-- The piece of a capture is sorted, as its rule says. -/
theorem ofCapture_wellSorted {mode : Mode} {c : Capture Rule}
    (hc : c.Nested fun r n => n.isStatement = true → r.holdsStatements = true) :
    ∀ {p : Piece}, ofCapture mode c = .ok p → p.wellSorted (!c.name.isStatement) = true := by
  induction hc with
  | @mk name start stop input inner names _ ih =>
      intro p h
      obtain ⟨ps, hinner, h⟩ := assemble_of_ofCapture h
      refine assembleParts_wellSorted h fun q hq => ?_
      obtain ⟨c, hc, hqc⟩ := exists_of_ofCaptures hinner q (List.mem_filter.1 hq).1
      refine wellSorted_mono (fun hholds => ?_) (ih c hc hqc)
      cases hs : c.name.isStatement with
      | false => rfl
      | true =>
          rw [Capture.name, names c hc hs] at hholds
          exact hholds

end Piece

/-! ## Programs that were read -/

/-- The statements of a text are the drafts captured in its program, the end of the text left out. -/
theorem captures_of_draftsIn {mode : Mode} {text : String} {body : List Draft}
    (h : draftsIn mode text = .ok body) :
    ∃ (c : Peg.Cursor) (start stop : Nat) (input : List Char) (inner : List (Capture Rule))
      (reach : Nat) (ps : List Piece),
      matchText text = .matched c [.mk .program start stop input inner] reach ∧
      Piece.ofCaptures mode inner = .ok ps ∧
      (ps.filter (!·.isToken .endOfInput)).mapM Piece.draft? = some body := by
  unfold draftsIn at h
  split at h
  · next c captures reach hmatch =>
      unfold bodyOf at h
      split at h
      · next start stop input inner =>
          split at h
          · cases hps : Piece.ofCaptures mode inner with
            | error d => rw [hps] at h; cases h
            | ok ps =>
                rw [hps] at h
                exact ⟨c, start, stop, input, inner, reach, ps, hmatch, hps,
                  Piece.eq_some_of_complete h⟩
          · cases h
      · cases h
  · cases h
  · cases h

/-- The statements of a text are sorted. -/
theorem draftsIn_wellSorted {mode : Mode} {text : String} {body : List Draft}
    (h : draftsIn mode text = .ok body) : ∀ d ∈ body, d.wellSorted false = true := by
  obtain ⟨c, start, stop, input, inner, reach, ps, hmatch, hps, hbody⟩ := captures_of_draftsIn h
  -- Every capture of the match, at any depth, is of a kind that the grammar allows where it stands.
  have hclosed : grammar.Closed fun _ => True := fun _ _ _ _ _ => trivial
  obtain ⟨-, hcapture⟩ := (Peg.matches_of_run hmatch).nested nests_statements hclosed
    (fun _ _ => trivial) _ (List.mem_singleton.2 rfl)
  cases hcapture with
  | mk names parts =>
      refine Piece.wellSorted_mapM (fun q hq => ?_) hbody
      obtain ⟨c, hc, hqc⟩ := Piece.exists_of_ofCaptures hps q (List.mem_filter.1 hq).1
      exact Piece.wellSorted_mono (by simp) (Piece.ofCapture_wellSorted (parts c hc) hqc)

/-- The programs that are read from a text are sorted. -/
theorem read_wellSorted {mode : Mode} {text : String} {body : List (Ast Span)}
    (h : read mode text = .ok body) : ∀ a ∈ body, a.wellSorted false = true := by
  unfold read at h
  cases hdrafts : draftsIn mode text with
  | error d => rw [hdrafts] at h; cases h
  | ok ds =>
      rw [hdrafts] at h
      cases h
      intro a ha
      obtain ⟨d, hd, rfl⟩ := List.mem_map.1 ha
      exact d.wellSorted_resolve (draftsIn_wellSorted hdrafts d hd)

/-- The program of a parsed tree is sorted. -/
theorem parse_wellSorted {mode : Mode} {text : String} {t : Tree} (h : parse mode text = .ok t) :
    t.program.wellSorted false = true := by
  obtain ⟨body, a, hdrafts, hrooted, hspans⟩ := parse_rooted h
  rw [hrooted.program_eq, ← Ast.wellSorted_mapNotes t.span, hspans, Ast.wellSorted_node]
  refine ⟨by simp, fun c hc => ?_⟩
  obtain ⟨d, hd, rfl⟩ := List.mem_map.1 hc
  exact d.wellSorted_resolve (draftsIn_wellSorted hdrafts d hd)

end LogLabel.Program
