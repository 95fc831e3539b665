import LogLabel.Proofs.Expansion.Faithful

set_option autoImplicit false

/-!
# The end of a pass

The loop of the pass puts what takes the place of a label back on the list of nodes to visit,
so it is not clear that it ends. It does for tame tables (`LabelTable.Tame`), and then the
pass expands nothing that it made itself. It does not for all tables: the statements of a made
block are visited when the block is the whole body of a label, and a label among them is
expanded again.

* `Expansion.labelsLeft`, `Expansion.nodesLeft`: the measure, with the labels of the source
  first. An expanded label is gone, and what was made for it has no label of the source; any
  other visit leaves fewer nodes (`Expansion.Faithful.decreases`).
* `Expansion.pass_ends`: with a tame table the loop ends, and whatever it expands is a label
  or an expression statement of the source.
* `Expansion.pass_relapses`: a template that makes a block with its own label in it keeps the
  loop going for ever.
-/

namespace LogLabel.Expansion

open Program (Ast Kind NodeId Span Tree)
open Purity (harmless harmless_node)

/-! ## The measure -/

/-- The number of labels of the source among the nodes of the programs to visit. -/
def labelsLeft (c : ExpansionContext) (t₀ : Tree) (ps : List (Ast NodeId)) : Nat :=
  (ps.flatMap Ast.notes).countP fun i => Purity.isKnownLabel c.known (t₀.kind i)

/-- The number of nodes of the programs to visit. -/
def nodesLeft (ps : List (Ast NodeId)) : Nat := (ps.flatMap Ast.notes).length

section Measure

variable {c : ExpansionContext} {t₀ : Tree} {session session' : Session} {x a a' : Ast NodeId}
  {ps rs : List (Ast NodeId)}

theorem labelsLeft_append (rs ps : List (Ast NodeId)) :
    labelsLeft c t₀ (rs ++ ps) = labelsLeft c t₀ rs + labelsLeft c t₀ ps := by
  simp [labelsLeft]

theorem nodesLeft_append (rs ps : List (Ast NodeId)) :
    nodesLeft (rs ++ ps) = nodesLeft rs + nodesLeft ps := by
  simp [nodesLeft]

/-- The parts of a program have one node less. -/
theorem nodesLeft_children (x : Ast NodeId) : nodesLeft x.kind.children < nodesLeft [x] := by
  simp [nodesLeft, Ast.notes_eq x]

theorem labelsLeft_children (x : Ast NodeId) :
    labelsLeft c t₀ x.kind.children ≤ labelsLeft c t₀ [x] := by
  simp only [labelsLeft, List.flatMap_singleton, Ast.notes_eq x, List.countP_cons]
  omega

/-- The programs that take the place of a label of the source have fewer labels of the source. -/
theorem labelsLeft_expanded {p : NodeId} {body : Ast NodeId} (label : String)
    {pairs : List (Ast NodeId × Ast NodeId)}
    (hlabel : Purity.isKnownLabel c.known (t₀.kind p) = true)
    (hunlabeled : ∀ pair ∈ pairs, Unlabeled c.known t₀ pair.2)
    (hnodup : ((body.subst (Ast.replacement pairs)).unwrapped.flatMap Ast.notes).Nodup) :
    labelsLeft c t₀ (body.subst (Ast.replacement pairs)).unwrapped
      < labelsLeft c t₀ [.node p (.labeled label body)] := by
  -- No label of the source has come in: the made programs have none, and no node occurs twice.
  have hbody : labelsLeft c t₀ (body.subst (Ast.replacement pairs)).unwrapped
      ≤ labelsLeft c t₀ [body] := by
    rw [labelsLeft, labelsLeft, List.countP_eq_length_filter, List.countP_eq_length_filter]
    apply List.Subperm.length_le
    apply (hnodup.filter _).subperm
    intro i hi
    rw [List.mem_filter] at hi ⊢
    obtain ⟨hmem, hknown⟩ := hi
    obtain ⟨r, hr, hir⟩ := List.mem_flatMap.1 hmem
    rcases Ast.mem_notes_subst body ((Ast.unwrapped_part hr).notes_subset hir) with hi | ⟨j, m, hm, hi⟩
    · exact ⟨by simpa using hi, hknown⟩
    · obtain ⟨pair, hpair, -, rfl⟩ := Ast.mem_of_replacement hm
      rw [hunlabeled pair hpair i hi] at hknown
      cases hknown
  have hsplit : labelsLeft c t₀ [.node p (.labeled label body)] = labelsLeft c t₀ [body] + 1 := by
    simp [labelsLeft, Kind.children, hlabel]
  omega

/-- With a tame table, a label that is processed is a label of the source. -/
theorem Awaits.label_of_source {p : NodeId} {label : String} {body : Ast NodeId} {s : Synthesizer}
    (h : Awaits c t₀ session (.node p (.labeled label body))) (htame : c.table.Tame)
    (hhandled : p ∉ session.handled) (hs : c.table.get? label = some s) :
    ∃ body₀ : Ast NodeId, (Ast.node p (.labeled label body₀)).Part t₀.program ∧
      Becomes session.handled (Inert c t₀) body₀ body := by
  rcases h.of_label hhandled with hinert | ⟨body₀, hlabel, hbody, -⟩
  · exact absurd htame (hinert.not_tame (known_of_get? c hs))
  · exact ⟨body₀, hlabel, hbody⟩

/-- With a tame table, a visit leaves fewer labels of the source, or as many and fewer nodes. -/
theorem Faithful.decreases (hsource : Source t₀) (htame : c.table.Tame)
    (h : Faithful c t₀ (x :: ps) session) (htracks' : Tracks session'.tree (rs ++ ps) a')
    (hvisited : Visited c session x rs session') :
    Prod.Lex (· < ·) (· < ·) (labelsLeft c t₀ (rs ++ ps), nodesLeft (rs ++ ps))
      (labelsLeft c t₀ (x :: ps), nodesLeft (x :: ps)) := by
  have hfirst := h.pending x List.mem_cons_self
  have hlabelsBefore : labelsLeft c t₀ (x :: ps) = labelsLeft c t₀ [x] + labelsLeft c t₀ ps :=
    labelsLeft_append [x] ps
  have hnodesBefore : nodesLeft (x :: ps) = nodesLeft [x] + nodesLeft ps := nodesLeft_append [x] ps
  have hlabels : labelsLeft c t₀ x.kind.children ≤ labelsLeft c t₀ [x] := labelsLeft_children x
  have hnodes := nodesLeft_children x
  rw [Prod.lex_def]
  simp only [labelsLeft_append, nodesLeft_append, hlabelsBefore, hnodesBefore]
  have hnone : labelsLeft c t₀ [] = 0 ∧ nodesLeft [] = 0 := ⟨rfl, rfl⟩
  -- Only an expansion brings new nodes in. It takes a label of the source away.
  cases hvisited with
  | passed _ => omega
  | entered _ _ => omega
  | stripped _ _ _ _ _ => omega
  | @expanded p label body s pairs _ hhandled hs hstrip hpure hpairs hmade hnew hapart hplaced =>
      left
      obtain ⟨body₀, hlabel, -⟩ := hfirst.label_of_source htame hhandled hs
      have hkind : t₀.kind p = .labeled label body₀.note :=
        (hsource.rooted.toHeld.of_part hlabel).holds.kind_eq
      have hknown : Purity.isKnownLabel c.known (t₀.kind p) = true := by
        rw [hkind]
        exact known_of_get? c hs
      have hunlabeled : ∀ pair ∈ pairs, Unlabeled c.known t₀ pair.2 := by
        intro pair hpair
        apply made_unlabeled hsource h.grows hfirst hhandled hpure ?_ (hmade pair hpair)
        rw [← hpairs]
        exact List.mem_map.2 ⟨pair, hpair, rfl⟩
      have hnodup := htracks'.apart
      rw [List.flatMap_append, List.nodup_append] at hnodup
      have hless := labelsLeft_expanded label hknown hunlabeled hnodup.1
      omega

end Measure

/-! ## The loop -/

/-- The loop ends from a state: with enough fuel it has one result, which is a failure for a side
effect only. -/
def Ends (c : ExpansionContext) (st : List NodeId × Session) : Prop :=
  ∃ (n : Nat) (result : Except (Diagnostic × Session) Session),
    (∀ fuel, n ≤ fuel → loop c fuel st.1 st.2 = result) ∧
      ∀ d session, result = .error (d, session) → d.category = .purity

section Loop

variable {c : ExpansionContext} {id : NodeId} {next pending : List NodeId} {session session' : Session}

theorem ends_nil (session : Session) : Ends c ([], session) := by
  refine ⟨0, .ok session, fun fuel _ => ?_, fun d session' h => by cases h⟩
  cases fuel <;> rfl

theorem Ends.visit (h : Ends c (next ++ pending, session'))
    (hstep : step c id session = .ok (next, session')) : Ends c (id :: pending, session) := by
  obtain ⟨n, result, hloop, hfailure⟩ := h
  refine ⟨n + 1, result, fun fuel hfuel => ?_, hfailure⟩
  cases fuel with
  | zero => omega
  | succ fuel =>
      rw [loop, hstep]
      exact hloop fuel (by omega)

theorem ends_of_error {d : Diagnostic} (hstep : step c id session = .error (d, session'))
    (hd : d.category = .purity) : Ends c (id :: pending, session) := by
  refine ⟨1, .error (d, session'), fun fuel hfuel => ?_, ?_⟩
  · cases fuel with
    | zero => omega
    | succ fuel => rw [loop, hstep]
  · intro d' session'' heq
    obtain ⟨rfl, rfl⟩ := Prod.mk.inj (Except.error.inj heq)
    exact hd

/-- The loop ends with enough fuel exactly when the pass halts, with a table of built-in labels and
compiled templates. -/
theorem ends_iff_halts (hc : NoNative c.table) {st : List NodeId × Session} (h : Sound st) :
    Ends c st ↔ Halts c st := by
  constructor
  · rintro ⟨n, result, hloop, hfailure⟩
    refine (comesTo_of_loop (hloop n (Nat.le_refl n)) ?_).halts
    rintro ⟨session, rfl⟩
    cases hfailure _ _ rfl
  · intro hhalts
    obtain ⟨result, hresult⟩ := hhalts.exists_comesTo
    obtain ⟨n, hloop⟩ := hresult.exists_loop
    exact ⟨n, result, hloop, fun d session heq => ((h.comesTo hc hresult).2 d session heq).2⟩

/-- With a tame table the loop ends from every state that satisfies the invariants. -/
theorem Faithful.ends {t₀ : Tree} (hsource : Source t₀) (hc : NoNative c.table)
    (htame : c.table.Tame) {ps : List (Ast NodeId)} {a : Ast NodeId} (h : Faithful c t₀ ps session)
    (htracks : Tracks session.tree ps a) : Ends c (ps.map Ast.note, session) := by
  have hwf : WellFounded (Prod.Lex (· < ·) (· < ·) : Nat × Nat → Nat × Nat → Prop) :=
    WellFounded.prod_lex Nat.lt_wfRel.wf Nat.lt_wfRel.wf
  -- By induction on the labels of the source and the nodes that are left.
  generalize hmeasure : (labelsLeft c t₀ ps, nodesLeft ps) = measure
  induction measure using hwf.induction generalizing ps session a with
  | _ measure ih =>
      subst hmeasure
      match ps, h, htracks with
      | [], _, _ => exact ends_nil session
      | x :: ps, h, htracks =>
          rcases step_tracks (fun label s => hc.get?) htracks with
            ⟨rs, a', session', hok, htracks', hvisited⟩ | ⟨d, session', herror, hcategory, -⟩
          · have hnext : Faithful c t₀ (rs ++ ps) session' := h.visit hsource htracks htracks' hvisited
            have hless := h.decreases hsource htame htracks' hvisited
            have hends := ih _ hless hnext htracks' rfl
            rw [List.map_append] at hends
            exact hends.visit hok
          · exact ends_of_error herror hcategory

end Loop

/-- With a tame table the pass over a source ends. -/
theorem ends_of_tame {text : String} {t : Tree} (hparse : Program.parse .source text = .ok t)
    {c : ExpansionContext} {templates : Option (NameMap (Option String))}
    (htable : Options.buildTable templates [] = .ok c.table) (htame : c.table.Tame) :
    Ends c ([t.root], { tree := t }) := by
  have hsource := source_parse hparse
  have hends := (faithful_start hsource).ends hsource (noNative_of_buildTable htable) htame
    (tracks_parse hparse)
  rwa [List.map_singleton, hsource.rooted.root_eq] at hends

/-! ## What is expanded -/

/-- With a tame table, a label that is processed is a label of the source, and the statements that it
expands are expression statements of the source. -/
theorem Faithful.expands_source {c : ExpansionContext} {t₀ : Tree} {session : Session}
    {x a : Ast NodeId} {ps : List (Ast NodeId)} (hsource : Source t₀) (htame : c.table.Tame)
    (h : Faithful c t₀ (x :: ps) session) (htracks : Tracks session.tree (x :: ps) a)
    (hhandled : x.note ∉ session.handled) {label : String} {body : NodeId}
    (hkind : session.tree.kind x.note = .labeled label body) (hknown : c.known label = true) :
    (t₀.Reachable x.note ∧ ∃ b, t₀.kind x.note = .labeled label b) ∧
      ∀ i ∈ expressionStatements c.known session.handled (session.tree.reading body),
        t₀.Reachable i ∧ ∃ y, t₀.kind i = .expression y := by
  have hheld := htracks.toHeld.of_part (htracks.parts x List.mem_cons_self)
  have hroot : t₀.Reachable t₀.program.note := by
    rw [hsource.rooted.root_eq]
    exact .root
  have hreachable : ∀ d : Ast NodeId, d.Part t₀.program → t₀.Reachable d.note := fun d hd =>
    hsource.rooted.toHeld.reachable_of_part hroot hd
  -- The program to visit is a label as well, with a body at the address that the tree has.
  obtain ⟨body', hx, rfl⟩ := hheld.exists_label hkind
  obtain ⟨s, hs⟩ := Option.isSome_iff_exists.1 hknown
  have hfirst := h.pending x List.mem_cons_self
  rw [hx] at hfirst hheld
  obtain ⟨body₀, hlabel, hbody⟩ := hfirst.label_of_source htame hhandled hs
  refine ⟨⟨hreachable (.node x.note (.labeled label body₀)) hlabel, body₀.note, ?_⟩, fun i hi => ?_⟩
  · exact (hsource.rooted.toHeld.of_part hlabel).holds.kind_eq
  · have hbody' : session.tree.Held body' := hheld.part (List.mem_singleton.2 rfl)
    rw [hbody'.reading_eq, expressionStatements_eq, List.mem_map] at hi
    obtain ⟨e, he, rfl⟩ := hi
    -- The statement is one of the source, though its parts may have become others.
    obtain ⟨e₀, f, he₀, rfl, -⟩ := hbody.bodyRegion he
    have hpart : e₀.Part t₀.program := he₀.trans (Ast.part_of_labeled hlabel)
    refine ⟨hreachable e₀ hpart, ?_⟩
    obtain ⟨y, hy⟩ := (bodyRegion_part he).2
    have hexpression : isExpression e₀.kind = true := by
      rw [← isExpression_map f]
      exact isExpression_iff.2 ⟨y, hy⟩
    obtain ⟨y₀, hy₀⟩ := isExpression_iff.1 hexpression
    refine ⟨y₀.note, ?_⟩
    rw [Ast.note_node, (hsource.rooted.toHeld.of_part hpart).holds.kind_eq, hy₀]
    rfl

/-- With built-in labels and compiled templates of which no block has a statement labeled with a
name of the table, the pass over a source ends, for any strip policy and environment: with enough
fuel the loop has one result, which is a failure for a side effect only. Nothing that was made in
the pass is expanded again: whenever a label is processed, it is a label of the source, and the
statements that it expands are expression statements of the source. -/
theorem pass_ends {text : String} {t : Tree} (hparse : Program.parse .source text = .ok t)
    {c : ExpansionContext} {templates : Option (NameMap (Option String))}
    (htable : Options.buildTable templates [] = .ok c.table) (htame : c.table.Tame) :
    Ends c ([t.root], { tree := t }) ∧
    ∀ id rest session,
      Relation.ReflTransGen (Iterates c) ([t.root], { tree := t }) (id :: rest, session) →
      id ∉ session.handled → ∀ label body, session.tree.kind id = .labeled label body →
      c.known label = true →
        (t.Reachable id ∧ ∃ b, t.kind id = .labeled label b) ∧
          ∀ i ∈ expressionStatements c.known session.handled (session.tree.reading body),
            t.Reachable i ∧ ∃ x, t.kind i = .expression x := by
  refine ⟨ends_of_tame hparse htable htame, ?_⟩
  intro id rest session hrun hhandled label body hkind hknown
  obtain ⟨x, ps, a, rfl, htracks, hfaithful⟩ := exists_faithful hparse htable hrun
  exact hfaithful.expands_source (source_parse hparse) htame htracks hhandled hkind hknown

/-- Options with one template. -/
def oneTemplate (label source : String) : Option (NameMap (Option String)) :=
  some ⟨[(label, some source)], List.pairwise_singleton _ _⟩

/-- A context that strips nothing, with a table that was checked. -/
theorem exists_context {templates : Option (NameMap (Option String))} {check : LabelTable → Bool}
    (h : (Options.buildTable templates []).toOption.map check = some true) :
    ∃ c : ExpansionContext, c.strip = none ∧ Options.buildTable templates [] = .ok c.table ∧
      check c.table = true := by
  obtain ⟨table, htable, hcheck⟩ := Option.map_eq_some_iff.1 h
  exact ⟨{ plainContext with table := table }, rfl, eq_ok_of_toOption htable, hcheck⟩

/-- The pass with a template that is a block without labels. -/
theorem pass_ends_block :
    ∃ (c : ExpansionContext) (t : Tree),
      Options.buildTable (oneTemplate "note" "\x7bf(%%content%%)\x7d") [] = .ok c.table ∧
      c.table.Tame ∧ Program.parse .source "note:a" = .ok t ∧ Ends c ([t.root], { tree := t }) := by
  have hseen : (Options.buildTable (oneTemplate "note" "\x7bf(%%content%%)\x7d") []).toOption.map
      (fun table => decide table.Tame) = some true := by decide +kernel
  have hread : (Program.parse .source "note:a").toOption.isSome = true := by decide +kernel
  obtain ⟨c, -, htable, htame⟩ := exists_context hseen
  obtain ⟨t, hparse⟩ := Option.isSome_iff_exists.1 hread
  have hparse := eq_ok_of_toOption hparse
  have htame : c.table.Tame := of_decide_eq_true htame
  exact ⟨c, t, htable, htame, hparse, (pass_ends hparse htable htame).1⟩

/-! ## Passes without an end -/

/-- A template that is a block of one label over a call with the content. -/
def isRelapse (label : String) : Ast Span → Bool
  | .node _ (.block [.node _ (.labeled l (.node _ (.expression
      (.node _ (.call (.node _ (.ident _)) [.node _ (.placeholder name)])))))]) =>
      l == label && name == "content"
  | _ => false

/-- A filled template of this kind. -/
theorem exists_of_isRelapse {label : String} {a : Ast Span} (h : isRelapse label a = true)
    (v : Template.Values) (s : Span) :
    ∃ callee, Template.filled v s a = .node s (.block [.node s (.labeled label (.node s (.expression
      (.node s (.call (.node s (.ident callee)) v.content)))))]) := by
  unfold isRelapse at h
  split at h
  · next callee _ name =>
      rw [Bool.and_eq_true, beq_iff_eq, beq_iff_eq] at h
      obtain ⟨rfl, rfl⟩ := h
      refine ⟨callee, ?_⟩
      simp [Template.filled, Template.filler_node, Template.filledLayer, Template.spliced,
        Template.isContentSlot, Slot.ofName?, Kind.map]
  · cases h

theorem exists_of_mapNotes_block {g : NodeId → Span} {made : Ast NodeId} {s₁ s₂ s₃ : Span}
    {label : String} {y : Ast Span}
    (h : made.mapNotes g = .node s₁ (.block [.node s₂ (.labeled label (.node s₃ (.expression y)))])) :
    ∃ i p q e, made = .node i (.block [.node p (.labeled label (.node q (.expression e)))]) ∧
      e.mapNotes g = y := by
  obtain ⟨i, k⟩ := made
  rw [Ast.mapNotes_node, Ast.node.injEq] at h
  cases k with
  | block bs =>
      obtain ⟨⟨p, k⟩, rfl, hb⟩ := List.map_eq_singleton_iff.1 (Kind.block.inj h.2)
      rw [Ast.mapNotes_node, Ast.node.injEq] at hb
      cases k with
      | labeled l d =>
          obtain ⟨rfl, hd⟩ := Kind.labeled.inj hb.2
          obtain ⟨q, k⟩ := d
          rw [Ast.mapNotes_node, Ast.node.injEq] at hd
          cases k with
          | expression e => exact ⟨i, p, q, e, rfl, Kind.expression.inj hd.2⟩
          | _ => cases hd.2
      | _ => cases hb.2
  | _ => cases h.2

theorem harmless_logged {ι : Type} {known : String → Bool} {x : Ast ι} (h : harmless known x = true) :
    ∀ d ∈ x.logged, harmless known d = true := by
  intro d hd
  obtain ⟨i, k⟩ := x
  cases k with
  | sequence es => exact Purity.harmless_children h rfl d hd
  | _ =>
      obtain rfl := List.mem_singleton.1 hd
      exact h

/-- The block that such a template makes of a harmless expression. -/
theorem Made.exists_of_isRelapse {c : ExpansionContext} {label : String} {form : Template}
    {m : Metadata} {t t' : Tree} {e made x : Ast NodeId}
    (h : Made c (.template form) m t t' e made) (hform : isRelapse label form.body = true)
    (hx : e.kind = .expression x) (hharmless : harmless c.known x = true) :
    ∃ i p q y, made = .node i (.block [.node p (.labeled label (.node q (.expression y)))]) ∧
      harmless c.known y = true := by
  obtain ⟨z, hz, hspans, -⟩ := h.written x hx
  obtain rfl := Option.some.inj hz
  obtain ⟨callee, hfilled⟩ := Expansion.exists_of_isRelapse hform
    ⟨c.logFunction, (x.mapNotes t.span).logged, Synthesizer.recordOf m (t.span e.note)⟩ (t.span e.note)
  rw [hfilled] at hspans
  obtain ⟨i, p, q, y, rfl, hy⟩ := exists_of_mapNotes_block hspans
  refine ⟨i, p, q, y, rfl, ?_⟩
  rw [← Purity.harmless_mapNotes t'.span, hy, harmless_node]
  refine Or.inr ⟨rfl, fun d hd => ?_⟩
  rcases List.mem_cons.1 hd with rfl | hd
  · rfl
  · apply harmless_logged ?_ d hd
    rwa [Purity.harmless_mapNotes]

/-- A label over an expression statement that the pass would expand, none of whose nodes was made
as a statement. -/
structure Relapsed (c : ExpansionContext) (label : String) (session : Session) (x : Ast NodeId) :
    Prop where
  shape : ∃ p q e, x = .node p (.labeled label (.node q (.expression e))) ∧
    harmless c.known e = true
  fresh : ∀ i ∈ x.notes, i ∉ session.handled
  stored : ∀ i ∈ session.handled, i.index < session.tree.size

section Relapsing

variable {c : ExpansionContext} {label : String} {form : Template} {session : Session}
  {x a : Ast NodeId} {ps : List (Ast NodeId)}

/-- Expanding the label leaves a label of the same kind in its place. -/
theorem Relapsed.step (hc : NoNative c.table) (hstrip : c.strip = none)
    (hs : c.table.get? label = some (.template form)) (hform : isRelapse label form.body = true)
    (h : Relapsed c label session x) (htracks : Tracks session.tree (x :: ps) a) :
    ∃ (x' a' : Ast NodeId) (session' : Session),
      Expansion.step c x.note session = .ok ([x'.note], session') ∧
        Tracks session'.tree (x' :: ps) a' ∧ Relapsed c label session' x' := by
  obtain ⟨p, q, e, rfl, hharmless⟩ := h.shape
  have hpure : Purity.violations c.known (.node q (.expression e)) = [] := by
    rw [Purity.violations_eq_nil]
    exact ⟨rfl, by simpa [Kind.children] using hharmless⟩
  rcases step_tracks (fun label s => hc.get?) htracks with
    ⟨rs, a', session', hok, htracks', hvisited⟩ | ⟨d, session', -, -, -, p', label', body, hx, himpure⟩
  · cases hvisited with
    | passed hhandled => exact absurd hhandled (h.fresh p (by simp))
    | entered _ hlabel =>
        have hknown : c.known label = false := hlabel
        rw [known_of_get? c hs] at hknown
        cases hknown
    | stripped _ _ hstripped _ _ =>
        rw [hstrip] at hstripped
        cases hstripped
    | @expanded _ _ _ s pairs _ hhandled hs' _ _ hpairs hmade hnew hapart _ =>
        obtain rfl : s = .template form := Option.some.inj (hs'.symm.trans hs)
        -- The expression statement is all there is to expand, and the block is made for it.
        have hregion : bodyRegion c.known session.handled (.node q (.expression e))
            = [.node q (.expression e)] := by
          rw [bodyRegion, Ast.note_node, if_neg (h.fresh q (by simp [Kind.children]))]
          rfl
        rw [hregion] at hpairs
        obtain ⟨⟨_, made⟩, rfl, rfl⟩ := List.map_eq_singleton_iff.1 hpairs
        have hone := hmade _ List.mem_cons_self
        obtain ⟨i, p', q', y, rfl, hy⟩ := hone.exists_of_isRelapse hform rfl hharmless
        have hsubst : ∀ m : Ast NodeId, (Ast.node q (.expression e)).subst
            (Ast.replacement [(.node q (.expression e), m)]) = m := by
          intro m
          rw [Ast.subst_node, Ast.replacement_cons, Ast.note_node, if_pos rfl]
          rfl
        rw [hsubst] at hok htracks'
        refine ⟨_, a', session', hok, htracks', ⟨p', q', y, rfl, hy⟩, fun j hj => ?_, fun j hj => ?_⟩
        · -- The nodes of the new label are new, or they were in the old one and not made either.
          have hblock := hone.nodup
          rw [Ast.notes_node, List.nodup_cons] at hblock
          have hinside : j ∈ (Kind.block
              [Ast.node p' (.labeled label (.node q' (.expression y)))]).children.flatMap Ast.notes :=
            List.mem_flatMap.2 ⟨_, List.mem_cons_self, hj⟩
          intro hmem
          rw [hnew] at hmem
          rcases List.mem_cons.1 hmem with rfl | hmem
          · exact hblock.1 hinside
          · rcases hone.origin j (Ast.mem_notes_of_inner hinside) with hold | hge
            · exact h.fresh j (Ast.notes_subset_of_mem (a := .node p (.labeled label _))
                (List.mem_singleton.2 rfl) (Ast.mem_notes_of_inner hold)) hmem
            · have hlt := h.stored j hmem
              omega
        · rw [hnew] at hj
          rcases List.mem_cons.1 hj with rfl | hj
          · exact hone.stored _ (by simp)
          · exact Nat.lt_of_lt_of_le (h.stored j hj) hapart.size_le
  · obtain ⟨-, -, rfl⟩ : _ ∧ _ ∧ _ := by simpa using hx
    exact absurd hpure himpure

/-- The loop does not end: it runs out of any fuel. -/
theorem Relapsed.loop (hc : NoNative c.table) (hstrip : c.strip = none)
    (hs : c.table.get? label = some (.template form)) (hform : isRelapse label form.body = true)
    (fuel : Nat) (h : Relapsed c label session x) (htracks : Tracks session.tree (x :: ps) a) :
    ∃ session', Expansion.loop c fuel (x.note :: ps.map Ast.note) session
      = .error (⟨.unsettledExpansion, none⟩, session') := by
  induction fuel generalizing session x a with
  | zero => exact ⟨session, rfl⟩
  | succ fuel ih =>
      obtain ⟨x', a', session', hok, htracks', h'⟩ := h.step hc hstrip hs hform htracks
      obtain ⟨session'', hloop⟩ := ih h' htracks'
      exact ⟨session'', by rw [Expansion.loop, hok]; exact hloop⟩

end Relapsing

/-- The pass over a source that is one expression statement below a label does not end, when the
template of the label is a block with the same label over a call of the content. -/
theorem pass_relapses {mode : Program.Mode} {text : String} {t : Tree}
    (hparse : Program.parse mode text = .ok t) {c : ExpansionContext}
    {templates : Option (NameMap (Option String))}
    (htable : Options.buildTable templates [] = .ok c.table) (hstrip : c.strip = none) {label : String}
    {form : Template} (hs : c.table.get? label = some (.template form))
    (hform : isRelapse label form.body = true) {p q : NodeId} {e : Ast NodeId}
    (hprogram : t.program.kind = .program [.node p (.labeled label (.node q (.expression e)))])
    (hharmless : harmless c.known e = true) (fuel : Nat) :
    ∃ session, loop c fuel [t.root] { tree := t }
      = .error (⟨.unsettledExpansion, none⟩, session) := by
  have htracks := tracks_parse hparse
  cases fuel with
  | zero => exact ⟨_, rfl⟩
  | succ fuel =>
      -- The root is entered, and the label is next.
      have hkind : t.kind t.root = .program [p] := by
        rw [← htracks.root_eq, htracks.holds.kind_eq, hprogram]
        rfl
      have hroot : step c t.root { tree := t } = .ok ([p], { tree := t }) := by
        rw [step_other List.not_mem_nil (by rw [hkind]; rfl), hkind]
        rfl
      have hpart : (Ast.node p (.labeled label (.node q (.expression e)))).Part t.program :=
        .of_mem (by rw [hprogram]; exact List.mem_singleton.2 rfl)
      have hnext : Tracks t ([.node p (.labeled label (.node q (.expression e)))] ++ []) t.program :=
        htracks.descend (by simpa using hpart) (by simpa using hpart.nodup htracks.nodup)
      have hrelapsed : Relapsed c label { tree := t }
          (.node p (.labeled label (.node q (.expression e)))) :=
        ⟨⟨p, q, e, rfl, hharmless⟩, fun i _ => List.not_mem_nil,
          fun i hi => absurd hi List.not_mem_nil⟩
      rw [loop, hroot]
      exact hrelapsed.loop (noNative_of_buildTable htable) hstrip hs hform fuel hnext

/-- A program of one name below a label. -/
def isNameBelow {ι : Type} (label : String) : Ast ι → Bool
  | .node _ (.program [.node _ (.labeled l (.node _ (.expression (.node _ (.ident _)))))]) =>
      l == label
  | _ => false

theorem exists_of_isNameBelow {ι : Type} {label : String} {a : Ast ι}
    (h : isNameBelow label a = true) :
    ∃ p q i name, a.kind
      = .program [.node p (.labeled label (.node q (.expression (.node i (.ident name)))))] := by
  unfold isNameBelow at h
  split at h
  · next p l q i name =>
      obtain rfl := beq_iff_eq.1 h
      exact ⟨p, q, i, name, rfl⟩
  · cases h

/-- Whether the template of a label in a table keeps the pass from ending. -/
def hasRelapse (label : String) (table : LabelTable) : Bool :=
  match table.get? label with
  | some (.template form) => isRelapse label form.body
  | _ => false

/-- The pass over a text that is one name below a label does not end if the template of the label has
its own label in a block. -/
theorem loop_of_hasRelapse {text : String} {t : Tree} (hparse : Program.parse .source text = .ok t)
    {c : ExpansionContext} {templates : Option (NameMap (Option String))}
    (htable : Options.buildTable templates [] = .ok c.table) (hstrip : c.strip = none) {label : String}
    (htemplate : hasRelapse label c.table = true) (hshape : isNameBelow label t.program = true)
    (fuel : Nat) :
    ∃ session, loop c fuel [t.root] { tree := t }
      = .error (⟨.unsettledExpansion, none⟩, session) := by
  obtain ⟨p, q, i, name, hprogram⟩ := exists_of_isNameBelow hshape
  unfold hasRelapse at htemplate
  split at htemplate
  · next form hs => exact pass_relapses hparse htable hstrip hs htemplate hprogram rfl fuel
  · cases htemplate

/-- Such a pass does not halt. -/
theorem not_halts_of_hasRelapse {text : String} {t : Tree}
    (hparse : Program.parse .source text = .ok t) {c : ExpansionContext}
    {templates : Option (NameMap (Option String))}
    (htable : Options.buildTable templates [] = .ok c.table) (hstrip : c.strip = none) {label : String}
    (htemplate : hasRelapse label c.table = true) (hshape : isNameBelow label t.program = true) :
    ¬ Halts c ([t.root], { tree := t }) := by
  rw [← ends_iff_halts (noNative_of_buildTable htable) (sound_parse hparse)]
  rintro ⟨n, result, hloop, hfailure⟩
  obtain ⟨session, hcut⟩ := loop_of_hasRelapse hparse htable hstrip htemplate hshape n
  rw [hloop n (Nat.le_refl n)] at hcut
  cases hfailure _ _ hcut

/-- A pass that has no end: the block that is made for a statement below `debug` is unwrapped, and
the label in it is expanded again. -/
theorem pass_never_ends :
    ∃ (c : ExpansionContext) (t : Tree),
      Options.buildTable (oneTemplate "debug" "\x7bdebug:f(%%content%%)\x7d") [] = .ok c.table ∧
      Program.parse .source "debug:a" = .ok t ∧
      ∀ fuel, ∃ session, loop c fuel [t.root] { tree := t }
        = .error (⟨.unsettledExpansion, none⟩, session) := by
  have hseen : (Options.buildTable (oneTemplate "debug" "\x7bdebug:f(%%content%%)\x7d") []).toOption.map
      (hasRelapse "debug") = some true := by decide +kernel
  have hread : (Program.parse .source "debug:a").toOption.map (fun t => isNameBelow "debug" t.program)
      = some true := by decide +kernel
  obtain ⟨c, hstrip, htable, htemplate⟩ := exists_context hseen
  obtain ⟨t, hparse, hshape⟩ := Option.map_eq_some_iff.1 hread
  have hparse := eq_ok_of_toOption hparse
  exact ⟨c, t, htable, hparse, loop_of_hasRelapse hparse htable hstrip htemplate hshape⟩

end LogLabel.Expansion
