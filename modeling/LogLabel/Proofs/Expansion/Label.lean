import LogLabel.Proofs.Expansion.Statement

set_option autoImplicit false

/-!
# Processed labels

What `Expansion.process` does to the layer that has the label.

* `Ast.unwrapped` are the statements that take the place of a label with a given body.
* `Expansion.region` are the statements of a program that a label above it expands:
  `Expansion.expressionStatements` gives their addresses.
* `Expansion.process_stripped`, `Expansion.process_impure` and `Expansion.process_pure`
  are the three outcomes. A label that is no root never fails for another reason than a
  side effect in its body.
-/

namespace LogLabel

open Program (Ast Kind NodeId Span Tree)
open Program.Tree (Held Revised Replaced Extends)

namespace Program.Ast

variable {ι κ : Type}

/-- The statements that take the place of a label with the given body. -/
def unwrapped (b : Ast ι) : List (Ast ι) :=
  match b.kind with
  | .block statements => statements
  | .empty => []
  | _ => [b]

theorem unwrapped_part {b r : Ast ι} (hr : r ∈ b.unwrapped) : r.Part b := by
  unfold unwrapped at hr
  split at hr
  · next ss hk => exact .of_mem (by rw [hk]; exact hr)
  · simp at hr
  · obtain rfl := List.mem_singleton.1 hr
    exact .self

/-- What is unwrapped from the body of a label is inside of the label. -/
theorem part_of_labeled {p : ι} {label : String} {b a : Ast ι}
    (h : (Ast.node p (.labeled label b)).Part a) : b.Part a :=
  (Part.of_mem (a := .node p (.labeled label b)) (List.mem_singleton.2 rfl)).trans h

theorem mem_inner_of_unwrapped {i p : ι} {label : String} {b : Ast ι}
    (hi : i ∈ b.unwrapped.flatMap notes) : i ∈ (Ast.node p (.labeled label b)).inner := by
  obtain ⟨r, hr, hi⟩ := List.mem_flatMap.1 hi
  exact List.mem_flatMap.2 ⟨b, List.mem_singleton.2 rfl, (unwrapped_part hr).notes_subset hi⟩

theorem unwrapped_nodup {b : Ast ι} (h : b.notes.Nodup) : (b.unwrapped.flatMap notes).Nodup := by
  unfold unwrapped
  split
  · next ss hk =>
      rw [notes_eq, hk, List.nodup_cons] at h
      exact h.2
  · simp
  · simpa using h

theorem unwrapped_mapNotes (f : ι → κ) (b : Ast ι) :
    (b.mapNotes f).unwrapped = b.unwrapped.map (mapNotes f) := by
  cases b with
  | node i k => cases k <;> simp [unwrapped, Kind.map]

theorem graft_labeled {p q : NodeId} {label : String} {b m : Ast NodeId} (h : q ≠ p) :
    (Ast.node q (.labeled label b)).graft p m = .node q (.labeled label (b.graft p m)) := by
  rw [graft_node, if_neg h]
  rfl

/-- Replacing parts below a label replaces them in its body. -/
theorem graftAll_labeled {q : NodeId} {label : String} :
    ∀ (pairs : List (Ast NodeId × Ast NodeId)) (b : Ast NodeId), (∀ p ∈ pairs, q ≠ p.1.note) →
      (Ast.node q (.labeled label b)).graftAll pairs = .node q (.labeled label (b.graftAll pairs)) := by
  intro pairs
  induction pairs with
  | nil => intro b _; rfl
  | cons p pairs ih =>
      intro b h
      rw [graftAll_cons, graftAll_cons, graft_labeled (h p List.mem_cons_self)]
      exact ih _ fun p' hp' => h p' (List.mem_cons_of_mem _ hp')

end Program.Ast

namespace Expansion

theorem unwrap_eq {t : Tree} {b : Ast NodeId} (h : t.Holds b) :
    unwrap t b.note = b.unwrapped.map Ast.note := by
  cases b with
  | node i k =>
      have hkind : t.kind i = k.map Ast.note := h.kind_eq
      rw [unwrap, Ast.note_node, hkind]
      cases k <;> rfl

/-! ## The statements below a label -/

/-- Whether a layer is an expression statement. -/
def isExpression {α : Type} : Kind α → Bool
  | .expression _ => true
  | _ => false

theorem isExpression_map {α β : Type} (f : α → β) (k : Kind α) :
    isExpression (k.map f) = isExpression k := by
  cases k <;> rfl

theorem isExpression_iff {α : Type} {k : Kind α} : isExpression k = true ↔ ∃ x, k = .expression x := by
  cases k <;> simp [isExpression]

theorem unwrapped_of_isExpression {ι : Type} {a : Ast ι} (h : isExpression a.kind = true) :
    a.unwrapped = [a] := by
  obtain ⟨x, hx⟩ := isExpression_iff.1 h
  rw [Ast.unwrapped, hx]

theorem isKnownLabel_map {α β : Type} (known : String → Bool) (f : α → β) (k : Kind α) :
    Purity.isKnownLabel known (k.map f) = Purity.isKnownLabel known k := by
  cases k <;> rfl

section Region

variable (known : String → Bool) (handled : List NodeId)

/-- A node with the statements in its region, given those of its parts. -/
def regionStep (i : NodeId) (k : Kind (Ast NodeId × List (Ast NodeId))) :
    Ast NodeId × List (Ast NodeId) :=
  (.node i (k.map Prod.fst),
    if i ∈ handled then []
    else if Purity.isKnownLabel known k then []
    else if isExpression k then [.node i (k.map Prod.fst)]
    else k.children.flatMap Prod.snd)

/-- The expression statements of a program, without those below labels of log statements and without
those made before. -/
def region (a : Ast NodeId) : List (Ast NodeId) := (a.fold (regionStep known handled)).2

/-- The statements of a layer that is entered: the layer itself if it is an expression statement, and
else those of its parts. -/
def layerRegion (a : Ast NodeId) : List (Ast NodeId) :=
  if isExpression a.kind then [a] else a.kind.children.flatMap (region known handled)

theorem fold_regionStep (a : Ast NodeId) :
    a.fold (regionStep known handled) = (a, region known handled a) := by
  refine Prod.ext ?_ rfl
  induction a using Ast.induction with
  | node i k ih =>
      have hfst : (k.map (Ast.fold (regionStep known handled))).map Prod.fst = k := by
        rw [Kind.map_map, Kind.map_congr ih, Kind.map_id]
      rw [Ast.fold_node]
      simp only [regionStep, hfst]

theorem region_node (i : NodeId) (k : Kind (Ast NodeId)) :
    region known handled (.node i k)
      = if i ∈ handled then [] else if Purity.isKnownLabel known k then []
        else layerRegion known handled (.node i k) := by
  have hk : (k.map fun a => (a, region known handled a)).map Prod.fst = k := by
    rw [Kind.map_map]
    exact k.map_id
  rw [region, Ast.fold_node, Kind.map_congr fun a _ => fold_regionStep known handled a, regionStep,
    isKnownLabel_map, isExpression_map, hk, Kind.children_map, List.flatMap_map]
  rfl

/-- An expression statement is its own region. -/
theorem region_of_isExpression {e : Ast NodeId} (hfresh : e.note ∉ handled)
    (h : isExpression e.kind = true) : region known handled e = [e] := by
  obtain ⟨i, k⟩ := e
  obtain ⟨x, rfl⟩ := isExpression_iff.1 h
  rw [Ast.note_node] at hfresh
  rw [region_node, if_neg hfresh]
  rfl

/-- The statements in the body of a label; the body itself is entered also when it is a label. -/
def bodyRegion (body : Ast NodeId) : List (Ast NodeId) :=
  if body.note ∈ handled then [] else layerRegion known handled body

theorem statementsStep_eq (i : NodeId) (k : Kind (List NodeId)) :
    statementsStep known handled i k
      = if i ∈ handled then [] else if Purity.isKnownLabel known k then []
        else if isExpression k then [i] else k.children.flatten := by
  unfold statementsStep
  cases k <;> rfl

theorem fold_statementsStep (a : Ast NodeId) :
    a.fold (statementsStep known handled) = (region known handled a).map Ast.note := by
  induction a using Ast.induction with
  | node i k ih =>
      have hparts : k.children.flatMap (Ast.fold (statementsStep known handled))
          = (k.children.flatMap (region known handled)).map Ast.note := by
        rw [List.map_flatMap, List.flatMap_congr ih]
      rw [Ast.fold_node, region_node, statementsStep_eq, isKnownLabel_map, isExpression_map,
        Kind.children_map, ← List.flatMap_def, hparts]
      split
      · rfl
      · split
        · rfl
        · rw [layerRegion, Ast.kind_node]
          split <;> rfl

theorem expressionStatements_eq (body : Ast NodeId) :
    expressionStatements known handled body = (bodyRegion known handled body).map Ast.note := by
  have hmatch : expressionStatements known handled body
      = if body.note ∈ handled then []
        else if isExpression (Ast.foldKind (statementsStep known handled) body.kind) then [body.note]
        else (Ast.foldKind (statementsStep known handled) body.kind).children.flatten := by
    unfold expressionStatements
    cases Ast.foldKind (statementsStep known handled) body.kind <;> rfl
  rw [hmatch, bodyRegion, layerRegion, Ast.foldKind_eq_map, isExpression_map, Kind.children_map]
  split
  · rfl
  · split
    · rfl
    · rw [← List.flatMap_def, List.map_flatMap]
      exact List.flatMap_congr fun c _ => fold_statementsStep known handled c

variable {known handled}

/-- The statements of a layer are parts of it, and their nodes follow each other in it. -/
theorem layerRegion_sublist {a : Ast NodeId}
    (h : ∀ c ∈ a.kind.children, ((region known handled c).flatMap Ast.notes).Sublist c.notes) :
    ((layerRegion known handled a).flatMap Ast.notes).Sublist a.notes := by
  rw [layerRegion]
  split
  · rw [List.flatMap_singleton]
  · rw [Ast.notes_eq, List.flatMap_assoc]
    refine List.Sublist.cons _ ?_
    revert h
    generalize a.kind.children = cs
    intro h
    induction cs with
    | nil => exact List.Sublist.refl _
    | cons c cs ih =>
        rw [List.flatMap_cons, List.flatMap_cons]
        exact (h c List.mem_cons_self).append (ih fun d hd => h d (List.mem_cons_of_mem _ hd))

theorem region_sublist (a : Ast NodeId) :
    ((region known handled a).flatMap Ast.notes).Sublist a.notes := by
  induction a using Ast.induction with
  | node i k ih =>
      rw [region_node]
      split
      · exact List.nil_sublist _
      · split
        · exact List.nil_sublist _
        · exact layerRegion_sublist ih

theorem layerRegion_part {a e : Ast NodeId}
    (h : ∀ c ∈ a.kind.children, ∀ e ∈ region known handled c, e.Part c ∧ ∃ x, e.kind = .expression x)
    (he : e ∈ layerRegion known handled a) : e.Part a ∧ ∃ x, e.kind = .expression x := by
  rw [layerRegion] at he
  split at he
  · next hx =>
      obtain rfl := List.mem_singleton.1 he
      exact ⟨.self, isExpression_iff.1 hx⟩
  · obtain ⟨c, hc, he⟩ := List.mem_flatMap.1 he
    exact ⟨.inside hc (h c hc e he).1, (h c hc e he).2⟩

theorem region_part (a : Ast NodeId) :
    ∀ e ∈ region known handled a, e.Part a ∧ ∃ x, e.kind = .expression x := by
  induction a using Ast.induction with
  | node i k ih =>
      intro e he
      rw [region_node] at he
      split at he
      · simp at he
      · split at he
        · simp at he
        · exact layerRegion_part ih he

theorem bodyRegion_part {body e : Ast NodeId} (he : e ∈ bodyRegion known handled body) :
    e.Part body ∧ ∃ x, e.kind = .expression x := by
  rw [bodyRegion] at he
  split at he
  · simp at he
  · exact layerRegion_part (fun c _ => region_part c) he

theorem bodyRegion_nodup {body : Ast NodeId} (h : body.notes.Nodup) :
    ((bodyRegion known handled body).flatMap Ast.notes).Nodup := by
  rw [bodyRegion]
  split
  · simp
  · exact h.sublist (layerRegion_sublist fun c _ => region_sublist c)

end Region

/-! ## Visits -/

section Visits

variable {c : ExpansionContext} {session : Session} {p : NodeId}

theorem step_handled (h : p ∈ session.handled) : step c p session = .ok ([], session) := by
  rw [step, if_pos h]

theorem step_label (h : p ∉ session.handled) {label : String} {body : NodeId}
    (hkind : session.tree.kind p = .labeled label body) {s : Synthesizer}
    (hs : c.table.get? label = some s) :
    step c p session = process c p label body s session := by
  rw [step, if_neg h, hkind]
  simp only [hs]

/-- A node that is no label of a log statement is entered. -/
theorem step_other (h : p ∉ session.handled)
    (hkind : Purity.isKnownLabel c.known (session.tree.kind p) = false) :
    step c p session = .ok ((session.tree.kind p).children, session) := by
  rw [step, if_neg h]
  cases hk : session.tree.kind p with
  | labeled label body =>
      rw [hk, Purity.isKnownLabel, ExpansionContext.known, NameMap.contains,
        Option.isSome_eq_false_iff, Option.isNone_iff_eq_none] at hkind
      simp only [hkind]
      rfl
  | _ => rfl

end Visits

/-! ## Outcomes of a label -/

/-- The session after a label was met. -/
def met (session : Session) : Session :=
  { session with stats := { session.stats with labels := session.stats.labels + 1 } }

section Outcomes

variable {c : ExpansionContext} {s : Synthesizer} {session : Session} {q p : NodeId}
  {k : Kind (Ast NodeId)} {label : String} {body : Ast NodeId}

/-- The metadata of a label in a session. -/
def metadataOf (c : ExpansionContext) (session : Session) (p : NodeId) : Metadata :=
  Metadata.collect session.tree p c.file c.known session.handled

/-- A label that is stripped is removed. -/
theorem process_stripped (h : session.tree.Held (.node q k))
    (hlabel : .node p (.labeled label body) ∈ k.children)
    (hstrip : shouldStrip c.strip c.environment label (metadataOf c session p) = true) :
    ∃ t' : Tree, process c p label body.note s session = .ok ([],
        { tree := t', handled := session.handled,
          stats := ⟨session.stats.labels + 1, session.stats.stripped + 1, session.stats.calls⟩ }) ∧
      Replaced session.tree t' q k (.node p (.labeled label body)) [] := by
  have hnone : ∀ r ∈ ([] : List (Ast NodeId)), session.tree.Holds r := by simp
  obtain ⟨t', hok, hreplaced⟩ :=
    Tree.replaceWithMany_open (h.toOpen _) hlabel hnone (by simp) (by simp)
  have hok' : session.tree.remove p = .ok t' := hok
  rw [metadataOf] at hstrip
  refine ⟨t', ?_, hreplaced⟩
  simp only [process, hstrip, if_true, hok', edit]

/-- A label whose body has a side effect is refused. -/
theorem process_impure (hbody : session.tree.Held body)
    (hstrip : shouldStrip c.strip c.environment label (metadataOf c session p) = false)
    {i : NodeId} {construct : String}
    (hviolation : (Purity.violations c.known body).head? = some (i, construct)) :
    process c p label body.note s session = .error
      (⟨.sideEffect construct label c.file.filename (session.tree.lineOf i),
        some (session.tree.span i)⟩, met session) := by
  rw [metadataOf] at hstrip
  have hcheck : Purity.check session.tree c.known label c.file.filename body.note
      = .error ⟨.sideEffect construct label c.file.filename (session.tree.lineOf i),
        some (session.tree.span i)⟩ := by
    rw [Purity.check, hbody.reading_eq, hviolation]
  simp only [process, hstrip, Bool.false_eq_true, if_false, hcheck, met]

/-- What the expansion of a label leaves: first the label `l` becomes `l'` with the body `b'`, and then
what is unwrapped from `b'` takes the place of the label in the layer that has it. -/
structure Unwrapped (t t₁ t₂ : Tree) (l l' b' : Ast NodeId) (q : NodeId) (k k' : Kind (Ast NodeId))
    (before after : List (Ast NodeId)) : Prop where
  label : Revised t t₁ l l'
  layer : Revised t t₂ (.node q k) (.node q k')
  children : k'.children
    = before ++ (if k.isList then b'.unwrapped else [t₁.gathered b'.unwrapped]) ++ after
  grows : Tree.Grows t₁ t₂
  new_span : ∀ i : NodeId, t₁.size ≤ i.index → i.index < t₂.size → t₂.span i = t₁.span l.note

/-- Putting the statements of its body in the place of a label that was revised before. -/
theorem unwrapped_of_replaced {t t₁ t₂ : Tree} {b b' : Ast NodeId} {before after : List (Ast NodeId)}
    (h : t.Held (.node q k)) (hk : k.children = before ++ .node p (.labeled label b) :: after)
    (hlabel : Revised t t₁ (.node p (.labeled label b)) (.node p (.labeled label b')))
    (hlayer : Revised t t₁ (.node q k)
      (.node q (k.map fun d => d.graft p (.node p (.labeled label b')))))
    (hreplaced : Replaced t₁ t₂ q (k.map fun d => d.graft p (.node p (.labeled label b')))
      (.node p (.labeled label b')) b'.unwrapped) :
    Unwrapped t t₁ t₂ (.node p (.labeled label b)) (.node p (.labeled label b')) b' q k
      ((k.map fun d => d.graft p (.node p (.labeled label b'))).swap p b'.unwrapped
        (t₁.gathered b'.unwrapped)) before after := by
  have hk₁ : (k.map fun d => d.graft p (.node p (.labeled label b'))).children
      = before ++ .node p (.labeled label b') :: after := by
    have hgraft : (k.map fun d => d.graft p (.node p (.labeled label b'))).children
        = before ++ [(Ast.node p (.labeled label b)).graft p (.node p (.labeled label b'))] ++ after :=
      Ast.children_map_graft (b := .node p (.labeled label b)) h.nodup hk (by simp)
    simpa [Ast.graft_node] using hgraft
  refine ⟨hlabel, hlayer.trans (hreplaced.revised hlayer.held ?_ (.refl [] _) (by simp) ?_), ?_,
    hreplaced.toGrows, hreplaced.new_span⟩
  · simp [hk₁]
  · exact fun i hi => Or.inl (Ast.mem_inner_of_unwrapped hi)
  · have hchildren := Tree.children_swap_of_nodup hlayer.held.nodup hk₁ b'.unwrapped
      (t₁.gathered b'.unwrapped)
    rwa [Kind.isList_map] at hchildren

/-- The session after a label was expanded, in which the second programs of `pairs` were made. -/
def expandedSession (session : Session) (t : Tree) (pairs : List (Ast NodeId × Ast NodeId)) :
    Session where
  tree := t
  handled := (pairs.map fun p => p.2.note).reverse ++ session.handled
  stats := ⟨session.stats.labels + 1, session.stats.stripped, session.stats.calls + pairs.length⟩

/-- Any other label gives way to the statements of its body, in which the region below it has been
expanded. -/
theorem process_pure (hs : ∀ make, s ≠ .native make) (h : session.tree.Held (.node q k))
    {before after : List (Ast NodeId)}
    (hk : k.children = before ++ .node p (.labeled label body) :: after)
    (hstrip : shouldStrip c.strip c.environment label (metadataOf c session p) = false)
    (hpure : (Purity.violations c.known body).head? = none) :
    ∃ (pairs : List (Ast NodeId × Ast NodeId)) (t₁ t₂ : Tree) (k' : Kind (Ast NodeId)),
      pairs.map Prod.fst = bodyRegion c.known session.handled body ∧
      process c p label body.note s session
        = .ok ((body.graftAll pairs).unwrapped.map Ast.note, expandedSession session t₂ pairs) ∧
      ((pairs.map Prod.snd).flatMap Ast.notes).Nodup ∧
      (∀ pair ∈ pairs, Made c s (metadataOf c session p) session.tree t₁ pair.1 pair.2) ∧
      Unwrapped session.tree t₁ t₂ (.node p (.labeled label body))
        (.node p (.labeled label (body.graftAll pairs))) (body.graftAll pairs) q k k' before after := by
  have hlabel : .node p (.labeled label body) ∈ k.children := by simp [hk]
  have hL := h.part hlabel
  have hbodyMem : body ∈ (Ast.node p (.labeled label body)).kind.children := List.mem_singleton.2 rfl
  have hbody := hL.part hbodyMem
  have hp : p ∉ body.notes := Tree.layer_not_mem_part hL.nodup hbodyMem
  -- The statements of the region are proper parts of the label.
  have hregion : ∀ e ∈ bodyRegion c.known session.handled body,
      e.Part (.node p (.labeled label body)) ∧ e ≠ .node p (.labeled label body) ∧
        ∃ x, e.kind = .expression x := by
    intro e he
    obtain ⟨hpart, hx⟩ := bodyRegion_part he
    refine ⟨.inside hbodyMem hpart, ?_, hx⟩
    rintro rfl
    exact hp (hpart.notes_subset (by simp))
  obtain ⟨pairs, t₁, hpairs, hok, hrevised, hnodup, hmade⟩ := expandStatements_revised
    (c := c) (m := metadataOf c session p) hs _ _ (met session) hL hregion
    (bodyRegion_nodup hbody.nodup)
  have hne : ∀ pair ∈ pairs, p ≠ pair.1.note := by
    rintro pair hpair rfl
    have hmem : pair.1 ∈ bodyRegion c.known session.handled body :=
      hpairs ▸ List.mem_map.2 ⟨pair, hpair, rfl⟩
    exact hp ((bodyRegion_part hmem).1.notes_subset (Ast.note_mem_notes _))
  rw [Ast.graftAll_labeled pairs body hne] at hrevised
  have hlayer := hrevised.graft (.of_mem (a := .node q k) hlabel) h
  have hpq : q ≠ p := fun he => Tree.layer_not_mem_part h.nodup hlabel (he ▸ by simp)
  rw [Ast.note_node, Ast.graft_node, if_neg hpq] at hlayer
  generalize hb' : body.graftAll pairs = body' at hrevised hlayer ⊢
  have hL' : .node p (.labeled label body') ∈
      (k.map fun d => d.graft p (.node p (.labeled label body'))).children := by
    rw [Kind.children_map, List.mem_map]
    exact ⟨_, hlabel, Ast.graft_top⟩
  have hbody'Mem : body' ∈ (Ast.node p (.labeled label body')).kind.children :=
    List.mem_singleton.2 rfl
  have hbody' := hrevised.held.part hbody'Mem
  have hholds : ∀ r ∈ body'.unwrapped, t₁.Holds r := fun r hr =>
    (hbody'.of_part (Ast.unwrapped_part hr)).holds
  obtain ⟨t₂, hok', hreplaced⟩ := Tree.replaceWithMany_open (hlayer.held.toOpen _) hL' hholds
    (Ast.unwrapped_nodup hbody'.nodup) fun i hi => Or.inl (Ast.mem_inner_of_unwrapped hi)
  have hunwrapped := unwrapped_of_replaced h hk hrevised hlayer hreplaced
  subst hb'
  refine ⟨pairs, t₁, t₂, _, hpairs, ?_, hnodup, hmade, hunwrapped⟩
  have hcheck : Purity.check session.tree c.known label c.file.filename body.note = .ok () := by
    rw [Purity.check, hbody.reading_eq, hpure]
  have hbodyOf : bodyOf t₁ p body.note = (body.graftAll pairs).note := by
    have hkind : t₁.kind p = .labeled label (body.graftAll pairs).note := hrevised.held.holds.kind_eq
    rw [bodyOf, hkind]
  have hlength : (bodyRegion c.known session.handled body).length = pairs.length := by
    rw [← hpairs, List.length_map]
  rw [← expressionStatements_eq] at hok
  rw [metadataOf] at hstrip
  simp only [met, metadataOf] at hok
  rw [Ast.note_node] at hok'
  simp only [process, hstrip, Bool.false_eq_true, if_false, hcheck, hbody.reading_eq, hok, hbodyOf,
    unwrap_eq hbody'.holds, hok', edit, hlength, expandedSession]

end Outcomes

end Expansion

end LogLabel
