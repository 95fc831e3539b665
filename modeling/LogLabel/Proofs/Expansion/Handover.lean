import LogLabel.Proofs.Expansion.Faithful
import LogLabel.Proofs.Expansion.Violations

set_option autoImplicit false

/-!
# What synthesizers are given

The body of a label is searched for side effects by one traversal, and its statements are
collected by another one. This module shows that the second never leaves the region of the
first, so that no side effect is moved into a log statement.

* `Purity.effectFree`: no part of an expression is a function, a method, an assignment, an
  update or a yield.
* `ExpansionContext.guarded`: the context in which every synthesizer first checks that the
  expressions it is given are free of effects, and gives up if one is not.
* `Expansion.Grown`: the invariant of the pass. A program to visit was made, or it has become
  of a sorted program, and so have the statements of a made block.
* `Expansion.guarded_loop_eq`: no check of a guarded synthesizer ever fails.
-/

namespace LogLabel

open Program (Ast Kind NodeId Span Tree)

/-! ## Effects -/

namespace Purity

variable {α ι : Type} {known : String → Bool}

/-- Whether a layer is a construct that must not be moved into a log statement. -/
def isEffect : Kind α → Bool
  | .function _ _ => true
  | .method _ _ _ => true
  | .assign _ _ _ => true
  | .update _ _ _ => true
  | .yieldExpr _ _ => true
  | _ => false

/-- Whether no part of a program, at any depth, is such a construct. -/
def effectFree : Ast ι → Bool :=
  Ast.fold fun _ k => !isEffect k && k.children.all fun free => free

theorem isEffect_map {β : Type} (f : α → β) (k : Kind α) : isEffect (k.map f) = isEffect k := by
  cases k <;> rfl

theorem isEffect_of_construct? {k : Kind α} (h : construct? k = none) : isEffect k = false := by
  cases k <;> first | rfl | cases h

theorem effectFree_node (i : ι) (k : Kind (Ast ι)) :
    effectFree (.node i k) = true ↔ isEffect k = false ∧ ∀ c ∈ k.children, effectFree c = true := by
  rw [effectFree, Ast.fold_node, isEffect_map, Kind.children_map, Bool.and_eq_true,
    Bool.not_eq_true', List.all_map, List.all_eq_true]
  rfl

/-- A program is free of effects exactly when none of its parts is one. -/
theorem effectFree_iff (a : Ast ι) :
    effectFree a = true ↔ ∀ d : Ast ι, d.Part a → isEffect d.kind = false := by
  constructor
  · intro h d hd
    induction hd with
    | @self => cases d with | node i k => exact ((effectFree_node i k).1 h).1
    | @inside a c hc _ ih =>
        cases a with
        | node i k => exact ih (((effectFree_node i k).1 h).2 c hc)
  · intro h
    induction a using Ast.induction with
    | node i k ih =>
        rw [effectFree_node]
        exact ⟨h _ .self, fun c hc => ih c hc fun d hd => h d (.inside hc hd)⟩

/-- A sorted expression without violations is free of effects. -/
theorem effectFree_of_harmless {x : Ast ι} (hsorted : x.wellSorted true = true)
    (hharmless : harmless known x = true) : effectFree x = true :=
  (effectFree_iff x).2 fun _ hd => isEffect_of_construct? (harmless_part hd hsorted hharmless).2

end Purity

/-! ## Collected statements are searched -/

namespace Expansion

section Region

variable {known : String → Bool} {handled : List NodeId} {body : Ast NodeId}

theorem searched_of_region (a : Ast NodeId) :
    Purity.Searched known body a → ∀ e ∈ layerRegion known handled a, Purity.Searched known body e := by
  induction a using Ast.induction with
  | node i k ih =>
      intro h e he
      rw [layerRegion, Ast.kind_node] at he
      split at he
      · obtain rfl := List.mem_singleton.1 he
        exact h
      · obtain ⟨c, hc, he⟩ := List.mem_flatMap.1 he
        -- A part that is not skipped is no label, so the search enters it too.
        cases c with
        | node j kc =>
            rw [region_node] at he
            split at he
            · exact absurd he List.not_mem_nil
            · split at he
              · exact absurd he List.not_mem_nil
              · next hlabel =>
                  exact ih _ hc (.part h hc (by simpa using hlabel)) e he

theorem searched_of_bodyRegion {e : Ast NodeId} (he : e ∈ bodyRegion known handled body) :
    Purity.Searched known body e := by
  rw [bodyRegion] at he
  split at he
  · exact absurd he List.not_mem_nil
  · exact searched_of_region body .body e he

end Region

end Expansion

/-! ## Sorted templates -/

namespace Template

variable {v : Values} {s : Span}

theorem slotValue_wellSorted (hcontent : ∀ x ∈ v.content, x.wellSorted true = true)
    (hmetadata : v.metadata.wellSorted true = true) (name : String) :
    (slotValue v s name).wellSorted true = true := by
  unfold slotValue
  split
  · rfl
  · exact hmetadata
  · rw [Ast.wellSorted_node]
    exact ⟨fun _ => rfl, hcontent⟩
  · rfl

/-- A sorted template with sorted expressions in its slots is sorted. -/
theorem filled_wellSorted (hcontent : ∀ x ∈ v.content, x.wellSorted true = true)
    (hmetadata : v.metadata.wellSorted true = true) (a : Ast Span) :
    ∀ {b : Bool}, a.wellSorted b = true → (filled v s a).wellSorted b = true := by
  induction a using Ast.induction with
  | node i k ih =>
      intro b h
      by_cases hslot : ∃ name, k = .placeholder name
      · obtain ⟨name, rfl⟩ := hslot
        exact Ast.wellSorted_mono _ (fun _ => rfl) (slotValue_wellSorted hcontent hmetadata name)
      · obtain ⟨k', heq, hform, hchildren⟩ := exists_of_filled fun name hname => hslot ⟨name, hname⟩
        obtain ⟨hk, hparts⟩ := (Ast.wellSorted_node b i k).1 h
        rw [heq, Ast.wellSorted_node, hform.isStatement_eq, hform.inside_eq]
        refine ⟨hk, fun c hc => ?_⟩
        rcases hchildren c hc with hc | ⟨d, hd, rfl⟩
        · exact Ast.wellSorted_mono c (fun _ => rfl) (hcontent c hc)
        · exact ih d hd (hparts d hd)

/-- The body of a compiled template is sorted. -/
theorem body_wellSorted {label source : String} {form : Template}
    (h : compile label source = .ok form) : form.body.wellSorted false = true := by
  have hstatement : form.statement.wellSorted false = true := by
    unfold compile at h
    split at h
    · cases h
    · next body hread =>
        simp only at h
        split at h
        · cases h
        · next statement hone =>
            split at h
            · cases h
            · obtain rfl := Except.ok.inj h
              have hmem : statement ∈ body.filter (!isEmptyStatement ·) := by
                rw [hone]
                exact List.mem_singleton.2 rfl
              exact Program.read_wellSorted hread statement (List.mem_filter.1 hmem).1
        · cases h
  unfold body
  split
  · next e he =>
      exact Ast.wellSorted_mono e (by simp) (Ast.wellSorted_expression hstatement .self he)
  · exact hstatement

end Template

/-- A synthesizer whose template, if it is one, is sorted. -/
def Synthesizer.Sorted (s : Synthesizer) : Prop :=
  ∀ form, s = .template form → form.body.wellSorted false = true

theorem Synthesizer.recordOf_wellSorted (m : Metadata) (s : Span) :
    (recordOf m s).wellSorted true = true := by
  simp [recordOf, Program.Tree.recordEntry, Ast.wellSorted_node, Kind.children, Program.Key.children,
    Kind.isStatement, Kind.inside]

namespace Expansion

open Program.Tree (Held Revised)

/-! ## The invariant of the pass -/

/-- A program that is sorted where it stands. -/
def Sorted (x : Ast NodeId) : Prop := ∃ b, x.wellSorted b = true

/-- A program to visit: a statement made in the pass, or one that has become of a sorted program. The
statements of a made block are sorted. -/
def Grown (handled : List NodeId) (x : Ast NodeId) : Prop :=
  x.note ∈ handled ∨ ∃ x₀ : Ast NodeId, Sorted x₀ ∧ Becomes handled Sorted x₀ x

section Invariant

variable {c : ExpansionContext} {s : Synthesizer} {m : Metadata} {t t' : Tree}
  {handled handled' : List NodeId} {e made x : Ast NodeId}

/-- The logged expressions of a sorted expression are sorted. -/
theorem logged_wellSorted {ι : Type} {x d : Ast ι} (h : x.wellSorted true = true)
    (hd : d ∈ x.logged) : d.wellSorted true = true := by
  cases x with
  | node i k =>
      cases k with
      | sequence es => exact ((Ast.wellSorted_node true i _).1 h).2 d hd
      | _ =>
          obtain rfl := List.mem_singleton.1 hd
          exact h

theorem Sorted.part {y : Ast NodeId} (h : Sorted x) (hy : y.Part x) : Sorted y := by
  obtain ⟨b, hb⟩ := h
  exact Ast.wellSorted_part hy hb

theorem Grown.mono (h : Grown handled x) (hsub : handled ⊆ handled') : Grown handled' x := by
  rcases h with h | ⟨x₀, hsorted, hbecomes⟩
  · exact Or.inl (hsub h)
  · exact Or.inr ⟨x₀, hsorted, hbecomes.mono hsub⟩

/-- A made block is sorted if the logged expression is. -/
theorem Made.sorted_of_block (h : Made c s m t t' e made) (hs : s.Sorted)
    (hx : e.kind = .expression x) (hsorted : x.wellSorted true = true)
    (hblock : made.kind.isBlock = true) : Sorted made := by
  obtain ⟨hwritten, hkind⟩ := h.written_of_block hx hblock
  refine ⟨false, ?_⟩
  rw [← Ast.wellSorted_mapNotes t'.span]
  generalize made.mapNotes t'.span = y at hwritten hkind
  cases s with
  | builtin level values =>
      obtain rfl := Option.some.inj hwritten
      cases hkind
  | template form =>
      obtain rfl := Option.some.inj hwritten
      have hcontent : ∀ d ∈ (x.mapNotes t.span).logged, d.wellSorted true = true := by
        intro d hd
        rw [Ast.logged_mapNotes, List.mem_map] at hd
        obtain ⟨d, hd, rfl⟩ := hd
        rw [Ast.wellSorted_mapNotes]
        exact logged_wellSorted hsorted hd
      exact Template.filled_wellSorted hcontent (Synthesizer.recordOf_wellSorted m _) _ (hs form rfl)
  | native make => cases hwritten

/-- The parts of a node that is entered. -/
theorem Grown.enter (h : Grown handled x) (hx : x.note ∉ handled) {r : Ast NodeId}
    (hr : r ∈ x.kind.children) : Grown handled r := by
  obtain ⟨x₀, hsorted, hbecomes⟩ := h.resolve_left hx
  obtain ⟨f, rfl, hparts⟩ := hbecomes.exists_layer hx
  rw [Ast.kind_node, Kind.children_map, List.mem_map] at hr
  obtain ⟨r₀, hr₀, rfl⟩ := hr
  exact Or.inr ⟨r₀, hsorted.part (.of_mem hr₀), hparts r₀ hr₀⟩

/-- A label that was not made: its body has become of a sorted one. -/
theorem Grown.label {p : NodeId} {label : String} {body : Ast NodeId}
    (h : Grown handled (.node p (.labeled label body))) (hp : p ∉ handled) :
    ∃ body₀ : Ast NodeId, Sorted body₀ ∧ Becomes handled Sorted body₀ body := by
  obtain ⟨x₀, hsorted, hbecomes⟩ := h.resolve_left hp
  obtain ⟨body₀, rfl, hbody⟩ := hbecomes.exists_label hp
  exact ⟨body₀, hsorted.part (.of_mem (List.mem_singleton.2 rfl)), hbody⟩

/-- The statements that a label expands log sorted expressions without violations. -/
theorem Grown.statement {p : NodeId} {label : String} {body : Ast NodeId}
    (h : Grown handled (.node p (.labeled label body))) (hp : p ∉ handled)
    (hpure : Purity.violations c.known body = []) (he : e ∈ bodyRegion c.known handled body) :
    ∃ y : Ast NodeId, e.kind = .expression y ∧ y.wellSorted true = true ∧
      Purity.harmless c.known y = true := by
  obtain ⟨body₀, ⟨b, hsorted⟩, hbody⟩ := h.label hp
  exact (hbody.statement_part hsorted hpure he).2

/-- The statements that take the place of an expanded label. -/
theorem Grown.expand {p : NodeId} {label : String} {body : Ast NodeId}
    {pairs : List (Ast NodeId × Ast NodeId)} (h : Grown handled (.node p (.labeled label body)))
    (hp : p ∉ handled) (hnodup : body.notes.Nodup) (hs : s.Sorted)
    (hpure : Purity.violations c.known body = [])
    (hpairs : pairs.map Prod.fst = bodyRegion c.known handled body)
    (hmade : ∀ pair ∈ pairs, Made c s m t t' pair.1 pair.2)
    (hnew : handled' = (pairs.map fun pair => pair.2.note).reverse ++ handled) {r : Ast NodeId}
    (hr : r ∈ (body.subst (Ast.replacement pairs)).unwrapped) : Grown handled' r := by
  obtain ⟨body₀, hsorted, hbody⟩ := h.label hp
  have hsub : handled ⊆ handled' := by
    rw [hnew]
    exact List.subset_append_right _ _
  have hstand : ∀ j made, Ast.replacement pairs j = some made → made.note ∈ handled' ∧
      (made.kind.isBlock = true → ∀ r ∈ made.kind.children, Sorted r) := by
    intro j made hm
    obtain ⟨pair, hpair, -, rfl⟩ := Ast.mem_of_replacement hm
    have hregion : pair.1 ∈ bodyRegion c.known handled body := by
      rw [← hpairs]
      exact List.mem_map.2 ⟨pair, hpair, rfl⟩
    obtain ⟨y, hy, hysorted, -⟩ := h.statement hp hpure hregion
    refine ⟨?_, fun hblock r hr =>
      ((hmade pair hpair).sorted_of_block hs hy hysorted hblock).part (.of_mem hr)⟩
    rw [hnew]
    exact List.mem_append_left _ (List.mem_reverse.2 (List.mem_map.2 ⟨pair, hpair, rfl⟩))
  have hreplaces : Structural.Replaces (Ast.replacement pairs) body
      (bodyRegion c.known handled body) := by
    intro i _
    rw [Ast.replacement_isSome, hpairs]
  rcases (hbody.substBody hsub hnodup hreplaces hstand).unwrapped hr with
    hdone | hsortedr | ⟨r₀, hr₀, -, hbecomes⟩
  · exact Or.inl hdone
  · exact Or.inr ⟨r, hsortedr, .refl _ _ r⟩
  · exact Or.inr ⟨r₀, hsorted.part (Ast.unwrapped_part hr₀), hbecomes⟩

/-- One visit keeps the invariant. -/
theorem grown_kept (hc : c.table.Only Synthesizer.Sorted) :
    Kept c fun ps session => ∀ x ∈ ps, Grown session.handled x := by
  intro x ps rs a a' session session' htracks htracks' hvisited h
  have hfirst := h x List.mem_cons_self
  have hrest : ∀ y ∈ ps, Grown session.handled y := fun y hy => h y (List.mem_cons_of_mem _ hy)
  cases hvisited with
  | passed hhandled => exact hrest
  | entered hhandled hlabel =>
      intro y hy
      rcases List.mem_append.1 hy with hy | hy
      · exact hfirst.enter hhandled hy
      · exact hrest y hy
  | stripped hhandled hknown hstrip hsame hapart =>
      intro y hy
      rw [hsame]
      exact hrest y hy
  | expanded hhandled hs hstrip hpure hpairs hmade hnew hapart hplaced =>
      intro y hy
      rcases List.mem_append.1 hy with hy | hy
      · have hx := htracks.parts _ List.mem_cons_self
        have hnodup := (Ast.part_of_labeled hx).nodup htracks.nodup
        exact hfirst.expand hhandled hnodup (hc.get? hs) hpure hpairs hmade hnew hy
      · refine (hrest y hy).mono ?_
        rw [hnew]
        exact List.subset_append_right _ _

end Invariant

/-- The templates of a table that was built are sorted. -/
theorem sorted_of_buildTable {templates : Option (NameMap (Option String))} {table : LabelTable}
    (h : Options.buildTable templates [] = .ok table) : table.Only Synthesizer.Sorted := by
  refine only_of_buildTable (fun _ _ _ h => by cases h) (fun label source form hform form' heq => ?_) h
  obtain rfl := Synthesizer.template.inj heq
  exact Template.body_wellSorted hform

/-- The invariant holds before the first visit. -/
theorem grown_start {mode : Program.Mode} {text : String} {t : Tree}
    (hparse : Program.parse mode text = .ok t) :
    Tracked (fun ps session => ∀ x ∈ ps, Grown session.handled x) ([t.root], { tree := t }) := by
  have htracks := tracks_parse hparse
  refine ⟨[t.program], t.program, by simp [htracks.root_eq], htracks, fun x hx => ?_⟩
  obtain rfl := List.mem_singleton.1 hx
  exact Or.inr ⟨t.program, ⟨false, Program.parse_wellSorted hparse⟩, .refl _ _ _⟩

end Expansion

/-! ## Guarded synthesizers -/

/-- A synthesizer that gives up with `d` unless all expressions it is given are free of effects. -/
def Synthesizer.guarded (d : Diagnostic) (s : Synthesizer) : Synthesizer :=
  .native fun t site =>
    if site.content.all fun i => Purity.effectFree (t.reading i) then s.synthesize t site else .error d

/-- A table with all its synthesizers guarded. -/
def LabelTable.guarded (d : Diagnostic) (table : LabelTable) : LabelTable where
  entries := table.entries.map fun entry => (entry.1, entry.2.guarded d)
  ordered := by
    rw [NameMap.Ordered, List.pairwise_map]
    exact table.ordered

/-- A context with all synthesizers of its table guarded. -/
def ExpansionContext.guarded (d : Diagnostic) (c : ExpansionContext) : ExpansionContext :=
  { c with table := c.table.guarded d }

theorem LabelTable.get?_guarded (d : Diagnostic) (table : LabelTable) (label : String) :
    (table.guarded d).get? label = (table.get? label).map (Synthesizer.guarded d) := by
  change (table.entries.map fun entry => (entry.1, entry.2.guarded d)).lookup label
    = (table.entries.lookup label).map (Synthesizer.guarded d)
  induction table.entries with
  | nil => rfl
  | cons entry entries ih =>
      rw [List.map_cons, List.lookup_cons, List.lookup_cons]
      cases label == entry.1 with
      | true => rfl
      | false => exact ih

theorem ExpansionContext.known_guarded (d : Diagnostic) (c : ExpansionContext) :
    (c.guarded d).known = c.known := by
  funext label
  change ((c.table.guarded d).get? label).isSome = (c.table.get? label).isSome
  rw [LabelTable.get?_guarded, Option.isSome_map]

namespace Expansion

open Program.Tree (Held Revised)
open Purity (effectFree)

section Guarded

variable {c : ExpansionContext} {s : Synthesizer} {m : Metadata} (d : Diagnostic)

/-- The check of a guarded synthesizer holds for an expression that is free of effects. -/
theorem expandStatement_guarded {session : Session} {e x : Ast NodeId} (h : session.tree.Held e)
    (hx : e.kind = .expression x) (hfree : effectFree x = true) :
    expandStatement (c.guarded d) (s.guarded d) m e.note session
      = expandStatement c s m e.note session := by
  have hkind : session.tree.kind e.note = .expression x.note := by
    rw [h.holds.kind_eq, hx]
    rfl
  have hxheld := h.part (c := x) (by rw [hx]; exact List.mem_singleton.2 rfl)
  have hall : ((contentOf session.tree x.note).all fun i => effectFree (session.tree.reading i))
      = true := by
    rw [contentOf_eq hxheld.holds, List.all_map, List.all_eq_true]
    intro y hy
    have hpart := Ast.logged_part hy
    rw [Function.comp_apply, (hxheld.of_part hpart).reading_eq, Purity.effectFree_iff]
    exact fun b hb => (Purity.effectFree_iff x).1 hfree b (hb.trans hpart)
  simp only [expandStatement, hkind, Synthesizer.guarded, Synthesizer.synthesize, hall, if_true]
  rfl

/-- The same for several statements: when one was expanded, the others are still there as they were. -/
theorem expandStatements_guarded (hs : ∀ make, s ≠ .native make) (es : List (Ast NodeId)) :
    ∀ (a : Ast NodeId) (session : Session), session.tree.Held a →
      (∀ e ∈ es, e.Part a ∧ e ≠ a ∧ ∃ x, e.kind = .expression x ∧ effectFree x = true) →
      (es.flatMap Ast.notes).Nodup →
      expandStatements (c.guarded d) (s.guarded d) m (es.map Ast.note) session
        = expandStatements c s m (es.map Ast.note) session := by
  induction es with
  | nil => exact fun a session _ _ _ => rfl
  | cons e es ih =>
      intro a session h hes hnodup
      obtain ⟨he, hne, x, hx, hfree⟩ := hes e List.mem_cons_self
      rw [List.flatMap_cons, List.nodup_append] at hnodup
      obtain ⟨-, hnodup, hdisjoint⟩ := hnodup
      obtain ⟨made, t', hok, hrevised, -⟩ := expandStatement_revised (c := c) (m := m) hs h he hne hx
      rw [List.map_cons, expandStatements, expandStatements,
        expandStatement_guarded d (h.of_part he) hx hfree, hok]
      refine ih _ _ hrevised.held (fun b hb => ?_) hnodup
      obtain ⟨hba, hbne, hbx⟩ := hes b (List.mem_cons_of_mem _ hb)
      obtain ⟨hpart, hne'⟩ := hrevised.part_graft h he hba hbne fun i hi hi' =>
        hdisjoint i hi' i (List.mem_flatMap.2 ⟨b, hb, hi⟩) rfl
      exact ⟨hpart, hne', hbx⟩

/-- Treating a label with a guarded synthesizer. -/
theorem process_guarded {session : Session} {p : NodeId} {label : String} {body : Ast NodeId}
    (hs : ∀ make, s ≠ .native make) (h : session.tree.Held (.node p (.labeled label body)))
    (hfree : Purity.violations c.known body = [] → ∀ e ∈ bodyRegion c.known session.handled body,
      ∃ x, e.kind = .expression x ∧ effectFree x = true) :
    process (c.guarded d) p label body.note (s.guarded d) session
      = process c p label body.note s session := by
  have hbodyMem : body ∈ (Ast.node p (.labeled label body)).kind.children := List.mem_singleton.2 rfl
  have hbody := h.part hbodyMem
  -- Where the body is accepted, the statements that are collected pass the guards.
  have hsame : Purity.check session.tree c.known label c.file.filename body.note = .ok () →
      expandStatements (c.guarded d) (s.guarded d) (metadataOf c session p)
          (expressionStatements c.known session.handled (session.tree.reading body.note)) (met session)
        = expandStatements c s (metadataOf c session p)
          (expressionStatements c.known session.handled (session.tree.reading body.note))
          (met session) := by
    intro hcheck
    rw [hbody.reading_eq, expressionStatements_eq]
    refine expandStatements_guarded d hs _ _ (met session) h (fun e he => ?_)
      (bodyRegion_nodup hbody.nodup)
    have hpart := (bodyRegion_part he).1
    refine ⟨.inside hbodyMem hpart, ?_, hfree (Purity.violations_eq_nil_of_check hbody hcheck) e he⟩
    rintro rfl
    exact h.note_not_mem_inner (List.mem_flatMap.2 ⟨body, hbodyMem, hpart.notes_subset (by simp)⟩)
  have hfile : (c.guarded d).file = c.file := rfl
  have hstrip : (c.guarded d).strip = c.strip := rfl
  have henvironment : (c.guarded d).environment = c.environment := rfl
  simp only [met, metadataOf] at hsame
  simp only [process, c.known_guarded d, hfile, hstrip, henvironment]
  split
  · rfl
  · cases hcheck : Purity.check session.tree c.known label c.file.filename body.note with
    | error e => rfl
    | ok u => rw [hsame hcheck]

/-- Visiting the first of the programs to visit. -/
theorem step_guarded (hc : NoNative c.table) {session : Session} {x a : Ast NodeId}
    {ps : List (Ast NodeId)} (h : Tracks session.tree (x :: ps) a) (hx : Grown session.handled x) :
    step (c.guarded d) x.note session = step c x.note session := by
  have hheld := h.toHeld.of_part (h.parts x List.mem_cons_self)
  by_cases hhandled : x.note ∈ session.handled
  · rw [step_handled hhandled, step_handled hhandled]
  · cases hlabel : Purity.isKnownLabel c.known (session.tree.kind x.note) with
    | false =>
        rw [step_other hhandled hlabel, step_other hhandled (by rw [c.known_guarded d, hlabel])]
    | true =>
        rw [hheld.holds.kind_eq, isKnownLabel_map] at hlabel
        obtain ⟨p, label, body, rfl⟩ : ∃ p label body, x = .node p (.labeled label body) := by
          cases x with
          | node p k => cases k <;> first | exact ⟨_, _, _, rfl⟩ | cases hlabel
        obtain ⟨s, hs⟩ := Option.isSome_iff_exists.1 hlabel
        have hs' : (c.guarded d).table.get? label = some (s.guarded d) := by
          change (c.table.guarded d).get? label = _
          rw [LabelTable.get?_guarded, hs]
          rfl
        have hkind : session.tree.kind p = .labeled label body.note := hheld.holds.kind_eq
        rw [Ast.note_node] at hhandled ⊢
        rw [step_label hhandled hkind hs, step_label hhandled hkind hs']
        refine process_guarded d (hc.get? hs) hheld fun hpure e he => ?_
        obtain ⟨y, hy, hsorted, hharmless⟩ := hx.statement hhandled hpure he
        exact ⟨y, hy, Purity.effectFree_of_harmless hsorted hharmless⟩

/-- No check of a guarded synthesizer fails, however the pass ends. -/
theorem guarded_loop_eq (hc : NoNative c.table) (hsorted : c.table.Only Synthesizer.Sorted)
    (fuel : Nat) : ∀ st : List NodeId × Session,
      Tracked (fun ps session => ∀ x ∈ ps, Grown session.handled x) st →
      loop (c.guarded d) fuel st.1 st.2 = loop c fuel st.1 st.2 := by
  induction fuel with
  | zero =>
      rintro ⟨pending, session⟩ _
      cases pending <;> rfl
  | succ fuel ih =>
      rintro ⟨pending, session⟩ h
      cases pending with
      | nil => rfl
      | cons id pending =>
          have hstep : step (c.guarded d) id session = step c id session := by
            obtain ⟨ps, a, hps, htracks, hgrown⟩ := h
            match ps, hps, htracks, hgrown with
            | x :: ps, hps, htracks, hgrown =>
                obtain rfl : id = x.note := (List.cons.inj hps).1
                exact step_guarded d hc htracks (hgrown x List.mem_cons_self)
          rw [loop, loop, hstep]
          cases hvisit : step c id session with
          | error e => rfl
          | ok next =>
              obtain ⟨next, session'⟩ := next
              exact ih (next ++ pending, session') (h.iterate hc (grown_kept hsorted) (.visit hvisit))

end Guarded

/-- No expression that a synthesizer is given has a function, a method, an assignment, an update or a
yield at any depth: for every source, every table of built-in labels and compiled templates and every
bound on the visits, the pass with guarded synthesizers goes as the pass without, whatever a guard
would fail with. And when the body of a label has been accepted, the statements that are collected from
it are searched with all their parts. -/
theorem content_effectFree {mode : Program.Mode} {text : String} {t : Tree}
    (hparse : Program.parse mode text = .ok t) {c : ExpansionContext}
    {templates : Option (NameMap (Option String))}
    (htable : Options.buildTable templates [] = .ok c.table) :
    (∀ (d : Diagnostic) (fuel : Nat),
      loop (c.guarded d) fuel [t.root] { tree := t } = loop c fuel [t.root] { tree := t }) ∧
    ∀ (id : NodeId) (rest : List NodeId) (session : Session),
      Relation.ReflTransGen (Iterates c) ([t.root], { tree := t }) (id :: rest, session) →
      id ∉ session.handled → ∀ (label : String) (body : NodeId),
      session.tree.kind id = .labeled label body → c.known label = true →
      Purity.check session.tree c.known label c.file.filename body = .ok () →
      ∀ e : Ast NodeId, e.Part (session.tree.reading body) →
        e.note ∈ expressionStatements c.known session.handled (session.tree.reading body) →
        ∀ d : Ast NodeId, d.Part e →
          Purity.Searched c.known (session.tree.reading body) d ∧ Purity.construct? d.kind = none := by
  have hc := noNative_of_buildTable htable
  have hsorted := sorted_of_buildTable htable
  have hstart := grown_start hparse
  refine ⟨fun d fuel => guarded_loop_eq d hc hsorted fuel _ hstart, ?_⟩
  intro id rest session hrun hhandled label b hkind hknown hcheck e he hmem d hd
  obtain ⟨ps, a, hps, htracks, hgrown⟩ := hstart.iterates hc (grown_kept hsorted) hrun
  match ps, hps, htracks, hgrown with
  | x :: ps, hps, htracks, hgrown =>
      obtain rfl : id = x.note := (List.cons.inj hps).1
      have hheld := htracks.toHeld.of_part (htracks.parts x List.mem_cons_self)
      obtain ⟨body, hx, rfl⟩ := hheld.exists_label hkind
      generalize x.note = p at hx hhandled
      subst hx
      have hbody := hheld.part (c := body) (List.mem_singleton.2 rfl)
      rw [hbody.reading_eq] at he hmem ⊢
      have hpure := Purity.violations_eq_nil_of_check hbody hcheck
      -- The statement at the collected address is the one that was collected.
      rw [expressionStatements_eq, List.mem_map] at hmem
      obtain ⟨e', he', hnote⟩ := hmem
      obtain rfl : e' = e := hbody.part_unique (bodyRegion_part he').1 he hnote
      obtain ⟨y, hy, hysorted, hharmless⟩ :=
        (hgrown _ List.mem_cons_self).statement hhandled hpure he'
      have hsearched : Purity.Searched c.known body d := by
        refine (searched_of_bodyRegion he').of_part hd fun y' hy' b hb => ?_
        rw [hy] at hy'
        obtain rfl := List.mem_singleton.1 hy'
        exact Ast.Plain.of_no_statement
          (fun b hb => (Purity.harmless_part hb hysorted hharmless).1) b hb
      exact ⟨hsearched, (Purity.violations_eq_nil_iff_searched body).1 hpure d hsearched⟩

/-- The name of a label to visit whose body is accepted, with the number of its statements that are
collected. -/
def collected? (c : ExpansionContext) (session : Session) (id : NodeId) : Option (String × Nat) :=
  match session.tree.kind id with
  | .labeled label body =>
      if id ∉ session.handled ∧ c.known label = true ∧
          (Purity.check session.tree c.known label c.file.filename body).toOption.isSome = true then
        some (label,
          (expressionStatements c.known session.handled (session.tree.reading body)).length)
      else none
  | _ => none

/-- The pass over a label with a sequence below it: one log statement is made, no guard fails, and the
statement that is collected is searched with all its parts. -/
theorem content_effectFree_sequence :
    ∃ (t : Tree) (id body : NodeId) (session : Session) (e : Ast NodeId),
      Program.parse .source "debug:a,b()" = .ok t ∧
      (∃ last, run plainContext t = .ok last ∧ last.stats.calls = 1) ∧
      (∀ d fuel, loop (plainContext.guarded d) fuel [t.root] { tree := t }
        = loop plainContext fuel [t.root] { tree := t }) ∧
      Relation.ReflTransGen (Iterates plainContext) ([t.root], { tree := t }) ([id], session) ∧
      e.note ∈ expressionStatements plainContext.known session.handled (session.tree.reading body) ∧
      ∀ d : Ast NodeId, d.Part e →
        Purity.Searched plainContext.known (session.tree.reading body) d ∧
          Purity.construct? d.kind = none := by
  have hseen : observe plainContext (fun t last =>
      (last.stats.calls, (stateAfter plainContext 1 ([t.root], { tree := t })).map fun st =>
        st.1.map (collected? plainContext st.2))) "debug:a,b()"
      = some (1, some [some ("debug", 1)]) := by decide +kernel
  obtain ⟨t, last, hparse, hlast, hseen⟩ := exists_of_observe hseen
  obtain ⟨hcalls, hseen⟩ := Prod.mk.inj hseen
  obtain ⟨⟨pending, session⟩, hstate, hseen⟩ := Option.map_eq_some_iff.1 hseen
  obtain ⟨id, rfl, hid⟩ := List.map_eq_singleton_iff.1 hseen
  have hrun := iterates_of_stateAfter hstate
  have htable : Options.buildTable none [] = .ok plainContext.table := rfl
  obtain ⟨hguarded, hregion⟩ := content_effectFree hparse htable
  unfold collected? at hid
  split at hid
  · next label body hkind =>
      split at hid
      · next hlabel =>
          obtain ⟨hhandled, hknown, hcheck⟩ := hlabel
          obtain ⟨-, hlength⟩ := Prod.mk.inj (Option.some.inj hid)
          obtain ⟨u, hcheck⟩ := Option.isSome_iff_exists.1 hcheck
          obtain ⟨i, hi⟩ := List.length_eq_one_iff.1 hlength
          have hmem : i ∈ expressionStatements plainContext.known session.handled
              (session.tree.reading body) := by simp [hi]
          have hmem' := hmem
          rw [expressionStatements_eq, List.mem_map] at hmem'
          obtain ⟨e, he, rfl⟩ := hmem'
          exact ⟨t, id, body, session, e, hparse, ⟨last, hlast, hcalls⟩, hguarded, hrun, hmem,
            hregion id [] session hrun hhandled label body hkind hknown (eq_ok_of_toOption hcheck) e
              (bodyRegion_part he).1 hmem⟩
      · cases hid
  · cases hid

end Expansion

end LogLabel
