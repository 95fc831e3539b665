import LogLabel.Proofs.Expansion.Structural

set_option autoImplicit false

/-!
# Programs in the middle of an expansion

When a label is expanded, the statements of its region become log statements at once, and
are visited only later. A part of the program that is still to visit is therefore not what
the source has there: the statements of the regions around it have been replaced. This
module says what stands there instead.

* `Structural.standing` is what stands at a place, with a `Mark` on every node that tells
  whether the node was made in the pass.
* `Structural.breaches_standing`: it has the forbidden constructs of the source.
* `Structural.openCount` counts the statements that a label above it would still expand.
* `Structural.subst_entered`: putting the made statements in the places of the statements of
  a region turns what was standing outside of the region into what stands in it.
-/

namespace LogLabel

open Program (Ast Kind NodeId Span Tree)

namespace Program.Ast

variable {ι κ β : Type}

theorem fold_mapNotes (f : ι → κ) (g : κ → Kind β → β) (a : Ast ι) :
    (a.mapNotes f).fold g = a.fold fun i k => g (f i) k := by
  induction a using Ast.induction with
  | node i k ih => rw [mapNotes_node, fold_node, fold_node, Kind.map_map, Kind.map_congr ih]

/-! ## Substitution -/

/-- The program with the parts at some addresses replaced, all at once. -/
def subst (f : NodeId → Option (Ast NodeId)) (a : Ast NodeId) : Ast NodeId :=
  a.fold fun i k => (f i).getD (.node i k)

theorem subst_node (f : NodeId → Option (Ast NodeId)) (i : NodeId) (k : Kind (Ast NodeId)) :
    (Ast.node i k).subst f = (f i).getD (.node i (k.map (subst f))) := fold_node _ i k

theorem subst_eq_self {f : NodeId → Option (Ast NodeId)} (a : Ast NodeId) :
    (∀ i ∈ a.notes, f i = none) → a.subst f = a := by
  induction a using Ast.induction with
  | node i k ih =>
      intro h
      have hparts : ∀ c ∈ k.children, c.subst f = c := fun c hc =>
        ih c hc fun j hj => h j (notes_subset_of_mem (a := .node i k) hc hj)
      rw [subst_node, h i (by simp), Kind.map_congr hparts, Kind.map_id]
      rfl

/-- A node of the result is a node of the program or of what takes a place in it. -/
theorem mem_notes_subst {f : NodeId → Option (Ast NodeId)} {i : NodeId} (a : Ast NodeId) :
    i ∈ (a.subst f).notes → i ∈ a.notes ∨ ∃ j m, f j = some m ∧ i ∈ m.notes := by
  induction a using Ast.induction with
  | node j k ih =>
      intro h
      rw [subst_node] at h
      cases hf : f j with
      | some m =>
          rw [hf] at h
          exact Or.inr ⟨j, m, hf, h⟩
      | none =>
          rw [hf, Option.getD_none, notes_node, Kind.children_map, List.flatMap_map, List.mem_cons,
            List.mem_flatMap] at h
          rcases h with rfl | ⟨c, hc, hi⟩
          · exact Or.inl (by simp)
          · rcases ih c hc hi with hi | hi
            · exact Or.inl (notes_subset_of_mem (a := .node j k) hc hi)
            · exact Or.inr hi

/-- The program that takes the place of the one at an address. -/
def replacement (pairs : List (Ast NodeId × Ast NodeId)) (i : NodeId) : Option (Ast NodeId) :=
  (pairs.find? fun p => p.1.note = i).map Prod.snd

theorem replacement_cons (p : Ast NodeId × Ast NodeId) (pairs : List (Ast NodeId × Ast NodeId))
    (i : NodeId) :
    replacement (p :: pairs) i = if p.1.note = i then some p.2 else replacement pairs i := by
  by_cases h : p.1.note = i <;> simp [replacement, h]

theorem replacement_isSome {pairs : List (Ast NodeId × Ast NodeId)} {i : NodeId} :
    (replacement pairs i).isSome ↔ i ∈ (pairs.map Prod.fst).map note := by
  induction pairs with
  | nil => simp [replacement]
  | cons p pairs ih =>
      rw [replacement_cons, List.map_cons, List.map_cons, List.mem_cons, ← ih]
      by_cases h : p.1.note = i
      · simp [h]
      · simp [h, Ne.symm h]

theorem mem_of_replacement {pairs : List (Ast NodeId × Ast NodeId)} {i : NodeId} {m : Ast NodeId}
    (h : replacement pairs i = some m) : ∃ p ∈ pairs, p.1.note = i ∧ p.2 = m := by
  obtain ⟨p, hp, rfl⟩ := Option.map_eq_some_iff.1 h
  exact ⟨p, List.mem_of_find?_eq_some hp, by simpa using List.find?_some hp, rfl⟩

/-- Replacing one part after the other replaces them all at once, when no part is in what takes the
place of another. -/
theorem graftAll_eq_subst :
    ∀ (pairs : List (Ast NodeId × Ast NodeId)) (a : Ast NodeId),
      (∀ p ∈ pairs, ∀ p' ∈ pairs, p.1.note ∉ p'.2.notes) →
      a.graftAll pairs = a.subst (replacement pairs) := by
  intro pairs
  induction pairs with
  | nil =>
      intro a _
      exact (subst_eq_self a fun _ _ => rfl).symm
  | cons p pairs ih =>
      intro a h
      have hfirst : p.2.subst (replacement pairs) = p.2 := by
        refine subst_eq_self p.2 fun i hi => Option.not_isSome_iff_eq_none.1 fun hsome => ?_
        rw [replacement_isSome, List.mem_map] at hsome
        obtain ⟨e, he, rfl⟩ := hsome
        obtain ⟨p', hp', rfl⟩ := List.mem_map.1 he
        exact h p' (List.mem_cons_of_mem _ hp') p List.mem_cons_self hi
      rw [graftAll_cons, ih _ fun p' hp' p'' hp'' =>
        h p' (List.mem_cons_of_mem _ hp') p'' (List.mem_cons_of_mem _ hp'')]
      induction a using Ast.induction with
      | node i k iha =>
          rw [graft_node, subst_node, replacement_cons]
          by_cases hi : i = p.1.note
          · rw [if_pos hi, if_pos hi.symm, hfirst]
            rfl
          · rw [if_neg hi, if_neg (Ne.symm hi), subst_node, Kind.map_map, Kind.map_congr iha]

end Program.Ast

/-- What is known of a node in the pass: its span, and whether it was made in the pass. -/
abbrev Mark := Span × Bool

/-- The marks of a session. -/
def Session.mark (s : Session) (i : NodeId) : Mark := (s.tree.span i, decide (i ∈ s.handled))

theorem Session.mapNotes_fst_mark (s : Session) (a : Ast NodeId) :
    (a.mapNotes s.mark).mapNotes Prod.fst = a.mapNotes s.tree.span := by
  rw [Ast.mapNotes_mapNotes]
  rfl

theorem Session.mark_of_not_handled {s : Session} {i : NodeId} (h : i ∉ s.handled) :
    s.mark i = (s.tree.span i, false) := by
  rw [Session.mark, decide_eq_false h]

namespace Expansion.Structural

variable (c : ExpansionContext)

/-! ## What stands at a place -/

/-- A program that the pass has not changed. -/
def untouched (a : Ast Span) : Ast Mark := a.mapNotes fun s => (s, false)

/-- A statement made in the pass. -/
def made (a : Ast Span) : Ast Mark := .node (a.note, true) (a.kind.map untouched)

/-- A program with what stands in its place when it is entered from a site. -/
def enteredStep (site : Site) (s : Span) (k : Kind (Ast Span × Ast Mark)) : Ast Span × Ast Mark :=
  (.node s (k.map Prod.fst),
    match k with
    | .expression x => made (logStatement c site x.1 s)
    | k => .node (s, false) (k.map fun e => if isLabel e.1 then untouched e.1 else e.2))

/-- What stands in the place of a program that was entered from a site. -/
def entered (site : Site) (a : Ast Span) : Ast Mark := (a.fold (enteredStep c site)).2

/-- What stands in the place of a program. -/
def standing (p : Place) (a : Ast Span) : Ast Mark :=
  match p.site with
  | none => untouched a
  | some site => entered c site a

variable {c}

theorem fold_enteredStep (site : Site) (a : Ast Span) :
    a.fold (enteredStep c site) = (a, entered c site a) := by
  refine Prod.ext ?_ rfl
  induction a using Ast.induction with
  | node s k ih =>
      have hfst : (k.map (Ast.fold (enteredStep c site))).map Prod.fst = k := by
        rw [Kind.map_map, Kind.map_congr ih, Kind.map_id]
      rw [Ast.fold_node]
      simp only [enteredStep, hfst]

theorem entered_eq (site : Site) (s : Span) (k : Kind (Ast Span)) :
    entered c site (.node s k)
      = (enteredStep c site s (k.map fun a => (a, entered c site a))).2 := by
  rw [entered, Ast.fold_node, Kind.map_congr fun a _ => fold_enteredStep site a]

theorem entered_expression (site : Site) (s : Span) (x : Ast Span) :
    entered c site (.node s (.expression x)) = made (logStatement c site x s) := entered_eq _ _ _

theorem snd_enteredStep {site : Site} {s : Span} {k : Kind (Ast Span × Ast Mark)}
    (h : isExpression k = false) :
    (enteredStep c site s k).2
      = .node (s, false) (k.map fun e => if isLabel e.1 then untouched e.1 else e.2) := by
  cases k <;> first | rfl | simp [isExpression] at h

theorem standing_of_none {p : Place} (h : p.site = none) (a : Ast Span) :
    standing c p a = untouched a := by
  rw [standing, h]

theorem standing_of_some {p : Place} {site : Site} (h : p.site = some site) (a : Ast Span) :
    standing c p a = entered c site a := by
  rw [standing, h]

theorem enter_site_of_none {p : Place} (h : p.site = none) (a : Ast Span) :
    (p.enter a).site = none := by
  by_cases ha : isLabel a = true <;> simp [Place.enter, ha, h]

theorem standing_enter {p : Place} {site : Site} (h : p.site = some site) (a : Ast Span) :
    standing c (p.enter a) a = if isLabel a then untouched a else entered c site a := by
  by_cases ha : isLabel a = true <;> simp [standing, Place.enter, ha, h]

/-- A node that is no statement of a region stands with its parts. -/
theorem standing_node {p : Place} {k : Kind (Ast Span)}
    (h : p.site = none ∨ isExpression k = false) (s : Span) :
    standing c p (.node s k) = .node (s, false) (k.map fun e => standing c (p.enter e) e) := by
  cases hp : p.site with
  | none =>
      have hparts : ∀ e : Ast Span, standing c (p.enter e) e = untouched e := fun e =>
        standing_of_none (enter_site_of_none hp e) e
      rw [standing_of_none hp, funext hparts]
      exact Ast.mapNotes_node _ s k
  | some site =>
      rw [hp] at h
      have hk : isExpression k = false := h.resolve_left (by simp)
      rw [standing_of_some hp, funext (standing_enter hp), entered_eq,
        snd_enteredStep (by rw [isExpression_map, hk]), Kind.map_map]

/-! ## Forbidden constructs -/

theorem construct?_map {α β : Type} (f : α → β) (k : Kind α) :
    Purity.construct? (k.map f) = Purity.construct? k := by
  cases k <;> rfl

theorem breachesOf_map {ι κ : Type} (f : ι → κ) (i : ι) (k : Kind (List (ι × String))) :
    breachesOf (f i) (k.map (List.map (Prod.map f id))) = (breachesOf i k).map (Prod.map f id) := by
  rw [breachesOf, breachesOf, construct?_map, Kind.children_map, List.map_append, List.map_flatten,
    List.map_reverse]
  cases Purity.construct? k <;> rfl

theorem fold_breachesStep_mapNotes {ι κ : Type} (f : ι → κ) (a : Ast ι) :
    (a.mapNotes f).fold breachesStep = (a.fold breachesStep).map (Prod.map f id) := by
  induction a using Ast.induction with
  | node i k ih =>
      have hparts : ((k.map (Ast.mapNotes f)).map (Ast.fold breachesStep))
          = (k.map (Ast.fold breachesStep)).map (List.map (Prod.map f id)) := by
        rw [Kind.map_map, Kind.map_map, Kind.map_congr ih]
      rw [Ast.mapNotes_node, Ast.fold_node, Ast.fold_node, hparts, breachesStep, breachesStep,
        isKnownLabel_map, breachesOf_map]
      split <;> rfl

theorem breaches_mapNotes {ι κ : Type} (f : ι → κ) (a : Ast ι) :
    breaches (a.mapNotes f) = (breaches a).map (Prod.map f id) := by
  rw [breaches, breaches, Ast.note_mapNotes, Ast.kind_mapNotes, Kind.map_map,
    Kind.map_congr fun b _ => fold_breachesStep_mapNotes f b, ← breachesOf_map, Kind.map_map]

/-- The violations of purity are the forbidden constructs. -/
theorem violations_eq (body : Ast NodeId) : Purity.violations known body = breaches body := by
  rw [Purity.violations, Ast.foldKind_eq_map]
  rfl

/-- A log statement has the forbidden constructs of what it logs. -/
theorem fold_breachesStep_logStatement (site : Site) (x : Ast Span) (s : Span) :
    (logStatement c site x s).fold breachesStep
      = (Ast.node s (.expression x)).fold breachesStep := by
  have hlogged : (x.logged.map (Ast.fold breachesStep)).reverse.flatten = x.fold breachesStep := by
    cases x with
    | node i k =>
        cases k <;>
          simp [Ast.logged, Ast.fold_node, breachesStep, breachesOf, Kind.map, Kind.children,
            Purity.construct?, Purity.isKnownLabel]
  simp [logStatement, builtinStatement, Synthesizer.builtinCall, Program.Tree.recordEntry,
    Ast.fold_node, breachesStep, breachesOf, Kind.map, Kind.children, Program.Key.map,
    Program.Key.children, Purity.construct?, Purity.isKnownLabel, hlogged]

theorem mapNotes_fst_untouched (a : Ast Span) : (untouched a).mapNotes Prod.fst = a := by
  rw [untouched, Ast.mapNotes_mapNotes]
  exact a.mapNotes_id

theorem mapNotes_fst_made (a : Ast Span) : (made a).mapNotes Prod.fst = a := by
  cases a with
  | node s k =>
      rw [made, Ast.mapNotes_node, Ast.kind_node, Kind.map_map,
        Kind.map_congr fun b _ => mapNotes_fst_untouched b, Kind.map_id]
      rfl

theorem isLabel_mapNotes {ι κ : Type} (f : ι → κ) (a : Ast ι) : isLabel (a.mapNotes f) = isLabel a := by
  rw [isLabel, isLabel, Ast.kind_mapNotes, isKnownLabel_map]

/-- The parts of a region have the forbidden constructs of the source. -/
theorem fold_breachesStep_standing (a : Ast Span) :
    ∀ p : Place, ((standing c (p.enter a) a).mapNotes Prod.fst).fold breachesStep
      = a.fold breachesStep := by
  induction a using Ast.induction with
  | node s k ih =>
      intro p
      by_cases hx : isExpression k = true
      · cases hp : p.site with
        | none =>
            rw [standing_of_none (enter_site_of_none hp _), mapNotes_fst_untouched]
        | some site =>
            obtain ⟨x, rfl⟩ := isExpression_iff.1 hx
            rw [standing_enter hp, if_neg (by simp [isLabel, Purity.isKnownLabel]),
              entered_expression, mapNotes_fst_made, fold_breachesStep_logStatement]
      · rw [standing_node (Or.inr (by simpa using hx)), Ast.mapNotes_node, Ast.fold_node, Ast.fold_node,
          Kind.map_map, Kind.map_map, Kind.map_congr fun e he => ih e he _]

/-- What stands in the place of the body of a label has the forbidden constructs of the source. -/
theorem breaches_standing (p : Place) (a : Ast Span) :
    breaches ((standing c p a).mapNotes Prod.fst) = breaches a := by
  cases a with
  | node s k =>
      by_cases hx : isExpression k = true
      · obtain ⟨x, rfl⟩ := isExpression_iff.1 hx
        cases hp : p.site with
        | none => rw [standing_of_none hp, mapNotes_fst_untouched]
        | some site =>
            have hlog := fold_breachesStep_logStatement (c := c) site x s
            rw [standing_of_some hp, entered_expression, mapNotes_fst_made]
            rw [logStatement, builtinStatement, Ast.fold_node, Ast.fold_node] at hlog
            exact hlog
      · rw [standing_node (Or.inr (by simpa using hx)), Ast.mapNotes_node, breaches, breaches,
          Ast.note_node, Ast.note_node, Ast.kind_node, Ast.kind_node, Kind.map_map, Kind.map_map,
          Kind.map_congr fun e _ => fold_breachesStep_standing e p]

/-! ## Statements to expand -/

/-- The number of statements of a program that a label above it expands: those made in the pass are
not expanded again. -/
def openCount : Ast Mark → Nat :=
  Ast.fold fun m k => if m.2 then 0 else if Purity.isKnownLabel known k then 0 else statementsOf k

/-- The number of statements that a label with the given body expands. -/
def openBodyCount (body : Ast Mark) : Nat :=
  if body.note.2 then 0 else statementsOf (body.kind.map openCount)

theorem openCount_node (m : Mark) (k : Kind (Ast Mark)) :
    openCount (.node m k) = if Purity.isKnownLabel known k then 0 else openBodyCount (.node m k) := by
  rw [openCount, Ast.fold_node, isKnownLabel_map, openBodyCount]
  by_cases hm : m.2 = true <;> simp [hm, openCount]

theorem length_layerRegion {session : Session} {a : Ast NodeId}
    (h : ∀ b ∈ a.kind.children,
      (region known session.handled b).length = openCount (b.mapNotes session.mark)) :
    (layerRegion known session.handled a).length
      = statementsOf ((a.mapNotes session.mark).kind.map openCount) := by
  rw [layerRegion, statementsOf, isExpression_map, Ast.kind_mapNotes, isExpression_map]
  split
  · rfl
  · rw [List.length_flatMap, Kind.children_map, Kind.children_map, List.map_map,
      List.map_congr_left h]
    rfl

theorem length_region (session : Session) (a : Ast NodeId) :
    (region known session.handled a).length = openCount (a.mapNotes session.mark) := by
  induction a using Ast.induction with
  | node i k ih =>
      have hlayer := length_layerRegion (a := .node i k) ih
      rw [Ast.mapNotes_node] at hlayer
      rw [region_node, Ast.mapNotes_node, openCount_node, isKnownLabel_map, openBodyCount,
        Ast.note_node, Session.mark]
      by_cases hi : i ∈ session.handled
      · simp [hi]
      · rw [if_neg hi]
        by_cases hl : Purity.isKnownLabel known k = true
        · simp [hl]
        · simp [hl, hi, hlayer, Session.mark]

/-- The marks tell how many statements a label expands. -/
theorem length_bodyRegion (session : Session) (body : Ast NodeId) :
    (bodyRegion known session.handled body).length = openBodyCount (body.mapNotes session.mark) := by
  rw [bodyRegion, openBodyCount, Ast.note_mapNotes, Session.mark,
    ← length_layerRegion fun b _ => length_region session b]
  by_cases hi : body.note ∈ session.handled <;> simp [hi]

theorem openCount_untouched (a : Ast Span) : openCount (untouched a) = statementCount a := by
  rw [openCount, untouched, Ast.fold_mapNotes]
  rfl

theorem openBodyCount_untouched (a : Ast Span) : openBodyCount (untouched a) = regionCount a := by
  have hparts : (a.kind.map untouched).map openCount = a.kind.map statementCount := by
    rw [Kind.map_map, Kind.map_congr fun b _ => openCount_untouched b]
  rw [regionCount, ← hparts, openBodyCount, untouched, Ast.note_mapNotes, Ast.kind_mapNotes]
  rfl

theorem openBodyCount_made (a : Ast Span) : openBodyCount (made a) = 0 := rfl

theorem openCount_of_isLabel {a : Ast Mark} (h : isLabel a = true) : openCount a = 0 := by
  cases a with
  | node m k =>
      rw [isLabel, Ast.kind_node] at h
      rw [openCount_node, if_pos h]

/-- Nothing is left to expand in a region that was entered from a site. -/
theorem openBodyCount_entered (site : Site) (a : Ast Span) :
    openBodyCount (entered c site a) = 0 := by
  induction a using Ast.induction with
  | node s k ih =>
      by_cases hx : isExpression k = true
      · obtain ⟨x, rfl⟩ := isExpression_iff.1 hx
        rw [entered_expression, openBodyCount_made]
      · have hnode : entered c site (.node s k) = _ :=
          standing_node (p := ⟨[], some site⟩) (Or.inr (by simpa using hx)) s
        have hparts : ∀ n ∈ ((k.map fun e => standing c (Place.enter ⟨[], some site⟩ e) e).map
            openCount).children, n = 0 := by
          intro n hn
          rw [Kind.map_map, Kind.children_map, List.mem_map] at hn
          obtain ⟨e, he, rfl⟩ := hn
          rw [standing_enter rfl]
          by_cases hl : isLabel e = true
          · rw [if_pos hl, openCount_of_isLabel]
            rw [untouched, isLabel_mapNotes, hl]
          · rw [if_neg hl]
            have hbody := ih e he
            cases hm : entered c site e with
            | node m k' =>
                rw [hm] at hbody
                rw [openCount_node, hbody, ite_self]
        rw [hnode, openBodyCount, statementsOf, isExpression_map, Ast.kind_node, isExpression_map,
          if_neg hx, List.sum_eq_zero_iff_forall_eq_nat.2 hparts]
        rfl

/-! ## Expanding a region -/

section Entering

variable {handled : List NodeId} {f : NodeId → Option (Ast NodeId)} {span : NodeId → Span}
  {mark : NodeId → Mark} {site : Site}

/-- The replaced parts are the statements of a region: `f` gives a program for each of them and for
nothing else. -/
def Replaces (f : NodeId → Option (Ast NodeId)) (a : Ast NodeId) (statements : List (Ast NodeId)) :
    Prop :=
  ∀ i ∈ a.notes, ((f i).isSome ↔ i ∈ statements.map Ast.note)

theorem Replaces.part {known : String → Bool} {q : NodeId} {k : Kind (Ast NodeId)}
    (hnodup : (Ast.node q k).notes.Nodup)
    (h : Replaces f (.node q k) (k.children.flatMap (region known handled))) {a : Ast NodeId}
    (ha : a ∈ k.children) : Replaces f a (region known handled a) := by
  intro i hi
  rw [h i (Ast.notes_subset_of_mem (a := .node q k) ha hi), List.map_flatMap, List.mem_flatMap]
  refine ⟨?_, fun hmem => ⟨a, ha, hmem⟩⟩
  rintro ⟨d, hd, hmem⟩
  obtain ⟨e, he, rfl⟩ := List.mem_map.1 hmem
  have hed : e.note ∈ d.notes := (region_part d e he).1.notes_subset e.note_mem_notes
  rw [Ast.notes_node, List.nodup_cons] at hnodup
  obtain rfl := Tree.eq_of_nodup_flatMap hnodup.2 hd ha hed hi
  exact hmem

/-- A layer over the statements of a region is not replaced itself. -/
theorem Replaces.layer_eq_none {known : String → Bool} {q : NodeId} {k : Kind (Ast NodeId)}
    (hnodup : (Ast.node q k).notes.Nodup)
    (h : Replaces f (.node q k) (k.children.flatMap (region known handled))) : f q = none := by
  rw [← Option.not_isSome_iff_eq_none, h q (by simp), List.map_flatMap, List.mem_flatMap]
  rintro ⟨d, hd, hmem⟩
  obtain ⟨e, he, hnote⟩ := List.mem_map.1 hmem
  refine Tree.layer_not_mem_part hnodup hd (hnote ▸ ?_)
  exact (region_part d e he).1.notes_subset e.note_mem_notes

/-- Replacing the statements of a layer that is entered. -/
theorem subst_entered_layer {a : Ast NodeId} (hnodup : a.notes.Nodup)
    (hmark : ∀ i ∈ a.notes, mark i = (span i, false))
    (hf : Replaces f a (layerRegion known handled a))
    (hmade : ∀ e ∈ layerRegion known handled a, ∀ m x, f e.note = some m → e.kind = .expression x →
      m.mapNotes mark = made (logStatement c site (x.mapNotes span) (span e.note)))
    (hparts : ∀ b ∈ a.kind.children, Replaces f b (region known handled b) →
      (∀ e ∈ region known handled b, e ∈ layerRegion known handled a) →
      (b.subst f).mapNotes mark
        = standing c (Place.enter ⟨[], some site⟩ (b.mapNotes span)) (b.mapNotes span)) :
    (a.subst f).mapNotes mark = entered c site (a.mapNotes span) := by
  cases a with
  | node q k =>
      rw [Ast.subst_node, Ast.mapNotes_node]
      by_cases hx : isExpression k = true
      · obtain ⟨x, rfl⟩ := isExpression_iff.1 hx
        have hself : Ast.node q (.expression x) ∈ layerRegion known handled (.node q (.expression x)) :=
          List.mem_singleton.2 rfl
        obtain ⟨m, hm⟩ := Option.isSome_iff_exists.1
          ((hf q (by simp)).2 (List.mem_map.2 ⟨_, hself, rfl⟩))
        rw [hm, Option.getD_some, hmade _ hself m x hm rfl]
        exact (entered_expression _ _ _).symm
      · have hlayer : layerRegion known handled (.node q k)
            = k.children.flatMap (region known handled) := by
          rw [layerRegion, Ast.kind_node, if_neg hx]
        rw [hlayer] at hf
        have hnode : entered c site (.node (span q) (k.map (Ast.mapNotes span))) = _ :=
          standing_node (p := ⟨[], some site⟩)
            (Or.inr (by rw [isExpression_map]; simpa using hx)) (span q)
        rw [hf.layer_eq_none hnodup, Option.getD_none, Ast.mapNotes_node, hmark q (by simp), hnode,
          Kind.map_map, Kind.map_map]
        refine congrArg _ (Kind.map_congr fun b hb => hparts b hb (hf.part hnodup hb) fun e he => ?_)
        rw [hlayer]
        exact List.mem_flatMap.2 ⟨b, hb, he⟩

/-- Replacing the statements of a part of a region. -/
theorem subst_standing (a : Ast NodeId) :
    a.notes.Nodup → (∀ i ∈ a.notes, i ∉ handled) → (∀ i ∈ a.notes, mark i = (span i, false)) →
    Replaces f a (region known handled a) →
    (∀ e ∈ region known handled a, ∀ m x, f e.note = some m → e.kind = .expression x →
      m.mapNotes mark = made (logStatement c site (x.mapNotes span) (span e.note))) →
    (a.subst f).mapNotes mark
      = standing c (Place.enter ⟨[], some site⟩ (a.mapNotes span)) (a.mapNotes span) := by
  induction a using Ast.induction with
  | node q k ih =>
      intro hnodup hfresh hmark hf hmade
      rw [region_node, if_neg (hfresh q (by simp))] at hf hmade
      rw [standing_enter rfl, isLabel_mapNotes]
      by_cases hl : isLabel (Ast.node q k) = true
      · have hl' : Purity.isKnownLabel known k = true := hl
        rw [if_pos hl'] at hf
        have hnone : ∀ i ∈ (Ast.node q k).notes, f i = none := by
          intro i hi
          rw [← Option.not_isSome_iff_eq_none, hf i hi]
          simp
        rw [if_pos hl, Ast.subst_eq_self _ hnone, untouched, Ast.mapNotes_mapNotes]
        exact Ast.mapNotes_congr _ hmark
      · have hl' : ¬ Purity.isKnownLabel known k = true := hl
        rw [if_neg hl'] at hf hmade
        rw [if_neg hl]
        refine subst_entered_layer hnodup hmark hf hmade fun b hb hfb hsub => ?_
        have hbsub := Ast.notes_subset_of_mem (a := .node q k) hb
        exact ih b hb ((Ast.Part.of_mem (a := .node q k) hb).nodup hnodup)
          (fun i hi => hfresh i (hbsub hi)) (fun i hi => hmark i (hbsub hi)) hfb
          fun e he => hmade e (hsub e he)

/-- Replacing the statements of the region of a label that was not entered before. -/
theorem subst_entered {body : Ast NodeId} (hnodup : body.notes.Nodup)
    (hfresh : ∀ i ∈ body.notes, i ∉ handled) (hmark : ∀ i ∈ body.notes, mark i = (span i, false))
    (hf : Replaces f body (bodyRegion known handled body))
    (hmade : ∀ e ∈ bodyRegion known handled body, ∀ m x, f e.note = some m →
      e.kind = .expression x →
      m.mapNotes mark = made (logStatement c site (x.mapNotes span) (span e.note))) :
    (body.subst f).mapNotes mark = entered c site (body.mapNotes span) := by
  rw [bodyRegion, if_neg (hfresh _ body.note_mem_notes)] at hf hmade
  refine subst_entered_layer hnodup hmark hf hmade fun b hb hfb hsub => ?_
  have hbsub := Ast.notes_subset_of_mem hb
  exact subst_standing b ((Ast.Part.of_mem hb).nodup hnodup) (fun i hi => hfresh i (hbsub hi))
    (fun i hi => hmark i (hbsub hi)) hfb fun e he => hmade e (hsub e he)

end Entering

end Expansion.Structural

/-- Putting the made statements in the places of the statements of a region, one after the other,
replaces them all at once. -/
theorem Expansion.graftAll_eq_subst_of_made {c : ExpansionContext} {s : Synthesizer} {m : Metadata}
    {known : String → Bool} {handled : List NodeId} {t t' : Tree} {body : Ast NodeId}
    {pairs : List (Ast NodeId × Ast NodeId)} (hbody : t.Held body)
    (hpairs : pairs.map Prod.fst = bodyRegion known handled body)
    (hmade : ∀ pair ∈ pairs, Made c s m t t' pair.1 pair.2) :
    body.graftAll pairs = body.subst (Ast.replacement pairs) := by
  have hregion : ∀ pair ∈ pairs, pair.1 ∈ bodyRegion known handled body :=
    fun pair hpair => hpairs ▸ List.mem_map.2 ⟨pair, hpair, rfl⟩
  refine Ast.graftAll_eq_subst pairs body fun p hp p' hp' hmem => ?_
  rcases (hmade p' hp').origin _ hmem with hinner | hge
  · exact Tree.note_not_mem_inner_of_nodup (bodyRegion_nodup hbody.nodup) (hregion p' hp')
      (hregion p hp) hinner
  · have hpart := (bodyRegion_part (hregion p hp)).1
    exact Nat.not_lt.2 hge (hbody.holds.stored _ (hpart.notes_subset p.1.note_mem_notes))

end LogLabel
