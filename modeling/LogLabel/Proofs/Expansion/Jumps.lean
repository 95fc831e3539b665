import LogLabel.Proofs.Expansion.Success

set_option autoImplicit false

/-!
# Labeled jumps

A label of a log statement is at the same time a label of the program, to which a `break`
or `continue` can refer. The pass takes the label away and does not look for jumps to it.

* `Ast.jumps` lists the labeled jumps of a program, each with the labels of the statements
  around it in its function.
* `Expansion.Structural.carriesJumps`: the jumps of an expansion are jumps of the source, and
  the labels around them are those of the source without the labels of log statements.
* `Expansion.jumps_bound_iff`: where all jumps of the source refer to a label around them,
  those of the rewritten program do so exactly when they name no label of a log statement.
-/

namespace LogLabel

open Program (Ast Kind NodeId Span Tree)

namespace Program

variable {α β ι κ : Type}

/-- A labeled jump: the name it refers to, and the labels of the statements around it in its function,
the innermost first. -/
structure Jump where
  name : String
  labels : List String
deriving DecidableEq

/-- The labeled jump that a layer is. -/
def Kind.jump? (labels : List String) : Kind α → Option Jump
  | .breakStmt (some name) => some ⟨name, labels⟩
  | .continueStmt (some name) => some ⟨name, labels⟩
  | _ => none

/-- The labels around the parts of a layer. No label is seen from inside of a function; the key of a
method is an expression, and has no jump of its own. -/
def Kind.labelsInside (labels : List String) : Kind α → List String
  | .labeled name _ => name :: labels
  | .function _ _ => []
  | .method _ _ _ => []
  | _ => labels

/-- The labeled jumps of a node, given those of its parts. -/
def jumpsStep (k : Kind (List String → List Jump)) (labels : List String) : List Jump :=
  (k.jump? labels).toList ++ k.children.flatMap fun part => part (k.labelsInside labels)

/-- The labeled jumps of a program that stands below statements with the given labels. -/
def Ast.jumpsIn (labels : List String) (a : Ast ι) : List Jump := a.fold (fun _ => jumpsStep) labels

/-- The labeled jumps of a program. -/
def Ast.jumps (a : Ast ι) : List Jump := a.jumpsIn []

theorem Kind.jump?_map (f : α → β) (labels : List String) (k : Kind α) :
    (k.map f).jump? labels = k.jump? labels := by
  cases k <;> first | rfl | (rename_i l; cases l <;> rfl)

theorem Kind.labelsInside_map (f : α → β) (labels : List String) (k : Kind α) :
    (k.map f).labelsInside labels = k.labelsInside labels := by
  cases k <;> rfl

theorem Kind.jump?_outline (labels : List String) (k : Kind α) :
    k.outline.jump? labels = k.jump? labels := by
  cases k <;> first | rfl | (rename_i l; cases l <;> rfl)

theorem Kind.labelsInside_outline (labels : List String) (k : Kind α) :
    k.outline.labelsInside labels = k.labelsInside labels := by
  cases k <;> rfl

namespace Ast

theorem jumpsIn_node (labels : List String) (i : ι) (k : Kind (Ast ι)) :
    (Ast.node i k).jumpsIn labels
      = (k.jump? labels).toList
        ++ k.children.flatMap fun c => c.jumpsIn (k.labelsInside labels) := by
  rw [jumpsIn, fold_node, jumpsStep, Kind.jump?_map, Kind.labelsInside_map, Kind.children_map,
    List.flatMap_map]
  rfl

theorem jumpsIn_mapNotes (f : ι → κ) (labels : List String) (a : Ast ι) :
    (a.mapNotes f).jumpsIn labels = a.jumpsIn labels := by
  rw [jumpsIn, fold_mapNotes]
  rfl

/-- There are no jumps in a program without statements. -/
theorem jumpsIn_eq_nil (a : Ast ι) :
    ∀ labels : List String, (∀ b : Ast ι, b.Part a → b.kind.isStatement = false) →
      a.jumpsIn labels = [] := by
  induction a using Ast.induction with
  | node i k ih =>
      intro labels h
      have hown : k.jump? labels = none := by
        have hk := h _ .self
        cases k <;> first | rfl | cases hk
      rw [jumpsIn_node, hown, Option.toList_none, List.nil_append, List.flatMap_eq_nil_iff]
      exact fun c hc => ih c hc _ fun b hb => h b (.inside hc hb)

end Ast

end Program

namespace Expansion

namespace Structural

open Purity (harmless harmless_node harmless_children)

variable {c : ExpansionContext} {lines : List Nat} {inList : Bool} {place : Place} {s : Span}
  {a : Ast Span} {xs : List (Ast Span)}

/-- The labels that are none of log statements. -/
def unknownLabels (labels : List String) : List String := labels.filter fun name => !known name

/-- The jumps of the programs `xs` are jumps of the program `a`, and the labels around them are those
of `a` that are none of log statements. -/
def CarriesJumps (a : Ast Span) (xs : List (Ast Span)) : Prop :=
  ∀ labels : List String, ∀ x ∈ xs, ∀ j ∈ x.jumpsIn (unknownLabels labels),
    ∃ j₀ ∈ a.jumpsIn labels, j.name = j₀.name ∧ j.labels = unknownLabels j₀.labels

theorem unknownLabels_inside {α : Type} {k : Kind α} (h : Purity.isKnownLabel known k = false)
    (labels : List String) :
    k.labelsInside (unknownLabels labels) = unknownLabels (k.labelsInside labels) := by
  cases k with
  | labeled name body =>
      have hname : known name = false := h
      simp [Kind.labelsInside, unknownLabels, hname]
  | _ => rfl

/-- A log statement of an expression without statements has no jump. -/
theorem jumpsIn_logStatement {site : Site} {x : Ast Span}
    (h : ∀ b : Ast Span, b.Part x → b.kind.isStatement = false) (labels : List String) :
    (logStatement c site x s).jumpsIn labels = [] := by
  have hlogged : x.logged.flatMap (fun d => d.jumpsIn labels) = [] := by
    rw [List.flatMap_eq_nil_iff]
    exact fun d hd => d.jumpsIn_eq_nil labels fun b hb => h b (hb.trans (Ast.logged_part hd))
  simp [logStatement, builtinStatement, Synthesizer.builtinCall, Program.Tree.recordEntry,
    Ast.jumpsIn_node, Kind.jump?, Kind.labelsInside, Kind.children, Program.Key.children] at hlogged ⊢
  exact hlogged

/-- A jump keeps its name when other labels are around it. -/
theorem jump?_unknownLabels {α : Type} {k : Kind α} {labels : List String} {j : Program.Jump}
    (h : k.jump? (unknownLabels labels) = some j) :
    ∃ j₀ : Program.Jump, k.jump? labels = some j₀ ∧ j.name = j₀.name ∧
      j.labels = unknownLabels j₀.labels := by
  cases k with
  | breakStmt name =>
      cases name with
      | none => cases h
      | some name =>
          obtain rfl := Option.some.inj h
          exact ⟨⟨name, labels⟩, rfl, rfl, rfl⟩
  | continueStmt name =>
      cases name with
      | none => cases h
      | some name =>
          obtain rfl := Option.some.inj h
          exact ⟨⟨name, labels⟩, rfl, rfl, rfl⟩
  | _ => cases h

theorem jumpsIn_empty (labels : List String) : (Ast.node s .empty).jumpsIn labels = [] := by
  rw [Ast.jumpsIn_node]
  rfl

theorem CarriesJumps.nothing (a : Ast Span) (inList : Bool) :
    CarriesJumps a (if inList then [] else [.node s .empty]) := by
  intro labels x hx j hj
  cases inList with
  | true => exact absurd hx List.not_mem_nil
  | false =>
      obtain rfl := List.mem_singleton.1 hx
      rw [jumpsIn_empty] at hj
      exact absurd hj List.not_mem_nil

/-- The jumps of a label of a log statement are those of its body. -/
theorem CarriesJumps.label {name : String} {body : Ast Span} (hknown : known name = true)
    (h : CarriesJumps body xs) : CarriesJumps (.node s (.labeled name body)) xs := by
  intro labels x hx j hj
  have hlabels : unknownLabels (name :: labels) = unknownLabels labels := by
    simp [unknownLabels, hknown]
  rw [← hlabels] at hj
  obtain ⟨j₀, hj₀, hsame⟩ := h (name :: labels) x hx j hj
  refine ⟨j₀, ?_, hsame⟩
  rw [Ast.jumpsIn_node]
  exact List.mem_append_right _ (List.mem_flatMap.2 ⟨body, List.mem_singleton.2 rfl, hj₀⟩)

/-- The jumps of a block are those of its statements. -/
theorem CarriesJumps.statement {e : Ast Span} {es : List (Ast Span)} (he : e ∈ es)
    (h : CarriesJumps e xs) : CarriesJumps (.node s (.block es)) xs := by
  intro labels x hx j hj
  obtain ⟨j₀, hj₀, hsame⟩ := h labels x hx j hj
  refine ⟨j₀, ?_, hsame⟩
  rw [Ast.jumpsIn_node]
  exact List.mem_append_right _ (List.mem_flatMap.2 ⟨e, he, hj₀⟩)

theorem CarriesJumps.block (h : CarriesJumps a xs) : CarriesJumps a [.node s (.block xs)] := by
  intro labels x hx j hj
  obtain rfl := List.mem_singleton.1 hx
  rw [Ast.jumpsIn_node] at hj
  obtain ⟨y, hy, hj⟩ := List.mem_flatMap.1 hj
  exact h labels y hy j hj

/-- A node whose parts carry their jumps. -/
theorem CarriesJumps.parts {k : Kind (Ast Span)} (hlabel : Purity.isKnownLabel known k = false)
    (hall : ExpandsAll c lines k.isList place k.children xs)
    (hparts : ∀ b ∈ k.children, ∀ ys, Expands c lines k.isList (place.enter b) b ys →
      CarriesJumps b ys) :
    CarriesJumps (.node s k) [.node s (k.refill xs)] := by
  intro labels x hx j hj
  obtain rfl := List.mem_singleton.1 hx
  have hown : (k.refill xs).jump? (unknownLabels labels) = k.jump? (unknownLabels labels) := by
    rw [← Kind.jump?_outline, hall.outline_refill, Kind.jump?_outline]
  have hinside : (k.refill xs).labelsInside (unknownLabels labels)
      = unknownLabels (k.labelsInside labels) := by
    rw [← Kind.labelsInside_outline, hall.outline_refill, Kind.labelsInside_outline,
      unknownLabels_inside hlabel]
  rw [Ast.jumpsIn_node, hown, hinside, hall.children_refill, List.mem_append,
    Option.mem_toList, List.mem_flatMap] at hj
  simp only [Ast.jumpsIn_node, List.mem_append, List.mem_flatMap, Option.mem_toList]
  rcases hj with hj | ⟨y, hy, hj⟩
  · obtain ⟨j₀, hj₀, hsame⟩ := jump?_unknownLabels hj
    exact ⟨j₀, Or.inl hj₀, hsame⟩
  · obtain ⟨b, hb, ys, hys, hexpands⟩ := hall.exists_of_mem y hy
    obtain ⟨j₀, hj₀, hsame⟩ := hparts b hb ys hexpands _ y hys j hj
    exact ⟨j₀, Or.inr ⟨b, hb, hj₀⟩, hsame⟩

/-- Every expansion of a sorted program carries its jumps. In a region the program is one that was
searched for forbidden constructs, so that the logged expressions have no jumps. -/
theorem carriesJumps (a : Ast Span) :
    ∀ b : Bool, a.wellSorted b = true →
      (∀ inList place xs, (place.site.isSome = true → harmless known a = true) →
        Expands c lines inList place a xs → CarriesJumps a xs) ∧
      ∀ inList l place xs, breaches a = [] → Unwraps c lines inList l place a xs →
        CarriesJumps a xs := by
  induction a using Ast.induction with
  | node s k ih =>
      intro b hsorted
      have hchildren := ((Ast.wellSorted_node b s k).1 hsorted).2
      have hexpands : ∀ inList place xs,
          (place.site.isSome = true → harmless known (.node s k) = true) →
          Expands c lines inList place (.node s k) xs → CarriesJumps (.node s k) xs := by
        intro inList place xs hharmless h
        cases h.outcome with
        | @logged site x hsite =>
            intro labels y hy j hj
            obtain rfl := List.mem_singleton.1 hy
            -- A log statement has no jump, since the logged expression was searched.
            have hx : harmless known x = true :=
              harmless_children (hharmless (by rw [hsite]; rfl)) rfl x (List.mem_singleton.2 rfl)
            have hxsorted := Ast.wellSorted_expression hsorted .self rfl
            rw [jumpsIn_logStatement fun d hd => (Purity.harmless_part hd hxsorted hx).1] at hj
            exact absurd hj List.not_mem_nil
        | stripped _ _ => exact .nothing _ inList
        | @label _ _ body _ hmeaning hpure hbody =>
            refine .label (by rw [known_of_label?, hmeaning]; rfl) ?_
            have hmem : body ∈ [body] := List.mem_singleton.2 rfl
            exact (ih body hmem _ (hchildren body hmem)).2 _ _ _ _ hpure hbody
        | parts hlabel _ hall =>
            refine .parts hlabel hall fun d hd ys hys => ?_
            refine (ih d hd _ (hchildren d hd)).1 _ _ _ (fun hsite => ?_) hys
            have hinside : (place.inside lines s k).site.isSome = true := isSome_of_enter hsite
            exact harmless_children (hharmless hinside) hlabel d hd
      refine ⟨hexpands, fun inList l place xs hpure h => ?_⟩
      obtain ⟨hconstruct, hparts⟩ := (breaches_eq_nil _).1 hpure
      cases h.outcome with
      | nothing _ => exact .nothing _ inList
      | @single e _ he =>
          have hmem : e ∈ [e] := List.mem_singleton.2 rfl
          exact .statement hmem ((ih e hmem _ (hchildren e hmem)).1 _ _ _ (fun _ => hparts e hmem) he)
      | @block es ys hall =>
          have hblock : CarriesJumps (.node s (.block es)) ys := by
            intro labels y hy
            obtain ⟨e, he, zs, hzs, hexpand⟩ := hall.exists_of_mem y hy
            have hcarries := (ih e he _ (hchildren e he)).1 _ _ _ (fun _ => hparts e he) hexpand
            exact hcarries.statement he labels y hzs
          cases inList with
          | true => exact hblock
          | false => exact hblock.block
      | other hk =>
          exact hexpands _ _ _ (fun _ => (harmless_node s k).2 (Or.inr ⟨hconstruct, hparts⟩)) hk

end Structural

/-! ## Jumps of rewritten programs -/

/-- In a text whose labeled jumps all stand in a statement with their label in the same function, the
jumps that a successful pass leaves do so exactly when they name no label of a log statement. -/
theorem jumps_bound_iff {text : String} {t : Tree} (hparse : Program.parse .source text = .ok t)
    (hbound : ∀ j ∈ t.program.jumps, j.name ∈ j.labels) {c : ExpansionContext}
    (hc : c.table = LabelTable.defaults) {session : Session} (hrun : run c t = .ok session) :
    ∀ j ∈ session.tree.program.jumps,
      (j.name ∈ j.labels ↔ LabelTable.defaults.contains j.name = false) := by
  intro j hj
  have hexpands := expands_of_run hparse hc hrun
  have hsorted := Program.parse_wellSorted hparse
  rw [← Ast.wellSorted_mapNotes t.span] at hsorted
  have hcarries := (Structural.carriesJumps _ _ hsorted).1 false ⟨[], none⟩ _
    (fun h => absurd h Bool.false_ne_true) hexpands
  rw [Ast.jumps, ← Ast.jumpsIn_mapNotes session.tree.span] at hj
  obtain ⟨j₀, hj₀, hname, hlabels⟩ := hcarries [] _ (List.mem_singleton.2 rfl) j hj
  rw [Ast.jumpsIn_mapNotes] at hj₀
  have hmem := hbound j₀ hj₀
  rw [hlabels, hname, Structural.unknownLabels, List.mem_filter, and_iff_right hmem,
    Bool.not_eq_true']
  rfl

/-- The labeled jumps before and after a pass. -/
def jumpsOf (t : Tree) (session : Session) : List Program.Jump × List Program.Jump :=
  (t.program.jumps, session.tree.program.jumps)

/-- A jump out of a statement that is not logged is kept with its label, also below a label of a log
statement. -/
theorem jumps_bound_iff_inside :
    ∃ (t : Tree) (session : Session), Program.parse .source "info:a:break a" = .ok t ∧
      (∀ j ∈ t.program.jumps, j.name ∈ j.labels) ∧ run plainContext t = .ok session ∧
      ⟨"a", ["a"]⟩ ∈ session.tree.program.jumps ∧
        ("a" ∈ ["a"] ↔ LabelTable.defaults.contains "a" = false) := by
  have hseen : observe plainContext jumpsOf "info:a:break a"
      = some ([⟨"a", ["a", "info"]⟩], [⟨"a", ["a"]⟩]) := by decide +kernel
  obtain ⟨t, session, hparse, hrun, hjumps⟩ := exists_of_observe hseen
  obtain ⟨hbefore, hafter⟩ := Prod.mk.inj hjumps
  have hbound : ∀ j ∈ t.program.jumps, j.name ∈ j.labels := by
    rw [hbefore]
    decide
  have hjump : ⟨"a", ["a"]⟩ ∈ session.tree.program.jumps := by
    rw [hafter]
    decide
  exact ⟨t, session, hparse, hbound, hrun, hjump, jumps_bound_iff hparse hbound rfl hrun _ hjump⟩

/-- The pass removes the label of a log statement to which a jump refers. -/
theorem jump_left_unbound :
    ∃ (t : Tree) (session : Session), Program.parse .source "info:break info" = .ok t ∧
      (∀ j ∈ t.program.jumps, j.name ∈ j.labels) ∧ run plainContext t = .ok session ∧
      ∃ j ∈ session.tree.program.jumps, j.name ∉ j.labels := by
  have hseen : observe plainContext jumpsOf "info:break info"
      = some ([⟨"info", ["info"]⟩], [⟨"info", []⟩]) := by decide +kernel
  obtain ⟨t, session, hparse, hrun, hjumps⟩ := exists_of_observe hseen
  obtain ⟨hbefore, hafter⟩ := Prod.mk.inj hjumps
  refine ⟨t, session, hparse, ?_, hrun, ⟨"info", []⟩, ?_, List.not_mem_nil⟩
  · rw [hbefore]
    decide
  · rw [hafter]
    decide

end Expansion

end LogLabel
