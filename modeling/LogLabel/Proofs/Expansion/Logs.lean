import LogLabel.Proofs.Expansion.Scope

set_option autoImplicit false

/-!
# The log statements of a pass

The log statements that a pass makes are marked in its session. This module names the
sequence of those that stand in a program, and says to which ones the structural recursion
over a source leads.

* `Session.logCalls` is the sequence of the statements made in a pass that stand in its
  program.
* `Structural.logs` is the sequence of log statements that a program leads to at a place.
-/

namespace LogLabel

open Program (Ast Kind NodeId Span Tree)

namespace Program.Ast

variable {ι κ β : Type}

/-! ## Marked statements -/

/-- The outermost parts of a program whose notes satisfy `p`, in the order in which they stand. -/
def outermost (p : ι → Bool) : Ast ι → List (Ast ι) :=
  para fun i k => if p i then [.node i (k.map Prod.fst)] else k.children.flatMap Prod.snd

theorem outermost_node (p : ι → Bool) (i : ι) (k : Kind (Ast ι)) :
    (Ast.node i k).outermost p
      = if p i then [.node i k] else k.children.flatMap (outermost p) := by
  rw [outermost, para_node, Kind.map_map, Kind.map_id, Kind.children_map, List.flatMap_map]

theorem outermost_mapNotes (f : ι → κ) (p : κ → Bool) (a : Ast ι) :
    (a.mapNotes f).outermost p = (a.outermost fun i => p (f i)).map (mapNotes f) := by
  induction a using Ast.induction with
  | node i k ih =>
      rw [mapNotes_node, outermost_node, outermost_node, Kind.children_map, List.flatMap_map]
      split
      · rw [List.map_singleton, mapNotes_node]
      · rw [List.map_flatMap]
        exact List.flatMap_congr fun b hb => ih b hb

end Program.Ast

/-- The log statements that a pass has made and that stand in its program, in the order in which they
stand. -/
def Session.logCalls (s : Session) : List (Ast Span) :=
  (s.tree.program.outermost fun i => i ∈ s.handled).map (Ast.mapNotes s.tree.span)

theorem Expansion.known_of_label? (label : String) :
    Structural.known label = (Structural.label? label).isSome := by
  unfold Structural.known Structural.label? NameMap.contains
  cases hget : LabelTable.defaults.get? label with
  | none => rfl
  | some s =>
      obtain ⟨level, values, rfl⟩ := LabelTable.defaults_builtin.get? hget
      rfl

namespace Expansion.Structural

/-- The statements made in the pass that stand in a program with marks. -/
def madeIn (a : Ast Mark) : List (Ast Span) := (a.outermost Prod.snd).map (Ast.mapNotes Prod.fst)

theorem madeIn_mapNotes (session : Session) (a : Ast NodeId) :
    madeIn (a.mapNotes session.mark)
      = (a.outermost fun i => i ∈ session.handled).map (Ast.mapNotes session.tree.span) := by
  rw [madeIn, Ast.outermost_mapNotes, List.map_map]
  exact List.map_congr_left fun b _ => session.mapNotes_fst_mark b

theorem logCalls_eq (session : Session) :
    session.logCalls = madeIn (session.tree.program.mapNotes session.mark) :=
  (madeIn_mapNotes session _).symm

theorem madeIn_made (a : Ast Span) : madeIn (made a) = [a] := by
  have hself : (made a).outermost Prod.snd = [made a] := by
    rw [made, Ast.outermost_node, if_pos rfl]
  rw [madeIn, hself, List.map_singleton, mapNotes_fst_made]

/-- A node that was not made stands for what was made in its parts. -/
theorem madeIn_node (s : Span) (k : Kind (Ast Mark)) :
    madeIn (.node (s, false) k) = k.children.flatMap madeIn := by
  rw [madeIn, Ast.outermost_node, if_neg Bool.false_ne_true, List.map_flatMap]
  rfl

/-! ## The log statements of an expansion -/

variable (c : ExpansionContext) (lines : List Nat)

/-- The place of the parts of a node. -/
def Place.inside {α : Type} (place : Place) (lines : List Nat) (s : Span) (k : Kind α) : Place :=
  { place with path := place.path ++ (scopeName? (lineOf lines s) k).toList }

/-- The site of a label at a place, for a region that no label around it has taken. -/
def Place.siteOf (place : Place) (lines : List Nat) (s : Span) (meaning : Level × Bool) : Site :=
  ⟨meaning.1, meaning.2, lineOf lines s, place.path⟩

/-- The log statements that a node at a place leads to, from left to right. Each part comes with
those that it leads to. -/
def logsStep (span : Span) (k : Kind (Ast Span × (Place → List (Ast Span)))) (place : Place) :
    List (Ast Span) :=
  let parts := k.children.flatMap fun e => e.2 ((place.inside lines span k).enter e.1)
  match k, place.site with
  | .expression x, some site => [logStatement c site x.1 span]
  | .labeled label body, _ =>
      match label? label with
      | some meaning =>
          if strips c label place.path then []
          else
            body.2 ⟨place.path,
              some ((place.enter body.1).site.getD (place.siteOf lines span meaning))⟩
      | none => parts
  | _, _ => parts

/-- The log statements that a program at a place leads to, in the order in which they stand. In the
place of the label whose body it is, a program leads to the same ones. -/
def logs : Ast Span → Place → List (Ast Span) := Ast.para (logsStep c lines)

variable {c lines} {s : Span} {place : Place}

/-- An expression statement of a region. -/
theorem logs_expression {site : Site} (hsite : place.site = some site) (x : Ast Span) :
    logs c lines (.node s (.expression x)) place = [logStatement c site x s] := by
  simp only [logs, Ast.para_node, Kind.map, logsStep, hsite]

/-- A label that is stripped leads to no log statement, any other one to those of its body. -/
theorem logs_label {label : String} {meaning : Level × Bool} (hmeaning : label? label = some meaning)
    (body : Ast Span) :
    logs c lines (.node s (.labeled label body)) place
      = if strips c label place.path then []
        else logs c lines body
          ⟨place.path, some ((place.enter body).site.getD (place.siteOf lines s meaning))⟩ := by
  simp only [logs, Ast.para_node, Kind.map, logsStep, hmeaning]

/-- Any other node leads to the log statements of its parts. -/
theorem logs_parts {k : Kind (Ast Span)} (hlabel : Purity.isKnownLabel known k = false)
    (hx : place.site = none ∨ isExpression k = false) :
    logs c lines (.node s k) place
      = k.children.flatMap fun e => logs c lines e ((place.inside lines s k).enter e) := by
  have hparts : ((k.map fun a => (a, logs c lines a)).children.flatMap fun e =>
      e.2 ((place.inside lines s (k.map fun a => (a, logs c lines a))).enter e.1))
      = k.children.flatMap fun e => logs c lines e ((place.inside lines s k).enter e) := by
    rw [Kind.children_map, List.flatMap_map, Place.inside, Tree.scopeName?_map]
    rfl
  rw [← hparts, logs, Ast.para_node]
  cases k with
  | expression x =>
      rcases hx with hx | hx
      · simp only [Kind.map, logsStep, hx]
      · cases hx
  | labeled label body =>
      have hnone : label? label = none := by
        rw [← Option.not_isSome_iff_eq_none, ← known_of_label?, Bool.not_eq_true]
        exact hlabel
      simp only [Kind.map, logsStep, hnone]
  | _ => rfl

end Expansion.Structural

end LogLabel
