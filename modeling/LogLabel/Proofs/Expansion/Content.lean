import LogLabel.Proofs.Expansion.Marks
import LogLabel.Proofs.Program.Sorts

set_option autoImplicit false

/-!
# Logged expressions

The body of a label is searched for forbidden constructs before it is expanded. Together
with the sorts of a program that was read this decides what a logged expression is made
of: no part of it is a statement, and none is a function or another forbidden construct.

* `Purity.harmless`: a program without a forbidden construct outside of the labels of log
  statements. It is what an empty list of violations says, in the pass
  (`Purity.violations_eq_nil`) and in the recursion (`Expansion.Structural.breaches_eq_nil`).
* `Purity.harmless_part`: the parts of a harmless sorted expression.
* `Expansion.bodyRegion_harmless`: the statements of a checked region log such expressions.
-/

namespace LogLabel

open Program (Ast Kind NodeId Span)

namespace Purity

variable {ι κ : Type} (known : String → Bool)

/-- A layer without a forbidden construct, given which of its parts are without one. -/
def harmlessStep (k : Kind Bool) : Bool :=
  isKnownLabel known k || ((construct? k).isNone && k.children.all id)

/-- Whether a program has no forbidden construct outside of the labels of log statements. -/
def harmless : Ast ι → Bool := Ast.fold fun _ => harmlessStep known

variable {known}

open Expansion (isKnownLabel_map)
open Expansion.Structural (construct?_map breachesOf)

theorem harmless_node (i : ι) (k : Kind (Ast ι)) :
    harmless known (.node i k) = true
      ↔ isKnownLabel known k = true ∨
        construct? k = none ∧ ∀ c ∈ k.children, harmless known c = true := by
  simp [harmless, Ast.fold_node, harmlessStep, isKnownLabel_map, construct?_map]

/-- The parts of a harmless node that is no label are harmless. -/
theorem harmless_children {i : ι} {k : Kind (Ast ι)} (h : harmless known (.node i k) = true)
    (hlabel : isKnownLabel known k = false) : ∀ c ∈ k.children, harmless known c = true := by
  rcases (harmless_node i k).1 h with hknown | ⟨-, hparts⟩
  · rw [hknown] at hlabel
    cases hlabel
  · exact hparts

theorem harmless_mapNotes (f : ι → κ) (a : Ast ι) :
    harmless known (a.mapNotes f) = harmless known a := Ast.fold_mapNotes f _ a

theorem breachesOf_eq_nil {i : ι} {k : Kind (List (ι × String))} :
    breachesOf i k = [] ↔ construct? k = none ∧ ∀ l ∈ k.children, l = [] := by
  simp [breachesOf]

/-- Searching a program finds nothing exactly when it is harmless. -/
theorem fold_breachesOf_eq_nil (a : Ast ι) :
    a.fold (fun i k => if isKnownLabel known k then [] else breachesOf i k) = []
      ↔ harmless known a = true := by
  induction a using Ast.induction with
  | node i k ih =>
      rw [Ast.fold_node, isKnownLabel_map, harmless_node]
      by_cases hl : isKnownLabel known k = true
      · simp [hl]
      · rw [if_neg hl, breachesOf_eq_nil, construct?_map, Kind.children_map, List.forall_mem_map,
          or_iff_right hl]
        exact and_congr_right fun _ => forall₂_congr ih

/-- The body of a label has no violation when it is allowed itself and its parts are harmless. -/
theorem violations_eq_nil (body : Ast NodeId) :
    violations known body = []
      ↔ construct? body.kind = none ∧ ∀ c ∈ body.kind.children, harmless known c = true := by
  change breachesOf _ _ = [] ↔ _
  rw [Ast.foldKind_eq_map, breachesOf_eq_nil, construct?_map, Kind.children_map,
    List.forall_mem_map]
  exact and_congr_right fun _ => forall₂_congr fun c _ => fold_breachesOf_eq_nil c

theorem inside_of_construct? {α : Type} {k : Kind α} (h : construct? k = none) :
    k.inside true = true := by
  cases k <;> first | rfl | cases h

/-- No part of a harmless sorted expression is a statement or a forbidden construct. -/
theorem harmless_part {x b : Ast ι} (hb : b.Part x) :
    x.wellSorted true = true → harmless known x = true →
      b.kind.isStatement = false ∧ construct? b.kind = none := by
  -- An expression is no label, so the search goes on into its parts.
  have hlayer : ∀ {a : Ast ι}, a.wellSorted true = true → harmless known a = true →
      a.kind.isStatement = false ∧ construct? a.kind = none ∧
        ∀ c ∈ a.kind.children, c.wellSorted true = true ∧ harmless known c = true := by
    rintro ⟨i, k⟩ hsorted hharmless
    obtain ⟨hstatement, hparts⟩ := (Ast.wellSorted_node true i k).1 hsorted
    have hlabel : isKnownLabel known k ≠ true := by
      intro hl
      cases k with
      | labeled label body => cases hstatement rfl
      | _ => cases hl
    obtain ⟨hconstruct, hchildren⟩ := ((harmless_node i k).1 hharmless).resolve_left hlabel
    refine ⟨hstatement rfl, hconstruct, fun c hc => ⟨?_, hchildren c hc⟩⟩
    have hpart := hparts c hc
    rwa [inside_of_construct? hconstruct] at hpart
  induction hb with
  | self =>
      intro hsorted hharmless
      obtain ⟨hstatement, hconstruct, -⟩ := hlayer hsorted hharmless
      exact ⟨hstatement, hconstruct⟩
  | inside hc _ ih =>
      intro hsorted hharmless
      obtain ⟨-, -, hparts⟩ := hlayer hsorted hharmless
      exact ih (hparts _ hc).1 (hparts _ hc).2

end Purity

namespace Expansion

open Purity (harmless harmless_node)

/-! ## Regions that were checked -/

section Regions

variable {known : String → Bool} {handled : List NodeId}

theorem layerRegion_harmless {a e x : Ast NodeId}
    (hparts : ∀ c ∈ a.kind.children, harmless known c = true)
    (hregion : ∀ c ∈ a.kind.children, ∀ e ∈ region known handled c, ∀ x, e.kind = .expression x →
      harmless known x = true)
    (he : e ∈ layerRegion known handled a) (hx : e.kind = .expression x) :
    harmless known x = true := by
  rw [layerRegion] at he
  split at he
  · obtain rfl := List.mem_singleton.1 he
    exact hparts x (by rw [hx]; exact List.mem_singleton.2 rfl)
  · obtain ⟨c, hc, he⟩ := List.mem_flatMap.1 he
    exact hregion c hc e he x hx

theorem region_harmless (a : Ast NodeId) :
    harmless known a = true → ∀ e ∈ region known handled a, ∀ x, e.kind = .expression x →
      harmless known x = true := by
  induction a using Ast.induction with
  | node i k ih =>
      intro h e he x hx
      rw [region_node] at he
      split at he
      · exact absurd he List.not_mem_nil
      · split at he
        · exact absurd he List.not_mem_nil
        · next hl =>
            have hparts := (((harmless_node i k).1 h).resolve_left hl).2
            exact layerRegion_harmless (a := .node i k) hparts (fun c hc => ih c hc (hparts c hc)) he hx

/-- The statements in the body of a label without violations log harmless expressions. -/
theorem bodyRegion_harmless {body e x : Ast NodeId} (h : Purity.violations known body = [])
    (he : e ∈ bodyRegion known handled body) (hx : e.kind = .expression x) :
    harmless known x = true := by
  have hparts := ((Purity.violations_eq_nil body).1 h).2
  rw [bodyRegion] at he
  split at he
  · exact absurd he List.not_mem_nil
  · exact layerRegion_harmless hparts (fun c hc => region_harmless c (hparts c hc)) he hx

end Regions

/-- The body of a label has no breach under the same condition. -/
theorem Structural.breaches_eq_nil {ι : Type} (body : Ast ι) :
    Structural.breaches body = []
      ↔ Purity.construct? body.kind = none ∧
        ∀ c ∈ body.kind.children, harmless Structural.known c = true := by
  rw [Structural.breaches, Purity.breachesOf_eq_nil, Structural.construct?_map, Kind.children_map,
    List.forall_mem_map]
  exact and_congr_right fun _ => forall₂_congr fun c _ => Purity.fold_breachesOf_eq_nil c

end Expansion

end LogLabel
