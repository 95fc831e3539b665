import LogLabel.Proofs.Expansion.Content

set_option autoImplicit false

/-!
# What has become of a program of the source

A program that is still to visit is a program of the source in which the regions around it
have been expanded. For any table of labels this module says how the two are related, and
that the relation is kept.

* `Expansion.Becomes handled Q a₀ a`: the program `a` is `a₀` but for expression statements,
  in whose places made statements stand. `Q` is what is known of the statements in a made
  block, which are visited when the block is the body of a label.
* `Expansion.Becomes.statement_part`: the statements that a label expands are parts of the
  source.
* `Expansion.Becomes.substBody`, `Expansion.Becomes.unwrapped`: the relation is kept when a
  label is expanded.
-/

namespace LogLabel.Expansion

open Program (Ast Kind NodeId Span Tree)
open Purity (harmless harmless_node)
open Structural (Replaces)

/-- The program `a₀` of the source has become `a`. -/
inductive Becomes (handled : List NodeId) (Q : Ast NodeId → Prop) : Ast NodeId → Ast NodeId → Prop
  | made {a₀ m : Ast NodeId} (hx : isExpression a₀.kind = true) (hm : m.note ∈ handled)
      (hblock : m.kind.isBlock = true → ∀ r ∈ m.kind.children, Q r) : Becomes handled Q a₀ m
  | layer {i : NodeId} {k : Kind (Ast NodeId)} (f : Ast NodeId → Ast NodeId)
      (hparts : ∀ b ∈ k.children, Becomes handled Q b (f b)) :
      Becomes handled Q (.node i k) (.node i (k.map f))

namespace Becomes

variable {handled handled' : List NodeId} {Q : Ast NodeId → Prop} {a₀ a : Ast NodeId}
  {known : String → Bool}

theorem refl (handled : List NodeId) (Q : Ast NodeId → Prop) (a : Ast NodeId) :
    Becomes handled Q a a := by
  induction a using Ast.induction with
  | node i k ih =>
      have hlayer : Becomes handled Q (.node i k) (.node i (k.map fun b => b)) := .layer _ ih
      rwa [Kind.map_id] at hlayer

theorem mono (h : Becomes handled Q a₀ a) (hsub : handled ⊆ handled') : Becomes handled' Q a₀ a := by
  induction h with
  | made hx hm hblock => exact .made hx (hsub hm) hblock
  | layer f _ ih => exact .layer f ih

theorem note_eq (h : Becomes handled Q a₀ a) : a.note ∈ handled ∨ a.note = a₀.note := by
  cases h with
  | made _ hm _ => exact Or.inl hm
  | layer _ _ => exact Or.inr rfl

/-- A program that was not made is the source with parts that have become others. -/
theorem exists_layer (h : Becomes handled Q a₀ a) (ha : a.note ∉ handled) :
    ∃ f : Ast NodeId → Ast NodeId, a = .node a₀.note (a₀.kind.map f) ∧
      ∀ b ∈ a₀.kind.children, Becomes handled Q b (f b) := by
  cases h with
  | made _ hm _ => exact absurd hm ha
  | layer f hparts => exact ⟨f, rfl, hparts⟩

/-- A label that was not made is a label of the source. -/
theorem exists_label {p : NodeId} {label : String} {body : Ast NodeId}
    (h : Becomes handled Q a₀ (.node p (.labeled label body))) (hp : p ∉ handled) :
    ∃ body₀ : Ast NodeId, a₀ = .node p (.labeled label body₀) ∧ Becomes handled Q body₀ body := by
  obtain ⟨f, heq, hparts⟩ := h.exists_layer hp
  obtain ⟨i, k⟩ := a₀
  rw [Ast.node.injEq] at heq
  obtain ⟨rfl, hkind⟩ := heq
  cases k with
  | labeled label₀ body₀ =>
      obtain ⟨rfl, rfl⟩ := Kind.labeled.inj hkind
      exact ⟨body₀, rfl, hparts body₀ (List.mem_singleton.2 rfl)⟩
  | _ => cases hkind

/-! ## Regions -/

theorem region_of_handled (h : a.note ∈ handled) : Expansion.region known handled a = [] := by
  cases a with
  | node i k =>
      rw [Ast.note_node] at h
      rw [region_node, if_pos h]

/-- A statement of the source at the address of `e`, whose parts have become those of `e`. -/
def StatementOf (handled : List NodeId) (Q : Ast NodeId → Prop) (a₀ e : Ast NodeId) : Prop :=
  ∃ (e₀ : Ast NodeId) (f : Ast NodeId → Ast NodeId), e₀.Part a₀ ∧
    e = .node e₀.note (e₀.kind.map f) ∧ ∀ b ∈ e₀.kind.children, Becomes handled Q b (f b)

theorem StatementOf.inside {e b : Ast NodeId} (h : StatementOf handled Q b e)
    (hb : b ∈ a₀.kind.children) : StatementOf handled Q a₀ e := by
  obtain ⟨e₀, f, he₀, heq, hparts⟩ := h
  exact ⟨e₀, f, .inside hb he₀, heq, hparts⟩

theorem layerRegion {i : NodeId} {k : Kind (Ast NodeId)} {f : Ast NodeId → Ast NodeId}
    {e : Ast NodeId} (hparts : ∀ b ∈ k.children, Becomes handled Q b (f b))
    (ih : ∀ b ∈ k.children, e ∈ region known handled (f b) → StatementOf handled Q b e)
    (he : e ∈ layerRegion known handled (.node i (k.map f))) :
    StatementOf handled Q (.node i k) e := by
  rw [Expansion.layerRegion, Ast.kind_node, isExpression_map] at he
  split at he
  · exact ⟨.node i k, f, .self, List.mem_singleton.1 he, hparts⟩
  · rw [Kind.children_map, List.flatMap_map, List.mem_flatMap] at he
    obtain ⟨b, hb, he⟩ := he
    exact (ih b hb he).inside hb

/-- The statements of a region are statements of the source. -/
theorem region (h : Becomes handled Q a₀ a) :
    ∀ e ∈ Expansion.region known handled a, StatementOf handled Q a₀ e := by
  induction h with
  | made _ hm _ =>
      intro e he
      rw [region_of_handled hm] at he
      exact absurd he List.not_mem_nil
  | layer f hparts ih =>
      intro e he
      rw [region_node] at he
      split at he
      · exact absurd he List.not_mem_nil
      · split at he
        · exact absurd he List.not_mem_nil
        · exact layerRegion hparts (fun b hb => ih b hb e) he

theorem bodyRegion (h : Becomes handled Q a₀ a) {e : Ast NodeId}
    (he : e ∈ Expansion.bodyRegion known handled a) : StatementOf handled Q a₀ e := by
  rw [Expansion.bodyRegion] at he
  split at he
  · exact absurd he List.not_mem_nil
  · next hhandled =>
      cases h with
      | made _ hm _ => exact absurd hm hhandled
      | layer f hparts => exact layerRegion hparts (fun b hb => (hparts b hb).region e) he

/-- A harmless expression is as in the source: there is no statement in it that could have been
replaced. -/
theorem eq_of_harmless (h : Becomes handled Q a₀ a) :
    a₀.wellSorted true = true → harmless known a = true → a = a₀ := by
  induction h with
  | @made a₀ m hx _ _ =>
      intro hsorted _
      cases a₀ with
      | node i k =>
          have hstatement := ((Ast.wellSorted_node true i k).1 hsorted).1 rfl
          obtain ⟨x, rfl⟩ := isExpression_iff.1 hx
          cases hstatement
  | @layer i k f _ ih =>
      intro hsorted hharmless
      obtain ⟨hstatement, hparts⟩ := (Ast.wellSorted_node true i k).1 hsorted
      -- An expression is no label, so it is harmless for having harmless parts.
      have hlabel : Purity.isKnownLabel known (k.map f) ≠ true := by
        rw [isKnownLabel_map]
        intro hl
        cases k with
        | labeled label body => cases hstatement rfl
        | _ => cases hl
      obtain ⟨hconstruct, hchildren⟩ := ((harmless_node i _).1 hharmless).resolve_left hlabel
      rw [Structural.construct?_map] at hconstruct
      have hsame : ∀ b ∈ k.children, f b = b := by
        intro b hb
        have hpart := hparts b hb
        rw [Purity.inside_of_construct? hconstruct] at hpart
        exact ih b hb hpart (hchildren _ (by rw [Kind.children_map]; exact List.mem_map.2 ⟨b, hb, rfl⟩))
      rw [Kind.map_congr hsame, Kind.map_id]

/-- The statements that a label expands are parts of the source, and log harmless expressions. -/
theorem statement_part (h : Becomes handled Q a₀ a) {b : Bool} (hsorted : a₀.wellSorted b = true)
    (hpure : Purity.violations known a = []) {e : Ast NodeId}
    (he : e ∈ Expansion.bodyRegion known handled a) :
    e.Part a₀ ∧ ∃ x : Ast NodeId, e.kind = .expression x ∧ x.wellSorted true = true ∧
      harmless known x = true := by
  obtain ⟨e₀, f, he₀, rfl, hparts⟩ := h.bodyRegion he
  obtain ⟨x, hx⟩ := (bodyRegion_part he).2
  have hharmless := bodyRegion_harmless hpure he hx
  cases e₀ with
  | node i k =>
      have hexpression : isExpression k = true := by
        rw [← isExpression_map f]
        exact isExpression_iff.2 ⟨x, hx⟩
      obtain ⟨x₀, rfl⟩ := isExpression_iff.1 hexpression
      obtain rfl : f x₀ = x := Kind.expression.inj hx
      have hxsorted := Ast.wellSorted_expression hsorted he₀ rfl
      have hsame : f x₀ = x₀ := (hparts x₀ (List.mem_singleton.2 rfl)).eq_of_harmless hxsorted hharmless
      refine ⟨?_, x₀, ?_, hxsorted, ?_⟩
      · rw [Ast.note_node, Ast.kind_node, Kind.map, hsame]
        exact he₀
      · rw [Ast.kind_node, Ast.kind_node, Kind.map, hsame]
      · rwa [hsame] at hharmless

/-! ## Expanded regions -/

section Expanding

variable {g : NodeId → Option (Ast NodeId)}

/-- Replacing the statements of a layer that is entered. -/
theorem substLayer {i : NodeId} {k : Kind (Ast NodeId)} {f : Ast NodeId → Ast NodeId}
    (hnodup : (Ast.node i (k.map f)).notes.Nodup)
    (hg : Replaces g (.node i (k.map f)) (Expansion.layerRegion known handled (.node i (k.map f))))
    (hmade : ∀ j m, g j = some m →
      m.note ∈ handled' ∧ (m.kind.isBlock = true → ∀ r ∈ m.kind.children, Q r))
    (ih : ∀ b ∈ k.children, (f b).notes.Nodup →
      Replaces g (f b) (Expansion.region known handled (f b)) →
      Becomes handled' Q b ((f b).subst g)) :
    Becomes handled' Q (.node i k) ((Ast.node i (k.map f)).subst g) := by
  rw [Ast.subst_node]
  -- An expression statement is replaced itself; any other layer stays, with replaced parts.
  cases hx : isExpression k with
  | true =>
      have hself : (g i).isSome := by
        refine (hg i (by simp)).2 ?_
        rw [Expansion.layerRegion, Ast.kind_node, isExpression_map, hx, if_pos rfl]
        exact List.mem_singleton.2 rfl
      obtain ⟨m, hm⟩ := Option.isSome_iff_exists.1 hself
      rw [hm, Option.getD_some]
      exact .made hx (hmade i m hm).1 (hmade i m hm).2
  | false =>
      rw [Expansion.layerRegion, Ast.kind_node, isExpression_map, hx, if_neg Bool.false_ne_true] at hg
      rw [hg.layer_eq_none hnodup, Option.getD_none, Kind.map_map]
      refine .layer _ fun b hb => ?_
      have hfb : f b ∈ (k.map f).children := by
        rw [Kind.children_map]
        exact List.mem_map.2 ⟨b, hb, rfl⟩
      exact ih b hb ((Ast.Part.of_mem (a := .node i (k.map f)) hfb).nodup hnodup) (hg.part hnodup hfb)

/-- Nothing is replaced in a program without statements to expand. -/
theorem subst_of_none (h : Becomes handled Q a₀ a) (hsub : handled ⊆ handled')
    (hg : Replaces g a []) : Becomes handled' Q a₀ (a.subst g) := by
  have hnone : ∀ i ∈ a.notes, g i = none := by
    intro i hi
    rw [← Option.not_isSome_iff_eq_none, hg i hi]
    exact List.not_mem_nil
  rw [Ast.subst_eq_self a hnone]
  exact h.mono hsub

/-- Replacing the statements of a region by made ones. -/
theorem subst (h : Becomes handled Q a₀ a) (hsub : handled ⊆ handled')
    (hmade : ∀ j m, g j = some m →
      m.note ∈ handled' ∧ (m.kind.isBlock = true → ∀ r ∈ m.kind.children, Q r)) :
    a.notes.Nodup → Replaces g a (Expansion.region known handled a) →
      Becomes handled' Q a₀ (a.subst g) := by
  induction h with
  | @made a₀ m hx hm hblock =>
      intro _ hg
      rw [region_of_handled hm] at hg
      exact (Becomes.made hx hm hblock).subst_of_none hsub hg
  | @layer i k f hparts ih =>
      intro hnodup hg
      rw [region_node] at hg
      split at hg
      · exact (Becomes.layer f hparts).subst_of_none hsub hg
      · split at hg
        · exact (Becomes.layer f hparts).subst_of_none hsub hg
        · exact substLayer hnodup hg hmade ih

/-- Replacing the statements in the body of a label by made ones. -/
theorem substBody (h : Becomes handled Q a₀ a) (hsub : handled ⊆ handled') (hnodup : a.notes.Nodup)
    (hg : Replaces g a (Expansion.bodyRegion known handled a))
    (hmade : ∀ j m, g j = some m →
      m.note ∈ handled' ∧ (m.kind.isBlock = true → ∀ r ∈ m.kind.children, Q r)) :
    Becomes handled' Q a₀ (a.subst g) := by
  rw [Expansion.bodyRegion] at hg
  split at hg
  · exact h.subst_of_none hsub hg
  · next hhandled =>
      cases h with
      | made _ hm _ => exact absurd hm hhandled
      | layer f hparts =>
          exact substLayer hnodup hg hmade fun b hb => (hparts b hb).subst hsub hmade

end Expanding

/-- What takes the place of a label: statements that were made, statements of a made block, and what
has become of the statements that the source has there. -/
theorem unwrapped (h : Becomes handled Q a₀ a) {r : Ast NodeId} (hr : r ∈ a.unwrapped) :
    r.note ∈ handled ∨ Q r ∨
      ∃ r₀ ∈ a₀.unwrapped, r.note = r₀.note ∧ Becomes handled Q r₀ r := by
  cases h with
  | @made _ m _ hm hblock =>
      unfold Ast.unwrapped at hr
      split at hr
      · next ss hk => exact Or.inr (Or.inl (hblock (by rw [hk]; rfl) r (by rw [hk]; exact hr)))
      · exact absurd hr List.not_mem_nil
      · obtain rfl := List.mem_singleton.1 hr
        exact Or.inl hm
  | @layer i k f hparts =>
      -- A statement of the old body either became a log statement, which is handled, or kept its node.
      have hpart : ∀ r₀ ∈ (Ast.node i k).unwrapped, Becomes handled Q r₀ r → r.note ∈ handled ∨ Q r ∨
          ∃ r₀ ∈ (Ast.node i k).unwrapped, r.note = r₀.note ∧ Becomes handled Q r₀ r := by
        intro r₀ hr₀ hbecomes
        rcases hbecomes.note_eq with hhandled | hnote
        · exact Or.inl hhandled
        · exact Or.inr (Or.inr ⟨r₀, hr₀, hnote, hbecomes⟩)
      cases k with
      | block ss =>
          obtain ⟨r₀, hr₀, rfl⟩ := List.mem_map.1 hr
          exact hpart r₀ hr₀ (hparts r₀ hr₀)
      | empty => exact absurd hr List.not_mem_nil
      | _ =>
          obtain rfl := List.mem_singleton.1 hr
          exact hpart _ (List.mem_singleton.2 rfl) (.layer f hparts)

end Becomes

end LogLabel.Expansion
