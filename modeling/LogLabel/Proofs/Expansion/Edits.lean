import LogLabel.Proofs.Expansion.Links

set_option autoImplicit false

/-!
# Edits of a visit

What a visit of a label leaves, whether the label is stripped or expanded, for the table of
the built-in labels. Their statements are new nodes, and each is an expression statement.

* `Expansion.Edited`: the programs that take the place of a label, the nodes they are made of,
  and the statements made in the visit (`Expansion.Visited.edited`).
* `Expansion.Visited.mem_program`: no node comes back into the program.
* `Expansion.exists_first_made`: when the body of an expanded label starts with an expression,
  a statement made in the visit stands first in its place.
-/

namespace LogLabel.Expansion

open Program (Ast Kind NodeId Span Tree)
open Program.Tree (Apart Leaves Spliced)

/-- A visit of the label `x` put `rs` in its place, which are made of its parts and of new nodes. -/
structure Edited (session session' : Session) (x : Ast NodeId) (rs : List (Ast NodeId)) : Prop where
  apart : Apart session.tree session'.tree x
  leaves : session.tree.Leaves session'.tree x rs
  spliced : session.tree.Spliced session'.tree x rs
  origin : ∀ i ∈ rs.flatMap Ast.notes, i ∈ x.inner ∨ session.tree.size ≤ i.index
  handled_subset : session.handled ⊆ session'.handled
  handled_origin : ∀ i ∈ session'.handled, i ∈ session.handled ∨ session.tree.size ≤ i.index

section Visits

variable {c : ExpansionContext} {session session' : Session} {a x : Ast NodeId}
  {ps rs : List (Ast NodeId)}

/-- What a built-in label makes of a statement is a new expression statement. -/
theorem Made.of_defaults {s : Synthesizer} {m : Metadata} {label : String} {e made : Ast NodeId}
    (htable : c.table = LabelTable.defaults) (hs : c.table.get? label = some s)
    (he : ∃ y, e.kind = .expression y) (hmade : Made c s m session.tree session'.tree e made) :
    session.tree.size ≤ made.note.index ∧ isExpression made.kind = true := by
  rw [htable] at hs
  obtain ⟨level, values, rfl⟩ := LabelTable.defaults_builtin.get? hs
  obtain ⟨y, hy⟩ := he
  obtain ⟨hnew, hspans⟩ := hmade.builtin hy
  refine ⟨hnew, ?_⟩
  have hkind := congrArg (fun a : Ast Span => isExpression a.kind) hspans
  rwa [Ast.kind_mapNotes, isExpression_map] at hkind

/-- A label of a log statement is edited when it is visited. -/
theorem Visited.edited (htable : c.table = LabelTable.defaults)
    (h : Visited c session x rs session') (hhandled : x.note ∉ session.handled)
    (hlabel : Purity.isKnownLabel c.known x.kind = true) : Edited session session' x rs := by
  cases h with
  | passed h => exact absurd h hhandled
  | entered _ h => rw [hlabel] at h; cases h
  | stripped _ hknown hstrip hsame hapart hleaves hspliced =>
      refine ⟨hapart, hleaves, hspliced, by simp, ?_, fun i hi => Or.inl ?_⟩
      · rw [hsame]
        exact List.Subset.refl _
      · rwa [hsame] at hi
  | @expanded p label body s pairs _ _ hs hstrip hpure hpairs hmade hnew hapart hplaced hleaves
      hspliced =>
      have hregion : ∀ pair ∈ pairs, pair.1 ∈ bodyRegion c.known session.handled body :=
        fun pair hpair => hpairs ▸ List.mem_map.2 ⟨pair, hpair, rfl⟩
      have hinner : body.notes ⊆ (Ast.node p (.labeled label body)).inner := fun i hi =>
        List.mem_flatMap.2 ⟨body, List.mem_singleton.2 rfl, hi⟩
      refine ⟨hapart, hleaves, hspliced, fun i hi => ?_, ?_, fun i hi => ?_⟩
      · obtain ⟨r, hr, hi⟩ := List.mem_flatMap.1 hi
        rcases Ast.mem_notes_subst body ((Ast.unwrapped_part hr).notes_subset hi) with
          hi | ⟨j, m, hm, hi⟩
        · exact Or.inl (hinner hi)
        · obtain ⟨pair, hpair, -, rfl⟩ := Ast.mem_of_replacement hm
          refine ((hmade pair hpair).origin i hi).imp_left fun hi => hinner ?_
          exact (bodyRegion_part (hregion pair hpair)).1.notes_subset (Ast.mem_notes_of_inner hi)
      · rw [hnew]
        exact List.subset_append_right _ _
      · rw [hnew, List.mem_append, List.mem_reverse, List.mem_map] at hi
        rcases hi with ⟨pair, hpair, rfl⟩ | hi
        · have hstatement := (bodyRegion_part (hregion pair hpair)).2
          exact Or.inr ((hmade pair hpair).of_defaults htable hs hstatement).1
        · exact Or.inl hi

/-- A visit brings no node of the source into the program. -/
theorem Visited.mem_program (htable : c.table = LabelTable.defaults)
    (htracks : Tracks session.tree (x :: ps) a) (hvisited : Visited c session x rs session')
    {i : NodeId} (hstored : i.index < session.tree.size) (hi : i ∈ session'.tree.program.notes) :
    i ∈ session.tree.program.notes := by
  have hnotes : x.notes ⊆ session.tree.program.notes := by
    rw [htracks.program_eq]
    exact (htracks.parts x List.mem_cons_self).notes_subset
  have hedited : Edited session session' x rs → i ∈ session.tree.program.notes := by
    intro hedited
    rcases hedited.leaves i hi with hi | ⟨hi, -⟩ | ⟨hge, -⟩
    · rcases hedited.origin i hi with hinner | hge
      · exact hnotes (Ast.mem_notes_of_inner hinner)
      · exact absurd hstored (Nat.not_lt.2 hge)
    · exact hi
    · exact absurd hstored (Nat.not_lt.2 hge)
  have hlabel := hvisited.edited htable
  cases hvisited with
  | passed hhandled => exact hi
  | entered hhandled hlabel => exact hi
  | stripped hhandled hknown => exact hedited (hlabel hhandled hknown)
  | expanded hhandled hs => exact hedited (hlabel hhandled (known_of_get? c hs))

/-! ## Bodies that start with an expression -/

/-- Whether the body of a label is an expression statement, or a block that starts with one. -/
def startsWithExpression {ι : Type} (body : Ast ι) : Bool :=
  match body.kind with
  | .expression _ => true
  | .block (first :: _) => isExpression first.kind
  | _ => false

/-- Expanding a label whose body starts with an expression puts a made statement first. -/
theorem exists_first_made {p : NodeId} {label : String} {body : Ast NodeId} {s : Synthesizer}
    {m : Metadata} {pairs : List (Ast NodeId × Ast NodeId)} (htable : c.table = LabelTable.defaults)
    (hs : c.table.get? label = some s) (hbody : (Ast.node p (.labeled label body)).Part a)
    (ht : session.tree.Rooted a) (hfresh : ∀ i ∈ body.notes, i ∉ session.handled)
    (hpairs : pairs.map Prod.fst = bodyRegion c.known session.handled body)
    (hmade : ∀ pair ∈ pairs, Made c s m session.tree session'.tree pair.1 pair.2)
    (hstart : startsWithExpression body = true) :
    ∃ pair ∈ pairs, ∃ more, (body.subst (Ast.replacement pairs)).unwrapped = pair.2 :: more := by
  have hnodup : body.notes.Nodup := (Ast.part_of_labeled hbody).nodup ht.nodup
  -- A statement of the region gives way to an expression statement.
  have hstatement : ∀ e ∈ bodyRegion c.known session.handled body, ∃ pair ∈ pairs,
      Ast.replacement pairs e.note = some pair.2 ∧ isExpression pair.2.kind = true := by
    intro e he
    have hsome : (Ast.replacement pairs e.note).isSome := by
      rw [Ast.replacement_isSome, hpairs]
      exact List.mem_map.2 ⟨e, he, rfl⟩
    obtain ⟨made, hmadeEq⟩ := Option.isSome_iff_exists.1 hsome
    obtain ⟨pair, hpair, -, rfl⟩ := Ast.mem_of_replacement hmadeEq
    have hregion : pair.1 ∈ bodyRegion c.known session.handled body :=
      hpairs ▸ List.mem_map.2 ⟨pair, hpair, rfl⟩
    exact ⟨pair, hpair, hmadeEq,
      ((hmade pair hpair).of_defaults htable hs (bodyRegion_part hregion).2).2⟩
  have hregion :
      bodyRegion c.known session.handled body = layerRegion c.known session.handled body :=
    if_neg (hfresh _ body.note_mem_notes)
  rw [hregion] at hpairs hstatement
  obtain ⟨b, k⟩ := body
  cases k with
  | expression y =>
      obtain ⟨pair, hpair, hreplacement, hexpression⟩ := hstatement _ (List.mem_singleton.2 rfl)
      refine ⟨pair, hpair, [], ?_⟩
      rw [Ast.note_node] at hreplacement
      rw [Ast.subst_node, hreplacement, Option.getD_some, unwrapped_of_isExpression hexpression]
  | block statements =>
      match statements, hstart with
      | e :: es, hstart =>
          have he : e ∈ region c.known session.handled e := by
            have hmem := Ast.notes_subset_of_mem (a := .node b (.block (e :: es)))
              List.mem_cons_self e.note_mem_notes
            rw [region_of_isExpression _ _ (hfresh e.note hmem) hstart]
            exact List.mem_singleton.2 rfl
          have hreplaces : Structural.Replaces (Ast.replacement pairs) (.node b (.block (e :: es)))
              ((e :: es).flatMap (region c.known session.handled)) := by
            intro i _
            rw [Ast.replacement_isSome, hpairs]
            rfl
          obtain ⟨pair, hpair, hreplacement, -⟩ := hstatement e
            (List.mem_flatMap.2 ⟨e, List.mem_cons_self, he⟩)
          refine ⟨pair, hpair, es.map (Ast.subst (Ast.replacement pairs)), ?_⟩
          obtain ⟨i, k⟩ := e
          rw [Ast.note_node] at hreplacement
          rw [Ast.subst_node, hreplaces.layer_eq_none hnodup, Option.getD_none]
          simp [Ast.unwrapped, Kind.map, Ast.subst_node, hreplacement]
  | _ => cases hstart

end Visits

end LogLabel.Expansion
