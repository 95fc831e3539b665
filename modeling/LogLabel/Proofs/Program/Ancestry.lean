import LogLabel.Proofs.Program.Planting
import LogLabel.Proofs.Program.Revision

set_option autoImplicit false

/-!
# Ancestors in a held program

Ancestors are found by walking outward along the stored parents. For a part of a program
that is held from the root on, the walk meets the parts that have it, so an edit of another
part does not change it.

* `Tree.Chain`: the walk outward from a node.
* `Tree.Rooted.chain`, `Tree.Rooted.exists_of_ancestor`, `Tree.Rooted.mem_ancestors`,
  `Tree.Rooted.ancestors_at`: the ancestors of a part are the parts that have it.
* `Tree.Apart t t' x`: on the way from `t` to `t'` nothing was changed outside of the program
  `x` but the parts of the layer that has it (`Tree.Revised.apart`). Then a part outside of
  `x` keeps its ancestors (`Tree.Apart.ancestors_eq`).
-/

namespace LogLabel.Program.Tree

/-! ## Walking outward -/

/-- The nodes that are met from a node outward. -/
inductive Chain (t : Tree) : NodeId → List NodeId → Prop
  | root {i : NodeId} (h : t.parent i = none) : Chain t i []
  | step {i p : NodeId} {l : List NodeId} (h : t.parent i = some p) (hp : p.index < t.size)
      (hl : Chain t p l) : Chain t i (p :: l)

namespace Chain

variable {t t' : Tree} {i : NodeId} {l l' : List NodeId}

theorem stored (h : Chain t i l) : ∀ j ∈ l, j.index < t.size := by
  induction h with
  | root _ => simp
  | step _ hp _ ih => simpa [hp] using ih

theorem outward_eq (h : Chain t i l) :
    ∀ fuel, l.length ≤ fuel → t.outward fuel (t.parent i) = l := by
  induction h with
  | root h =>
      intro fuel _
      rw [h]
      cases fuel <;> rfl
  | step h _ _ ih =>
      intro fuel hfuel
      cases fuel with
      | zero => simp at hfuel
      | succ fuel =>
          rw [h, outward, ih fuel (by simpa using hfuel)]

theorem congr (h : Chain t i l) (hsize : t.size ≤ t'.size)
    (hparent : ∀ j ∈ i :: l, t'.parent j = t.parent j) : Chain t' i l := by
  induction h with
  | root h => exact .root ((hparent _ List.mem_cons_self).trans h)
  | step h hp _ ih =>
      refine .step ((hparent _ List.mem_cons_self).trans h) (Nat.lt_of_lt_of_le hp hsize) (ih ?_)
      exact fun j hj => hparent j (List.mem_cons_of_mem _ hj)

theorem unique (h : Chain t i l) : ∀ {l' : List NodeId}, Chain t i l' → l = l' := by
  induction h with
  | root h =>
      intro l' h'
      cases h' with
      | root _ => rfl
      | step hp _ _ => rw [h] at hp; cases hp
  | step h _ _ ih =>
      intro l' h'
      cases h' with
      | root hnone => rw [h] at hnone; cases hnone
      | step hp _ hl =>
          obtain rfl := Option.some.inj (h.symm.trans hp)
          rw [ih hl]

theorem ancestors_eq (h : Chain t i l) (hnodup : l.Nodup) : t.ancestors i = l := by
  rw [ancestors, h.outward_eq _ (length_le_of_stored hnodup h.stored)]

end Chain

/-! ## Parts and their ancestors -/

section Parts

variable {t t' : Tree} {a b c x y : Ast NodeId}

/-- The walk outward from a part of a held program: first the parts that have it, then the nodes around
the program. -/
theorem Held.chain_of_part (hb : b.Part a) :
    t.Held a → ∀ l : List NodeId, Chain t a.note l → l.Nodup → (∀ i ∈ l, i ∉ a.notes) →
      ∃ l' : List NodeId, Chain t b.note (l' ++ l) ∧ (l' ++ l).Nodup ∧
        ∀ j ∈ l', ∃ d : Ast NodeId, d.Part a ∧ d.note = j ∧ ∃ e ∈ d.kind.children, b.Part e := by
  induction hb with
  | self => exact fun _ l hl hnodup _ => ⟨[], hl, hnodup, by simp⟩
  | @inside a c hc hbc ih =>
      intro h l hl hnodup hout
      have hca := Ast.notes_subset_of_mem hc
      obtain ⟨l', hchain, hnodup', hparts⟩ := ih (h.part hc) (a.note :: l)
        (.step (h.holds.parent_eq hc) h.holds.note_stored hl)
        (List.nodup_cons.2 ⟨fun hmem => hout _ hmem a.note_mem_notes, hnodup⟩) (by
          intro i hi
          rcases List.mem_cons.1 hi with rfl | hi
          · exact fun hmem => h.note_not_mem_inner (List.mem_flatMap.2 ⟨c, hc, hmem⟩)
          · exact fun hmem => hout i hi (hca hmem))
      refine ⟨l' ++ [a.note], by simpa using hchain, by simpa using hnodup', fun j hj => ?_⟩
      rcases List.mem_append.1 hj with hj | hj
      · obtain ⟨d, hd, hnote, hbelow⟩ := hparts j hj
        exact ⟨d, .inside hc hd, hnote, hbelow⟩
      · exact ⟨a, .self, (List.mem_singleton.1 hj).symm, c, hc, hbc⟩

theorem Rooted.exists_chain (h : t.Rooted a) (hx : x.Part a) :
    Chain t x.note (t.ancestors x.note) ∧ (t.ancestors x.note).Nodup ∧
      ∀ j ∈ t.ancestors x.note, ∃ d : Ast NodeId, d.Part a ∧ d.note = j ∧
        ∃ e ∈ d.kind.children, x.Part e := by
  have hroot : Chain t a.note [] := .root (by rw [h.root_eq, h.root_parent])
  obtain ⟨l, hchain, hnodup, hparts⟩ := h.toHeld.chain_of_part hx [] hroot List.nodup_nil (by simp)
  rw [List.append_nil] at hchain hnodup
  rw [hchain.ancestors_eq hnodup]
  exact ⟨hchain, hnodup, hparts⟩

theorem Rooted.chain (h : t.Rooted a) (hx : x.Part a) : Chain t x.note (t.ancestors x.note) :=
  (h.exists_chain hx).1

/-- An ancestor of a part is a part that has it. -/
theorem Rooted.exists_of_ancestor (h : t.Rooted a) (hx : x.Part a) {j : NodeId}
    (hj : j ∈ t.ancestors x.note) :
    ∃ d : Ast NodeId, d.Part a ∧ d.note = j ∧ ∃ e ∈ d.kind.children, x.Part e :=
  (h.exists_chain hx).2.2 j hj

/-- A program that does not have a part has none of its ancestors. -/
theorem Rooted.ancestor_not_mem (h : t.Rooted a) (hx : x.Part a) (hy : y.Part a)
    (hxy : x.note ∉ y.notes) : ∀ j ∈ x.note :: t.ancestors x.note, j ∉ y.notes := by
  intro j hj hmem
  rcases List.mem_cons.1 hj with rfl | hj
  · exact hxy hmem
  · obtain ⟨d, hd, rfl, e, he, hxe⟩ := h.exists_of_ancestor hx hj
    obtain ⟨b, hb, hbd⟩ := Ast.Part.exists_of_mem hmem
    obtain rfl : b = d := h.toHeld.part_unique (hb.trans hy) hd hbd
    have hxy' : x.Part y := (Ast.Part.inside he hxe).trans hb
    exact hxy (hxy'.notes_subset x.note_mem_notes)

/-- A program has none of its own ancestors. -/
theorem Rooted.ancestor_not_mem_self (h : t.Rooted a) (hx : x.Part a) :
    ∀ j ∈ t.ancestors x.note, j ∉ x.notes := by
  intro j hj hmem
  obtain ⟨d, hd, rfl, e, he, hxe⟩ := h.exists_of_ancestor hx hj
  obtain ⟨b, hb, hbd⟩ := Ast.Part.exists_of_mem hmem
  obtain rfl : b = d := h.toHeld.part_unique (hb.trans hx) hd hbd
  refine (h.toHeld.of_part hd).note_not_mem_inner (List.mem_flatMap.2 ⟨e, he, ?_⟩)
  exact (hb.trans hxe).notes_subset b.note_mem_notes

theorem Rooted.ancestors_part (h : t.Rooted a) (hx : x.Part a) (hc : c ∈ x.kind.children) :
    t.ancestors c.note = x.note :: t.ancestors x.note := by
  have hxheld := h.toHeld.of_part hx
  have hstep : Chain t c.note (x.note :: t.ancestors x.note) :=
    .step (hxheld.holds.parent_eq hc) hxheld.holds.note_stored (h.chain hx)
  exact (h.chain ((Ast.Part.of_mem hc).trans hx)).unique hstep

/-- The parent of a part is the part that has it. -/
theorem Rooted.exists_of_parent (h : t.Rooted a) (hx : x.Part a) {p : NodeId}
    (hp : t.parent x.note = some p) :
    ∃ k : Kind (Ast NodeId), (Ast.node p k).Part a ∧ x ∈ k.children := by
  have hne : x ≠ a := by
    rintro rfl
    rw [h.root_eq, h.root_parent] at hp
    cases hp
  obtain ⟨q, k, hq, hxk⟩ := hx.eq_or_parent.resolve_left hne
  have hparent : t.parent x.note = some q := (h.toHeld.of_part hq).holds.parent_eq hxk
  obtain rfl := Option.some.inj (hparent.symm.trans hp)
  exact ⟨k, hq, hxk⟩

theorem Rooted.ancestors_of_parent (h : t.Rooted a) (hx : x.Part a) {p : NodeId}
    (hp : t.parent x.note = some p) : t.ancestors x.note = p :: t.ancestors p := by
  obtain ⟨k, hk, hxk⟩ := h.exists_of_parent hx hp
  exact h.ancestors_part hk hxk

/-- The ancestors of a part of a part: the nodes around it there, then those around the outer part. -/
theorem Rooted.ancestors_at (h : t.Rooted a) {bs : List (Ast NodeId)} (hx : x.At y bs)
    (hy : y.Part a) : t.ancestors x.note = bs.map Ast.note ++ t.ancestors y.note := by
  induction hx with
  | here => rfl
  | inside hc _ ih =>
      rw [ih ((Ast.Part.of_mem hc).trans hy), h.ancestors_part hy hc, List.map_append,
        List.append_assoc]
      rfl

/-- The ancestors of a part go on with those of any part that has it. -/
theorem Rooted.suffix_of_part (h : t.Rooted a) (hy : y.Part a) (hc : c ∈ y.kind.children)
    (hx : x.Part c) : y.note :: t.ancestors y.note <:+ t.ancestors x.note := by
  obtain ⟨bs, hbs⟩ := hx.exists_at
  rw [h.ancestors_at hbs ((Ast.Part.of_mem hc).trans hy), h.ancestors_part hy hc]
  exact List.suffix_append _ _

theorem Rooted.suffix_of_ancestor (h : t.Rooted a) (hx : x.Part a) {j : NodeId}
    (hj : j ∈ t.ancestors x.note) : j :: t.ancestors j <:+ t.ancestors x.note := by
  obtain ⟨d, hd, rfl, c, hc, hxc⟩ := h.exists_of_ancestor hx hj
  exact h.suffix_of_part hd hc hxc

/-- A part that stands in another one has it among its ancestors. -/
theorem Rooted.mem_ancestors (h : t.Rooted a) (hx : x.Part a) (hy : y.Part a)
    (hmem : x.note ∈ y.notes) (hne : y.note ≠ x.note) : y.note ∈ t.ancestors x.note := by
  obtain ⟨d, hd, hnote⟩ := Ast.Part.exists_of_mem hmem
  obtain rfl : d = x := h.toHeld.part_unique (hd.trans hy) hx hnote
  cases hd with
  | self => exact absurd rfl hne
  | inside hc hxc => exact (h.suffix_of_part hy hc hxc).subset List.mem_cons_self

/-! ## Edits elsewhere -/

/-- On the way from `t` to `t'` the nodes outside of the program `x` have kept their parents, and their
kinds apart from the parts. -/
structure Apart (t t' : Tree) (x : Ast NodeId) : Prop extends Grows t t' where
  parent_eq : ∀ i : NodeId, i.index < t.size → i ∉ x.notes → t'.parent i = t.parent i
  outline_eq : ∀ i : NodeId, i.index < t.size → i ∉ x.notes →
    (t'.kind i).outline = (t.kind i).outline

/-- A part outside of the edited program keeps its ancestors. -/
theorem Apart.ancestors_eq (h : Apart t t' y) (ht : t.Rooted a) (hx : x.Part a) (hy : y.Part a)
    (hxy : x.note ∉ y.notes) : t'.ancestors x.note = t.ancestors x.note := by
  obtain ⟨hchain, hnodup, -⟩ := ht.exists_chain hx
  have hout := ht.ancestor_not_mem hx hy hxy
  refine Chain.ancestors_eq (hchain.congr h.size_le fun j hj => h.parent_eq j ?_ (hout j hj)) hnodup
  rcases List.mem_cons.1 hj with rfl | hj
  · exact (ht.toHeld.of_part hx).holds.note_stored
  · exact hchain.stored j hj

/-- Nodes of a program that both trees hold, below the same parent, are the same in both. -/
theorem Held.same_nodes {d : Ast NodeId} (h : t.Held d) (h' : t'.Held d)
    (htop : t'.parent d.note = t.parent d.note) {i : NodeId} (hi : i ∈ d.notes) :
    t'.kind i = t.kind i ∧ t'.parent i = t.parent i := by
  obtain ⟨b, hb, rfl⟩ := Ast.Part.exists_of_mem hi
  refine ⟨by rw [(h'.of_part hb).holds.kind_eq, (h.of_part hb).holds.kind_eq], ?_⟩
  rcases hb.eq_or_parent with rfl | ⟨q, k, hq, hbk⟩
  · exact htop
  · have hparent : t.parent b.note = some q := (h.of_part hq).holds.parent_eq hbk
    have hparent' : t'.parent b.note = some q := (h'.of_part hq).holds.parent_eq hbk
    rw [hparent, hparent']

/-- Revising a layer by putting programs in the place of one of its parts leaves all nodes as they are
but the layer and those of the part. -/
theorem Revised.same_of_ne {q : NodeId} {k k' : Kind (Ast NodeId)}
    {before stand after : List (Ast NodeId)} (hr : Revised t t' (.node q k) (.node q k'))
    (h : t.Held (.node q k)) (hk : k.children = before ++ x :: after)
    (hk' : k'.children = before ++ stand ++ after) {i : NodeId} (hi : i.index < t.size)
    (hx : i ∉ x.notes) (hq : i ≠ q) : t'.kind i = t.kind i ∧ t'.parent i = t.parent i := by
  by_cases hmem : i ∈ (Ast.node q k).notes
  · -- The node is in a sibling of the part, which both trees hold in the same layer.
    rw [Ast.notes_node, List.mem_cons, hk, List.mem_flatMap] at hmem
    obtain ⟨d, hd, hid⟩ := hmem.resolve_left hq
    have hdx : d ∈ before ∨ d ∈ after := by
      rcases List.mem_append.1 hd with hd | hd
      · exact Or.inl hd
      · rcases List.mem_cons.1 hd with rfl | hd
        · exact absurd hid hx
        · exact Or.inr hd
    have hdk : d ∈ k.children := by
      rw [hk]
      exact hd
    have hdk' : d ∈ k'.children := by
      rw [hk']
      rcases hdx with hd | hd <;> simp [hd]
    have htop : t'.parent d.note = t.parent d.note := by
      rw [hr.held.holds.parent_eq hdk', h.holds.parent_eq hdk]
      rfl
    exact (h.part hdk).same_nodes (hr.held.part hdk') htop hid
  · exact hr.frame i hi hmem

/-- Revising a layer by putting programs in the place of one of its parts is an edit of that part. -/
theorem Revised.apart {q : NodeId} {k k' : Kind (Ast NodeId)} {before stand after : List (Ast NodeId)}
    (hr : Revised t t' (.node q k) (.node q k')) (h : t.Held (.node q k))
    (hk : k.children = before ++ x :: after) (hk' : k'.children = before ++ stand ++ after) :
    Apart t t' x := by
  refine ⟨hr.toGrows, fun i hi hx => ?_, fun i hi hx => ?_⟩
  · by_cases hq : i = q
    · subst hq
      exact hr.top
    · exact (hr.same_of_ne h hk hk' hi hx hq).2
  · by_cases hq : i = q
    · subst hq
      have hkind : t.kind i = k.map Ast.note := h.holds.kind_eq
      have hkind' : t'.kind i = k'.map Ast.note := hr.held.holds.kind_eq
      rw [hkind, hkind', Kind.outline_map, Kind.outline_map]
      exact hr.outline_eq
    · rw [(hr.same_of_ne h hk hk' hi hx hq).1]

end Parts

end LogLabel.Program.Tree
