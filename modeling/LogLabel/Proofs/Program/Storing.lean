import LogLabel.Proofs.Program.Arena

set_option autoImplicit false

/-!
# Storing nodes over others

New nodes are stored bottom up. Their parts are new nodes too, or nodes that were in the
arena before and are moved.

* `Tree.Extends moved t t'`: on the way from `t` to `t'` nodes were stored. Nothing that was
  in `t` has changed but the parents of the nodes `moved`.
* `Tree.Stored t t' bound as xs`: on the way from `t` to `t'` the programs `as` were stored.
  They share no address, and consist of new nodes and of the programs `bound` of `t`;
  without their addresses they are `xs`.
* `Tree.Stored.append` and `Tree.Stored.layer` are the two ways to go on.
-/

namespace LogLabel.Program.Tree

theorem Grows.mapNotes_span {t t' : Tree} (h : Grows t t') {a : Ast NodeId} (ha : t.Holds a) :
    a.mapNotes t'.span = a.mapNotes t.span :=
  a.mapNotes_congr fun i hi => h.span_eq i (ha.stored i hi)

/-- `t'` arises from `t` by storing nodes: of the nodes of `t` only those in `moved` may have got
another parent. -/
structure Extends (moved : List NodeId) (t t' : Tree) : Prop extends Grows t t' where
  kind_eq : ∀ i : NodeId, i.index < t.size → t'.kind i = t.kind i
  parent_eq : ∀ i : NodeId, i.index < t.size → i ∉ moved → t'.parent i = t.parent i

namespace Extends

variable {t t' t'' : Tree} {moved moved' : List NodeId}

theorem refl (moved : List NodeId) (t : Tree) : Extends moved t t :=
  ⟨Grows.refl t, fun _ _ => rfl, fun _ _ _ => rfl⟩

theorem trans (h : Extends moved t t') (h' : Extends moved' t' t'')
    (hmoved : ∀ i ∈ moved', i.index < t.size → i ∈ moved) : Extends moved t t'' where
  toGrows := h.toGrows.trans h'.toGrows
  kind_eq := fun i hi =>
    (h'.kind_eq i (Nat.lt_of_lt_of_le hi h.size_le)).trans (h.kind_eq i hi)
  parent_eq := fun i hi hne =>
    (h'.parent_eq i (Nat.lt_of_lt_of_le hi h.size_le) fun hmem => hne (hmoved i hmem hi)).trans
      (h.parent_eq i hi hne)

theorem mono (h : Extends moved t t') (hsub : moved ⊆ moved') : Extends moved' t t' :=
  ⟨h.toGrows, h.kind_eq, fun i hi hne => h.parent_eq i hi fun hmem => hne (hsub hmem)⟩

/-- A program stays held when none of its proper parts is moved. -/
theorem holds (h : Extends moved t t') {a : Ast NodeId} (ha : t.Holds a)
    (hinner : ∀ i ∈ a.inner, i ∉ moved) : t'.Holds a :=
  ha.congr h.size_le (fun i hi => h.kind_eq i (ha.stored i hi)) fun i hi =>
    h.parent_eq i (ha.stored i (Ast.mem_notes_of_inner hi)) (hinner i hi)

/-- Storing a node moves its parts. -/
theorem alloc (t : Tree) (k : Kind NodeId) (s : Span) : Extends k.children t (t.alloc k s).2 := by
  have hold : ∀ i : NodeId, i.index < t.size → i ≠ ⟨t.size⟩ := by
    rintro i hi rfl
    exact Nat.lt_irrefl _ hi
  refine ⟨Grows.alloc t k s, fun i hi => ?_, fun i hi hne => ?_⟩
  · rw [kind_alloc, if_neg (hold i hi)]
  · rw [parent_alloc, if_neg (hold i hi), if_neg fun hmem => hne hmem.1]

end Extends

/-- On the way from `t` to `t'` the programs `as` were stored. They share no address and consist of
new nodes and of the programs `bound` of `t`; without their addresses they are `xs`. -/
structure Stored (t t' : Tree) (bound as : List (Ast NodeId)) (xs : List (Ast Span)) : Prop where
  growth : Extends (bound.map Ast.note) t t'
  holds : ∀ a ∈ as, t'.Holds a
  nodup : (as.flatMap Ast.notes).Nodup
  origin : ∀ i ∈ as.flatMap Ast.notes, t.size ≤ i.index ∨ i ∈ bound.flatMap Ast.notes
  tops : ∀ a ∈ as, a.note.index < t.size → a.note ∈ bound.map Ast.note
  spans : as.map (Ast.mapNotes t'.span) = xs

namespace Stored

variable {t t' t'' : Tree} {bound bound' as bs : List (Ast NodeId)} {xs ys : List (Ast Span)}

theorem nil (t : Tree) : Stored t t [] [] [] :=
  ⟨.refl _ t, by simp, by simp, by simp, by simp, rfl⟩

/-- Programs of the tree itself. -/
theorem self (h : ∀ a ∈ as, t.Holds a) (hnodup : (as.flatMap Ast.notes).Nodup) :
    Stored t t as as (as.map (Ast.mapNotes t.span)) :=
  ⟨.refl _ t, h, hnodup, fun _ hi => Or.inr hi, fun a ha _ => List.mem_map.2 ⟨a, ha, rfl⟩, rfl⟩

/-- The stored programs in another order. -/
theorem perm (h : Stored t t' bound as xs) (hbs : bs.Perm as) :
    Stored t t' bound bs (bs.map (Ast.mapNotes t'.span)) where
  growth := h.growth
  holds := fun a ha => h.holds a (hbs.mem_iff.1 ha)
  nodup := (hbs.flatMap_right Ast.notes).nodup_iff.2 h.nodup
  origin := fun i hi => h.origin i ((hbs.flatMap_right Ast.notes).mem_iff.1 hi)
  tops := fun a ha => h.tops a (hbs.mem_iff.1 ha)
  spans := rfl

/-- One storing after another. What is bound is in the first tree and is bound once. -/
theorem append (h : Stored t t' bound as xs) (h' : Stored t' t'' bound' bs ys)
    (hbound : ∀ b ∈ bound', t.Holds b)
    (hdisjoint : ∀ i ∈ bound.flatMap Ast.notes, i ∉ bound'.flatMap Ast.notes) :
    Stored t t'' (bound ++ bound') (as ++ bs) (xs ++ ys) := by
  have hold : ∀ i ∈ bound'.flatMap Ast.notes, i.index < t.size := by
    intro i hi
    obtain ⟨b, hb, hi⟩ := List.mem_flatMap.1 hi
    exact (hbound b hb).stored i hi
  have htop : ∀ i ∈ bound'.map Ast.note, i ∈ bound'.flatMap Ast.notes := by
    intro i hi
    obtain ⟨b, hb, rfl⟩ := List.mem_map.1 hi
    exact List.mem_flatMap.2 ⟨b, hb, b.note_mem_notes⟩
  -- What was stored first has no address of what is bound later.
  have hapart : ∀ i ∈ as.flatMap Ast.notes, i ∉ bound'.flatMap Ast.notes := by
    intro i hi hi'
    rcases h.origin i hi with hge | hmem
    · exact Nat.not_lt.2 hge (hold i hi')
    · exact hdisjoint i hmem hi'
  have hmem : ∀ a ∈ as, ∀ i ∈ a.notes, i ∈ as.flatMap Ast.notes := fun a ha i hi =>
    List.mem_flatMap.2 ⟨a, ha, hi⟩
  refine ⟨?_, ?_, ?_, ?_, ?_, ?_⟩
  · rw [List.map_append]
    refine (h.growth.mono (List.subset_append_left _ _)).trans h'.growth fun i hi _ => ?_
    exact List.mem_append_right _ hi
  · intro a ha
    rcases List.mem_append.1 ha with ha | ha
    · refine h'.growth.holds (h.holds a ha) fun i hi hi' => ?_
      exact hapart i (hmem a ha i (Ast.mem_notes_of_inner hi)) (htop i hi')
    · exact h'.holds a ha
  · rw [List.flatMap_append, List.nodup_append]
    refine ⟨h.nodup, h'.nodup, ?_⟩
    rintro i hi _ hj rfl
    rcases h'.origin i hj with hge | hj
    · obtain ⟨a, ha, hia⟩ := List.mem_flatMap.1 hi
      exact Nat.not_lt.2 hge ((h.holds a ha).stored i hia)
    · exact hapart i hi hj
  · intro i hi
    rw [List.flatMap_append, List.mem_append] at hi ⊢
    rcases hi with hi | hi
    · exact (h.origin i hi).imp_right Or.inl
    · exact (h'.origin i hi).imp (Nat.le_trans h.growth.size_le) Or.inr
  · intro a ha hlt
    rw [List.map_append, List.mem_append]
    rcases List.mem_append.1 ha with ha | ha
    · exact Or.inl (h.tops a ha hlt)
    · exact Or.inr (h'.tops a ha (Nat.lt_of_lt_of_le hlt h.growth.size_le))
  · have hspans : as.map (Ast.mapNotes t''.span) = as.map (Ast.mapNotes t'.span) :=
      List.map_congr_left fun a ha => h'.growth.mapNotes_span (h.holds a ha)
    rw [List.map_append, hspans, h.spans, h'.spans]

/-- A storing of new nodes after another storing. -/
theorem append_new (h : Stored t t' bound as xs) (h' : Stored t' t'' [] bs ys) :
    Stored t t'' bound (as ++ bs) (xs ++ ys) := by
  simpa using h.append h' (by simp) (by simp)

theorem fresh (h : Stored t t' [] as xs) : ∀ i ∈ as.flatMap Ast.notes, t.size ≤ i.index := by
  intro i hi
  exact (h.origin i hi).resolve_right (by simp)

theorem left (h : Stored t t' bound (as ++ bs) xs) :
    Stored t t' bound as (as.map (Ast.mapNotes t'.span)) where
  growth := h.growth
  holds := fun a ha => h.holds a (List.mem_append_left _ ha)
  nodup := by
    have hnodup := h.nodup
    rw [List.flatMap_append, List.nodup_append] at hnodup
    exact hnodup.1
  origin := by
    intro i hi
    refine h.origin i ?_
    rw [List.flatMap_append]
    exact List.mem_append_left _ hi
  tops := fun a ha => h.tops a (List.mem_append_left _ ha)
  spans := rfl

/-- A storing after one of new nodes only, some of which it binds. -/
theorem rebase (h : Stored t' t'' bound' as xs) (hext : Extends [] t t')
    (hbound : ∀ b ∈ bound', b ∈ bound ∨ ∀ i ∈ b.notes, t.size ≤ i.index) :
    Stored t t'' bound as xs where
  growth := by
    refine ⟨hext.toGrows.trans h.growth.toGrows, fun i hi => ?_, fun i hi hne => ?_⟩
    · exact (h.growth.kind_eq i (Nat.lt_of_lt_of_le hi hext.size_le)).trans (hext.kind_eq i hi)
    · have hne' : i ∉ bound'.map Ast.note := by
        intro hmem
        obtain ⟨b, hb, rfl⟩ := List.mem_map.1 hmem
        rcases hbound b hb with hb | hb
        · exact hne (List.mem_map.2 ⟨b, hb, rfl⟩)
        · exact Nat.not_lt.2 (hb _ b.note_mem_notes) hi
      exact (h.growth.parent_eq i (Nat.lt_of_lt_of_le hi hext.size_le) hne').trans
        (hext.parent_eq i hi (by simp))
  holds := h.holds
  nodup := h.nodup
  origin := by
    intro i hi
    rcases h.origin i hi with hge | hmem
    · exact Or.inl (Nat.le_trans hext.size_le hge)
    · obtain ⟨b, hb, hi⟩ := List.mem_flatMap.1 hmem
      rcases hbound b hb with hb | hb
      · exact Or.inr (List.mem_flatMap.2 ⟨b, hb, hi⟩)
      · exact Or.inl (hb i hi)
  tops := by
    intro a ha hlt
    obtain ⟨b, hb, he⟩ := List.mem_map.1 (h.tops a ha (Nat.lt_of_lt_of_le hlt hext.size_le))
    rcases hbound b hb with hb | hb
    · exact List.mem_map.2 ⟨b, hb, he⟩
    · exact absurd hlt (Nat.not_lt.2 (he ▸ hb _ b.note_mem_notes))
  spans := h.spans

/-- Storing a layer whose parts stand side by side among the stored programs. -/
theorem layer {k : Kind (Ast NodeId)} (s : Span)
    (h : Stored t t' bound (as ++ k.children ++ bs) xs) :
    Stored t (t'.alloc (k.map Ast.note) s).2 bound (as ++ [.node ⟨t'.size⟩ k] ++ bs)
      (as.map (Ast.mapNotes t'.span) ++ [.node s (k.map (Ast.mapNotes t'.span))]
        ++ bs.map (Ast.mapNotes t'.span)) := by
  have hnodup := h.nodup
  simp only [List.flatMap_append, List.nodup_append, List.mem_append] at hnodup
  obtain ⟨⟨has, hk, hask⟩, hbs, hrest⟩ := hnodup
  have hparts : ∀ c ∈ k.children, t'.Holds c := fun c hc => h.holds c (by simp [hc])
  have hheld : (t'.alloc (k.map Ast.note) s).2.Held (.node ⟨t'.size⟩ k) := held_alloc hparts hk
  have hgrowth := Extends.alloc t' (k.map Ast.note) s
  rw [Kind.children_map] at hgrowth
  have hchildren : ∀ i ∈ k.children.map Ast.note, i ∈ k.children.flatMap Ast.notes := by
    intro i hi
    obtain ⟨c, hc, rfl⟩ := List.mem_map.1 hi
    exact List.mem_flatMap.2 ⟨c, hc, c.note_mem_notes⟩
  have hmem : ∀ a ∈ as ++ bs, a ∈ as ++ k.children ++ bs := by
    intro a ha
    rcases List.mem_append.1 ha with ha | ha <;> simp [ha]
  -- The other stored programs share no address with the parts of the new layer.
  have hholds : ∀ a ∈ as ++ bs, (t'.alloc (k.map Ast.note) s).2.Holds a := by
    intro a ha
    refine hgrowth.holds (h.holds a (hmem a ha)) fun i hi hi' => ?_
    have hnotes := Ast.mem_notes_of_inner hi
    rcases List.mem_append.1 ha with ha | ha
    · exact hask i (List.mem_flatMap.2 ⟨a, ha, hnotes⟩) i (hchildren i hi') rfl
    · exact hrest i (Or.inr (hchildren i hi')) i (List.mem_flatMap.2 ⟨a, ha, hnotes⟩) rfl
  have hspans : ∀ l : List (Ast NodeId), (∀ a ∈ l, t'.Holds a) →
      l.map (Ast.mapNotes (t'.alloc (k.map Ast.note) s).2.span) = l.map (Ast.mapNotes t'.span) :=
    fun l hl => List.map_congr_left fun a ha => hgrowth.mapNotes_span (hl a ha)
  refine ⟨h.growth.trans hgrowth ?_, ?_, ?_, ?_, ?_, ?_⟩
  · intro i hi hlt
    obtain ⟨c, hc, rfl⟩ := List.mem_map.1 hi
    exact h.tops c (by simp [hc]) hlt
  · intro a ha
    simp only [List.mem_append, List.mem_singleton] at ha
    rcases ha with (ha | rfl) | ha
    · exact hholds a (List.mem_append_left _ ha)
    · exact hheld.holds
    · exact hholds a (List.mem_append_right _ ha)
  · have hnew : ∀ l : List (Ast NodeId), (∀ a ∈ l, t'.Holds a) →
        (⟨t'.size⟩ : NodeId) ∉ l.flatMap Ast.notes := by
      intro l hl hmem
      obtain ⟨a, ha, hi⟩ := List.mem_flatMap.1 hmem
      exact Nat.lt_irrefl _ ((hl a ha).stored _ hi)
    simp only [List.flatMap_append, List.flatMap_singleton, Ast.notes_node]
    have hnewAs := hnew as fun a ha => h.holds a (by simp [ha])
    have hnewBs := hnew bs fun a ha => h.holds a (by simp [ha])
    have hnewK := hnew k.children hparts
    simp only [List.nodup_append, List.nodup_cons, List.mem_append, List.mem_cons]
    refine ⟨⟨has, ⟨hnewK, hk⟩, ?_⟩, hbs, ?_⟩
    · rintro i hi j (rfl | hj) rfl
      · exact hnewAs hi
      · exact hask i hi i hj rfl
    · rintro i (hi | rfl | hi) j hj rfl
      · exact hrest i (Or.inl hi) i hj rfl
      · exact hnewBs hj
      · exact hrest i (Or.inr hi) i hj rfl
  · intro i hi
    simp only [List.flatMap_append, List.flatMap_singleton, Ast.notes_node, List.mem_append,
      List.mem_cons] at hi
    rcases hi with (hi | rfl | hi) | hi
    · exact h.origin i (by simp [List.flatMap_append, hi])
    · exact Or.inl h.growth.size_le
    · exact h.origin i (by simp [List.flatMap_append, hi])
    · exact h.origin i (by simp [List.flatMap_append, hi])
  · intro a ha hlt
    simp only [List.mem_append, List.mem_singleton] at ha
    rcases ha with (ha | rfl) | ha
    · exact h.tops a (by simp [ha]) hlt
    · exact absurd hlt (Nat.not_lt.2 h.growth.size_le)
    · exact h.tops a (by simp [ha]) hlt
  · simp only [List.map_append, List.map_cons, List.map_nil, Ast.mapNotes_node]
    rw [hspans as fun a ha => h.holds a (by simp [ha]),
      hspans bs fun a ha => h.holds a (by simp [ha]), span_alloc, if_pos rfl,
      Kind.map_congr fun c hc => hgrowth.mapNotes_span (hparts c hc)]

/-- Storing a layer over all the stored programs. -/
theorem covered {k : Kind (Ast NodeId)} (s : Span) (h : Stored t t' bound k.children xs) :
    Stored t (t'.alloc (k.map Ast.note) s).2 bound [.node ⟨t'.size⟩ k]
      [.node s (k.map (Ast.mapNotes t'.span))] := by
  have hlayer : Stored t _ bound ([] ++ [.node ⟨t'.size⟩ k] ++ []) _ :=
    Stored.layer s (by simpa using h)
  simpa using hlayer

/-- Storing a layer of a given shape over all the stored programs. -/
theorem fill {σ : Type} {k : Kind σ} (s : Span) (h : Stored t t' bound as xs)
    (hlength : as.length = k.children.length) :
    Stored t (t'.alloc (k.fill (as.map Ast.note)) s).2 bound [.node ⟨t'.size⟩ (k.fill as)]
      [.node s (k.fill xs)] := by
  have hchildren : (k.fill as).children = as := Kind.children_fill k as hlength
  have hover := Stored.covered s (k := k.fill as) (by rwa [hchildren])
  rwa [Kind.map_fill _ _ _ hlength, Kind.map_fill _ _ _ hlength, h.spans] at hover

end Stored

end LogLabel.Program.Tree
