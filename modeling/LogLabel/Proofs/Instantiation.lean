import LogLabel.Proofs.Template

set_option autoImplicit false

/-!
# Instances of a template

What a template leaves in a tree of which nothing is known but that the bound programs are stored
in it and share no address. Links to parents are neither used nor assumed.

A mark on a node of the instance is the node of a bound program that it stands for. The marked
instance is the template with the marked bound programs in its slots, so it tells apart the two
ways in which a bound program is used.

* `Template.Turns size seen marks`: in source order, a node of a bound program stands for itself
  the first time, and every other node is new.
* `Template.Marked`: what a copying of several parts leaves, with marks.
* `Template.Composed.marked`: every composed copying leaves that.
* `Template.instantiate_marked`: what an accepted template leaves.
-/

namespace LogLabel.Template

open Program (Ast Kind NodeId Span Tree)
open Program.Tree (Stored Extends Shows)

/-! ## Marks -/

/-- An address, and the node of a bound program that it stands for. -/
abbrev Mark := NodeId × Option NodeId

/-- The span of a marked node: that of the node it stands for, or the one of the instance. -/
def spanOf (s : Span) (g : NodeId → Span) (m : Mark) : Span := m.2.elim s g

/-- In source order: a node of a bound program that was not seen before stands for itself, and every
other node was not in the first `size` ones. -/
inductive Turns (size : Nat) : List NodeId → List Mark → Prop
  | nil {seen : List NodeId} : Turns size seen []
  | new {seen : List NodeId} {i : NodeId} {marks : List Mark} (fresh : size ≤ i.index)
      (later : Turns size seen marks) : Turns size seen ((i, none) :: marks)
  | first {seen : List NodeId} {i : NodeId} {marks : List Mark} (unseen : i ∉ seen)
      (later : Turns size (i :: seen) marks) : Turns size seen ((i, some i) :: marks)
  | again {seen : List NodeId} {i j : NodeId} {marks : List Mark} (mem : j ∈ seen)
      (fresh : size ≤ i.index) (later : Turns size seen marks) :
      Turns size seen ((i, some j) :: marks)

namespace Turns

variable {size : Nat} {seen seen' ids : List NodeId} {marks marks' : List Mark}

theorem congr (h : Turns size seen marks) :
    ∀ {seen' : List NodeId}, (∀ j, j ∈ seen' ↔ j ∈ seen) → Turns size seen' marks := by
  induction h with
  | nil => exact fun _ => .nil
  | new fresh _ ih => exact fun hseen => .new fresh (ih hseen)
  | first unseen _ ih =>
      intro seen' hseen
      refine .first (fun hmem => unseen ((hseen _).1 hmem)) (ih fun j => ?_)
      rw [List.mem_cons, List.mem_cons, hseen]
  | again mem fresh _ ih => exact fun hseen => .again ((hseen _).2 mem) fresh (ih hseen)

/-- Marks after others, that have seen what stands in front of them. -/
theorem append (h : Turns size seen marks) :
    ∀ {seen' : List NodeId}, Turns size seen' marks' →
      (∀ j, j ∈ seen' ↔ j ∈ seen ∨ ∃ m ∈ marks, m.2 = some j) →
      Turns size seen (marks ++ marks') := by
  induction h with
  | nil =>
      intro seen' h' hseen
      exact h'.congr fun j => by simp [hseen]
  | new fresh _ ih =>
      intro seen' h' hseen
      exact .new fresh (ih h' fun j => by simp [hseen])
  | first unseen _ ih =>
      intro seen' h' hseen
      refine .first unseen (ih h' fun j => ?_)
      simp only [hseen, List.mem_cons, exists_eq_or_imp, Option.some.injEq, eq_comm (a := j), ← or_assoc]
      exact or_congr_left or_comm
  | @again seen i j marks mem fresh _ ih =>
      intro seen' h' hseen
      refine .again mem fresh (ih h' fun l => ?_)
      simp only [hseen, List.mem_cons, exists_eq_or_imp, Option.some.injEq]
      constructor
      · rintro (hl | rfl | hl)
        · exact .inl hl
        · exact .inl mem
        · exact .inr hl
      · exact fun hl => hl.imp_right .inr

/-- Nodes that stand for themselves. -/
theorem selves (hnodup : ids.Nodup) :
    ∀ {seen : List NodeId}, (∀ i ∈ ids, i ∉ seen) →
      Turns size seen (ids.map fun i => (i, some i)) := by
  induction ids with
  | nil => exact fun _ => .nil
  | cons i ids ih =>
      intro seen hunseen
      rw [List.nodup_cons] at hnodup
      refine .first (hunseen i List.mem_cons_self) (ih hnodup.2 fun j hj hmem => ?_)
      rcases List.mem_cons.1 hmem with rfl | hmem
      · exact hnodup.1 hj
      · exact hunseen j (List.mem_cons_of_mem _ hj) hmem

/-- New nodes that stand for nodes that were seen. -/
theorem copies (h : ∀ m ∈ marks, size ≤ m.1.index ∧ ∃ j ∈ seen, m.2 = some j) :
    Turns size seen marks := by
  induction marks with
  | nil => exact .nil
  | cons m marks ih =>
      obtain ⟨i, o⟩ := m
      obtain ⟨hfresh, j, hj, rfl⟩ := h (i, o) List.mem_cons_self
      exact .again hj hfresh (ih fun m hm => h m (List.mem_cons_of_mem _ hm))

end Turns

/-! ## Bound programs -/

/-- The bound programs are among the first `size` nodes with the given spans and share no address,
and the tree has got at least as many nodes. -/
structure Bound (size : Nat) (span : NodeId → Span) (bound : List (Ast NodeId)) (t : Tree) :
    Prop where
  shows : ∀ b ∈ bound, t.Shows b
  nodup : (bound.flatMap Ast.notes).Nodup
  spans : ∀ i ∈ bound.flatMap Ast.notes, t.span i = span i
  old : ∀ i ∈ bound.flatMap Ast.notes, i.index < size
  size_le : size ≤ t.size

variable {size : Nat} {s : Span} {span : NodeId → Span} {bound : List (Ast NodeId)}

theorem Bound.extends {t t' : Tree} {moved : List NodeId} (h : Bound size span bound t)
    (hext : Extends moved t t') : Bound size span bound t' where
  shows := fun b hb =>
    (h.shows b hb).congr hext.size_le fun i hi => hext.kind_eq i ((h.shows b hb).stored i hi)
  nodup := h.nodup
  spans := by
    intro i hi
    rw [hext.span_eq i (Nat.lt_of_lt_of_le (h.old i hi) h.size_le), h.spans i hi]
  old := h.old
  size_le := Nat.le_trans h.size_le hext.size_le

/-- The nodes of the bound programs that were used. -/
def seenIn (bound : List (Ast NodeId)) (used : List NodeId) : List NodeId :=
  (bound.filter (·.note ∈ used)).flatMap Ast.notes

theorem mem_seenIn {used : List NodeId} {j : NodeId} :
    j ∈ seenIn bound used ↔ ∃ b ∈ bound, b.note ∈ used ∧ j ∈ b.notes := by
  simp [seenIn, and_assoc]

/-- A node of one bound program is seen when that program was used. -/
theorem Bound.mem_seenIn_iff {t : Tree} (h : Bound size span bound t) {b : Ast NodeId} (hb : b ∈ bound)
    {used : List NodeId} {j : NodeId} (hj : j ∈ b.notes) :
    j ∈ seenIn bound used ↔ b.note ∈ used := by
  rw [mem_seenIn]
  constructor
  · rintro ⟨b', hb', hused, hj'⟩
    rwa [Tree.eq_of_nodup_flatMap h.nodup hb hb' hj hj']
  · exact fun hused => ⟨b, hb, hused, hj⟩

/-! ## What a copying leaves, with marks -/

/-- What a copying of several parts leaves on the way from one filling to another. -/
structure Marked (size : Nat) (s : Span) (span : NodeId → Span) (bound : List (Ast NodeId))
    (f f' : Filling) (ds : List (Ast Mark)) (xs : (NodeId → Span) → List (Ast Span)) : Prop where
  growth : Extends (bound.map Ast.note) f.tree f'.tree
  shows : ∀ d ∈ ds, f'.tree.Shows (d.mapNotes Prod.fst)
  tops : ∀ d ∈ ds, d.note.1.index < f.tree.size → d.note.1 ∈ bound.map Ast.note
  nodup : ((ds.flatMap Ast.notes).map Prod.fst).Nodup
  origin : ∀ m ∈ ds.flatMap Ast.notes, f.tree.size ≤ m.1.index ∨
    m.2 = some m.1 ∧ m.1 ∈ bound.flatMap Ast.notes ∧ m.1 ∉ seenIn bound f.used
  turns : Turns size (seenIn bound f.used) (ds.flatMap Ast.notes)
  seen : ∀ j, j ∈ seenIn bound f'.used ↔
    j ∈ seenIn bound f.used ∨ ∃ m ∈ ds.flatMap Ast.notes, m.2 = some j
  forms : ∀ g, ds.map (Ast.mapNotes (spanOf s g)) = xs g
  spans : ∀ m ∈ ds.flatMap Ast.notes, f'.tree.span m.1 = spanOf s span m
  slotless : ∀ m ∈ ds.flatMap Ast.notes, m.2 = none → ∀ slot, f'.tree.kind m.1 ≠ .placeholder slot

namespace Marked

variable {f f' f'' : Filling} {ds ds' : List (Ast Mark)} {xs ys : (NodeId → Span) → List (Ast Span)}

theorem nothing (f : Filling) : Marked size s span bound f f [] fun _ => [] where
  growth := .refl _ _
  shows := by simp
  tops := by simp
  nodup := by simp
  origin := by simp
  turns := .nil
  seen := by simp
  forms := fun _ => rfl
  spans := by simp
  slotless := by simp

/-- The marked nodes are stored. -/
theorem stored (h : Marked size s span bound f f' ds xs) :
    ∀ m ∈ ds.flatMap Ast.notes, m.1.index < f'.tree.size := by
  intro m hm
  obtain ⟨d, hd, hm⟩ := List.mem_flatMap.1 hm
  refine (h.shows d hd).stored m.1 ?_
  rw [Ast.notes_mapNotes]
  exact List.mem_map.2 ⟨m, hm, rfl⟩

theorem append (hf : Bound size span bound f.tree) (h : Marked size s span bound f f' ds xs)
    (h' : Marked size s span bound f' f'' ds' ys) :
    Marked size s span bound f f'' (ds ++ ds') fun g => xs g ++ ys g where
  growth := h.growth.trans h'.growth fun i hi _ => hi
  shows := by
    intro d hd
    rcases List.mem_append.1 hd with hd | hd
    · exact (h.shows d hd).congr h'.growth.size_le fun i hi =>
        h'.growth.kind_eq i ((h.shows d hd).stored i hi)
    · exact h'.shows d hd
  tops := by
    intro d hd hlt
    rcases List.mem_append.1 hd with hd | hd
    · exact h.tops d hd hlt
    · exact h'.tops d hd (Nat.lt_of_lt_of_le hlt h.growth.size_le)
  nodup := by
    rw [List.flatMap_append, List.map_append, List.nodup_append]
    refine ⟨h.nodup, h'.nodup, ?_⟩
    rintro i hi _ hi' rfl
    obtain ⟨m, hm, rfl⟩ := List.mem_map.1 hi
    obtain ⟨m', hm', he⟩ := List.mem_map.1 hi'
    -- What the second copying leaves is new, or a node that the first one has not used.
    rcases h'.origin m' hm' with hfresh | ⟨-, hbound, hunseen⟩
    · have hlt := h.stored m hm
      rw [he] at hfresh
      omega
    · rw [he] at hbound hunseen
      rcases h.origin m hm with hfresh | ⟨hself, -, -⟩
      · have hold := hf.old m.1 hbound
        have hsize := hf.size_le
        omega
      · exact hunseen ((h.seen m.1).2 (.inr ⟨m, hm, hself⟩))
  origin := by
    intro m hm
    rw [List.flatMap_append] at hm
    rcases List.mem_append.1 hm with hm | hm
    · exact h.origin m hm
    · rcases h'.origin m hm with hfresh | ⟨hself, hbound, hunseen⟩
      · exact .inl (Nat.le_trans h.growth.size_le hfresh)
      · exact .inr ⟨hself, hbound, fun hmem => hunseen ((h.seen m.1).2 (.inl hmem))⟩
  turns := by
    rw [List.flatMap_append]
    exact h.turns.append h'.turns h.seen
  seen := by
    intro j
    rw [h'.seen, h.seen, List.flatMap_append, or_assoc]
    refine or_congr_right ?_
    constructor
    · rintro (⟨m, hm, hj⟩ | ⟨m, hm, hj⟩)
      · exact ⟨m, List.mem_append_left _ hm, hj⟩
      · exact ⟨m, List.mem_append_right _ hm, hj⟩
    · rintro ⟨m, hm, hj⟩
      rcases List.mem_append.1 hm with hm | hm
      · exact .inl ⟨m, hm, hj⟩
      · exact .inr ⟨m, hm, hj⟩
  forms := fun g => by rw [List.map_append, h.forms, h'.forms]
  spans := by
    intro m hm
    rw [List.flatMap_append] at hm
    rcases List.mem_append.1 hm with hm | hm
    · rw [h'.growth.span_eq m.1 (h.stored m hm), h.spans m hm]
    · exact h'.spans m hm
  slotless := by
    intro m hm hnone slot
    rw [List.flatMap_append] at hm
    rcases List.mem_append.1 hm with hm | hm
    · rw [h'.growth.kind_eq m.1 (h.stored m hm)]
      exact h.slotless m hm hnone slot
    · exact h'.slotless m hm hnone slot

/-- Storing a layer over all the copied parts. -/
theorem layer (hf : Bound size span bound f.tree) (h : Marked size s span bound f f' ds xs)
    {build : {α : Type} → [Inhabited α] → List α → Kind α} (hbuild : ∀ g, IsLayer (xs g).length build)
    (hslot : ∀ (as : List NodeId) (slot : String), build as ≠ .placeholder slot) :
    Marked size s span bound f (store (build (ds.map (·.note.1))) s f').2
      [.node (⟨f'.tree.size⟩, none) (build ds)] fun g => [.node s (build (xs g))] := by
  have hlayer : IsLayer ds.length build := by
    have hlength := hbuild span
    rwa [← h.forms span, List.length_map] at hlength
  have hids : (build (ds.map (·.note.1))).children = ds.map (·.note.1) := by
    refine (hbuild span).children_eq _ ?_
    rw [← h.forms span, List.length_map, List.length_map]
  have hnotes : ([.node (⟨f'.tree.size⟩, none) (build ds)] : List (Ast Mark)).flatMap Ast.notes
      = (⟨f'.tree.size⟩, none) :: ds.flatMap Ast.notes := by
    rw [List.flatMap_singleton, Ast.notes_node, hlayer.children_eq ds rfl]
  have hgrows := Extends.alloc f'.tree (build (ds.map (·.note.1))) s
  rw [hids] at hgrows
  -- The nodes that were stored before are not the new one.
  have hold : ∀ m ∈ ds.flatMap Ast.notes, m.1 ≠ ⟨f'.tree.size⟩ := by
    intro m hm he
    have hlt := h.stored m hm
    rw [he] at hlt
    exact Nat.lt_irrefl _ hlt
  refine ⟨?_, ?_, ?_, ?_, ?_, ?_, ?_, ?_, ?_, ?_⟩
  · refine h.growth.trans hgrows fun i hi hlt => ?_
    obtain ⟨d, hd, rfl⟩ := List.mem_map.1 hi
    exact h.tops d hd hlt
  · intro d hd
    obtain rfl := List.mem_singleton.1 hd
    rw [Ast.mapNotes_node, hlayer.map_eq _ ds rfl]
    refine .node ?_ ?_ fun c hc => ?_
    · exact Nat.lt_of_lt_of_eq (Nat.lt_succ_self _) (Tree.size_alloc _ _ _).symm
    · have hmap : (build (ds.map (Ast.mapNotes Prod.fst))).map Ast.note
          = build (ds.map (·.note.1)) := by
        rw [hlayer.map_eq _ _ (List.length_map _), List.map_map]
        congr 1
        exact List.map_congr_left fun d _ => Ast.note_mapNotes _ d
      rw [hmap]
      exact (Tree.kind_alloc _ _ _ _).trans (if_pos rfl)
    · rw [hlayer.children_eq _ (List.length_map _)] at hc
      obtain ⟨d, hd, rfl⟩ := List.mem_map.1 hc
      exact (h.shows d hd).congr hgrows.size_le fun i hi =>
        hgrows.kind_eq i ((h.shows d hd).stored i hi)
  · intro d hd hlt
    obtain rfl := List.mem_singleton.1 hd
    exact absurd hlt (Nat.not_lt.2 h.growth.size_le)
  · rw [hnotes, List.map_cons, List.nodup_cons]
    refine ⟨fun hmem => ?_, h.nodup⟩
    obtain ⟨m, hm, he⟩ := List.mem_map.1 hmem
    exact hold m hm he
  · intro m hm
    rw [hnotes] at hm
    rcases List.mem_cons.1 hm with rfl | hm
    · exact .inl h.growth.size_le
    · exact h.origin m hm
  · rw [hnotes]
    exact .new (Nat.le_trans hf.size_le h.growth.size_le) h.turns
  · intro j
    rw [hnotes]
    refine (h.seen j).trans (or_congr_right ?_)
    simp
  · intro g
    rw [List.map_singleton, Ast.mapNotes_node, hlayer.map_eq _ ds rfl, h.forms]
    rfl
  · intro m hm
    rw [hnotes] at hm
    rcases List.mem_cons.1 hm with rfl | hm
    · exact (Tree.span_alloc _ _ _ _).trans (if_pos rfl)
    · exact (hgrows.span_eq m.1 (h.stored m hm)).trans (h.spans m hm)
  · intro m hm hnone slot
    rw [hnotes] at hm
    rcases List.mem_cons.1 hm with rfl | hm
    · have hkind : (store (build (ds.map (·.note.1))) s f').2.tree.kind ⟨f'.tree.size⟩
          = build (ds.map (·.note.1)) := (Tree.kind_alloc _ _ _ _).trans (if_pos rfl)
      rw [hkind]
      exact hslot _ slot
    · have hkind := hgrows.kind_eq m.1 (h.stored m hm)
      change (f'.tree.alloc _ s).2.kind m.1 ≠ _
      rw [hkind]
      exact h.slotless m hm hnone slot

/-- Using a bound program for the first time. -/
theorem first (hf : Bound size span bound f.tree) {b : Ast NodeId} (hb : b ∈ bound)
    (hunused : b.note ∉ f.used) :
    Marked size s span bound f { f with used := b.note :: f.used }
      [b.mapNotes fun i => (i, some i)] fun g => [b.mapNotes g] := by
  have hnotes : [b.mapNotes fun i => ((i, some i) : Mark)].flatMap Ast.notes
      = b.notes.map fun i => (i, some i) := by
    rw [List.flatMap_singleton, Ast.notes_mapNotes]
  have hmem : ∀ i ∈ b.notes, i ∈ bound.flatMap Ast.notes := fun i hi =>
    List.mem_flatMap.2 ⟨b, hb, hi⟩
  have hunseen : ∀ i ∈ b.notes, i ∉ seenIn bound f.used := fun i hi hseen =>
    hunused ((hf.mem_seenIn_iff hb hi).1 hseen)
  refine ⟨.refl _ _, ?_, ?_, ?_, ?_, ?_, ?_, ?_, ?_, ?_⟩
  · intro d hd
    obtain rfl := List.mem_singleton.1 hd
    rw [Ast.mapNotes_mapNotes, Ast.mapNotes_id]
    exact hf.shows b hb
  · intro d hd _
    obtain rfl := List.mem_singleton.1 hd
    rw [Ast.note_mapNotes]
    exact List.mem_map.2 ⟨b, hb, rfl⟩
  · rw [hnotes, List.map_map]
    have hself : b.notes.map (Prod.fst ∘ fun i => ((i, some i) : Mark)) = b.notes := List.map_id _
    rw [hself]
    exact (List.nodup_flatMap.1 hf.nodup).1 b hb
  · intro m hm
    rw [hnotes] at hm
    obtain ⟨i, hi, rfl⟩ := List.mem_map.1 hm
    exact .inr ⟨rfl, hmem i hi, hunseen i hi⟩
  · rw [hnotes]
    exact .selves ((List.nodup_flatMap.1 hf.nodup).1 b hb) hunseen
  · intro j
    rw [hnotes, mem_seenIn, mem_seenIn]
    constructor
    · rintro ⟨b', hb', hused, hj⟩
      rcases List.mem_cons.1 hused with he | hused
      · have htop : b'.note ∈ b.notes := he ▸ b.note_mem_notes
        obtain rfl := Tree.eq_of_nodup_flatMap hf.nodup hb' hb b'.note_mem_notes htop
        exact .inr ⟨(j, some j), List.mem_map.2 ⟨j, hj, rfl⟩, rfl⟩
      · exact .inl ⟨b', hb', hused, hj⟩
    · rintro (⟨b', hb', hused, hj⟩ | ⟨m, hm, hj⟩)
      · exact ⟨b', hb', List.mem_cons_of_mem _ hused, hj⟩
      · obtain ⟨i, hi, rfl⟩ := List.mem_map.1 hm
        obtain rfl := Option.some.inj hj
        exact ⟨b, hb, List.mem_cons_self, hi⟩
  · intro g
    rw [List.map_singleton, Ast.mapNotes_mapNotes]
    rfl
  · intro m hm
    rw [hnotes] at hm
    obtain ⟨i, hi, rfl⟩ := List.mem_map.1 hm
    exact hf.spans i (hmem i hi)
  · intro m hm hnone
    rw [hnotes] at hm
    obtain ⟨i, -, rfl⟩ := List.mem_map.1 hm
    cases hnone

/-- Using a bound program once more: a copy of it is planted. -/
theorem again (hf : Bound size span bound f.tree) {b : Ast NodeId} (hb : b ∈ bound)
    (hused : b.note ∈ f.used) :
    ∃ d : Ast Mark, d.note.1 = (f.tree.clone b.note).1 ∧
      Marked size s span bound f { f with tree := (f.tree.clone b.note).2 } [d]
        fun g => [b.mapNotes g] := by
  have hreading := (hf.shows b hb).reading_eq ((List.nodup_flatMap.1 hf.nodup).1 b hb)
  obtain ⟨a, ha, hstored⟩ := (b.mapNotes f.tree.span).plant_stored f.tree
  have hclone : f.tree.clone b.note = (b.mapNotes f.tree.span).plant f.tree := by
    rw [Tree.clone, hreading]
  rw [hclone]
  generalize (b.mapNotes f.tree.span).plant f.tree = planted at ha hstored
  -- The copy has the form of the bound program, so each of its nodes stands for one of that.
  have hspans : a.mapNotes planted.2.span = b.mapNotes f.tree.span :=
    List.singleton_inj.1 hstored.spans
  have hbare : a.bare = b.bare := by
    have hforget := congrArg (Ast.mapNotes fun _ => ()) hspans
    rw [Ast.mapNotes_mapNotes, Ast.mapNotes_mapNotes] at hforget
    exact hforget
  obtain ⟨d, hfst, hsnd⟩ := a.exists_pairs b hbare
  have hnotes : [d.mapNotes fun p => ((p.1, some p.2) : Mark)].flatMap Ast.notes
      = d.notes.map fun p => (p.1, some p.2) := by
    rw [List.flatMap_singleton, Ast.notes_mapNotes]
  have hcopied : ∀ p ∈ d.notes, f.tree.size ≤ p.1.index ∧ p.2 ∈ b.notes ∧
      planted.2.span p.1 = f.tree.span p.2 := by
    intro p hp
    have hnew : p.1 ∈ a.notes := by
      rw [← hfst, Ast.notes_mapNotes]
      exact List.mem_map.2 ⟨p, hp, rfl⟩
    have hmem : p.2 ∈ b.notes := by
      rw [← hsnd, Ast.notes_mapNotes]
      exact List.mem_map.2 ⟨p, hp, rfl⟩
    refine ⟨hstored.fresh p.1 (by simpa using hnew), hmem, ?_⟩
    rw [← hfst, ← hsnd, Ast.mapNotes_mapNotes, Ast.mapNotes_mapNotes] at hspans
    have hall := congrArg Ast.notes hspans
    rw [Ast.notes_mapNotes, Ast.notes_mapNotes] at hall
    exact List.map_inj_left.1 hall p hp
  have htop : (d.mapNotes fun p => ((p.1, some p.2) : Mark)).note.1 = a.note := by
    rw [← hfst, Ast.note_mapNotes, Ast.note_mapNotes]
  refine ⟨_, htop.trans ha, ?_, ?_, ?_, ?_, ?_, ?_, ?_, ?_, ?_, ?_⟩
  · exact hstored.growth.mono (List.nil_subset _)
  · intro x hx
    obtain rfl := List.mem_singleton.1 hx
    rw [Ast.mapNotes_mapNotes]
    change planted.2.Shows (d.mapNotes Prod.fst)
    rw [hfst]
    exact (hstored.holds a (by simp)).shows
  · intro x hx hlt
    obtain rfl := List.mem_singleton.1 hx
    rw [htop] at hlt
    exact absurd hlt (Nat.not_lt.2 (hstored.fresh a.note (by simp)))
  · rw [hnotes, List.map_map]
    have hself : d.notes.map (Prod.fst ∘ fun p => ((p.1, some p.2) : Mark)) = a.notes := by
      rw [← hfst, Ast.notes_mapNotes]
      rfl
    rw [hself]
    simpa using hstored.nodup
  · intro m hm
    rw [hnotes] at hm
    obtain ⟨p, hp, rfl⟩ := List.mem_map.1 hm
    exact .inl (hcopied p hp).1
  · rw [hnotes]
    refine .copies fun m hm => ?_
    obtain ⟨p, hp, rfl⟩ := List.mem_map.1 hm
    obtain ⟨hfresh, hmem, -⟩ := hcopied p hp
    exact ⟨Nat.le_trans hf.size_le hfresh, p.2, (hf.mem_seenIn_iff hb hmem).2 hused, rfl⟩
  · intro j
    rw [hnotes]
    constructor
    · exact .inl
    · rintro (hj | ⟨m, hm, hj⟩)
      · exact hj
      · obtain ⟨p, hp, rfl⟩ := List.mem_map.1 hm
        obtain rfl := Option.some.inj hj
        exact (hf.mem_seenIn_iff hb (hcopied p hp).2.1).2 hused
  · intro g
    rw [List.map_singleton, Ast.mapNotes_mapNotes, ← hsnd, Ast.mapNotes_mapNotes]
    rfl
  · intro m hm
    rw [hnotes] at hm
    obtain ⟨p, hp, rfl⟩ := List.mem_map.1 hm
    obtain ⟨-, hmem, hspan⟩ := hcopied p hp
    exact hspan.trans (hf.spans p.2 (List.mem_flatMap.2 ⟨b, hb, hmem⟩))
  · intro m hm hnone
    rw [hnotes] at hm
    obtain ⟨p, -, rfl⟩ := List.mem_map.1 hm
    cases hnone

end Marked

/-- Every composed copying leaves the programs that it stands for, with marks. -/
theorem Composed.marked {copy : Filling → List NodeId × Filling}
    {xs : (NodeId → Span) → List (Ast Span)} (h : Composed s bound copy xs) :
    ∀ f : Filling, Bound size span bound f.tree →
      ∃ ds : List (Ast Mark), ds.map (·.note.1) = (copy f).1 ∧
        Marked size s span bound f (copy f).2 ds xs := by
  induction h with
  | nothing => exact fun f _ => ⟨[], rfl, .nothing f⟩
  | @take b mem =>
      intro f hf
      by_cases hused : b.note ∈ f.used
      · have htake : single (Template.take b.note) f
            = ([(f.tree.clone b.note).1], { f with tree := (f.tree.clone b.note).2 }) := by
          rw [single, Template.take, if_pos hused]
        obtain ⟨d, hd, hmarked⟩ := Marked.again (s := s) hf mem hused
        rw [htake]
        exact ⟨[d], by rw [List.map_singleton, hd], hmarked⟩
      · have htake : single (Template.take b.note) f
            = ([b.note], { f with used := b.note :: f.used }) := by
          rw [single, Template.take, if_neg hused]
        rw [htake]
        exact ⟨_, by rw [List.map_singleton, Ast.note_mapNotes], .first hf mem hused⟩
  | append _ _ ihfirst ihsecond =>
      intro f hf
      obtain ⟨ds, hds, hmarked⟩ := ihfirst f hf
      obtain ⟨ds', hds', hmarked'⟩ := ihsecond _ (hf.extends hmarked.growth)
      exact ⟨ds ++ ds', by rw [List.map_append, hds, hds'], hmarked.append hf hmarked'⟩
  | layer _ isLayer noSlot ih =>
      intro f hf
      obtain ⟨ds, hds, hmarked⟩ := ih f hf
      have hlayer := hmarked.layer hf isLayer noSlot
      rw [hds] at hlayer
      exact ⟨_, rfl, hlayer⟩

/-- Filling a template from the start on leaves one marked program. -/
theorem fill_marked {contents : List (Ast NodeId)} {record : Ast NodeId} {b : Bindings}
    (hb : Names bound contents record b) {t : Tree} (ht : Bound size span bound t) (a : Ast Span) :
    ∃ (m : Ast Mark) (used : List NodeId), m.note.1 = (fill b s a t).1 ∧
      Marked size s span bound ⟨t, []⟩ ⟨(fill b s a t).2, used⟩ [m]
        fun g => [filled (valuesOf b.logFunction contents record g) s a] := by
  obtain ⟨ds, hds, hmarked⟩ := (composed_copier (s := s) hb a).marked ⟨t, []⟩ ht
  obtain ⟨m, rfl, hm⟩ := List.map_eq_singleton_iff.1 hds
  exact ⟨m, _, hm, hmarked⟩

/-! ## Accepted templates -/

/-- All slots of an accepted template are known. -/
theorem slots_known {label source : String} {form : Template} (h : compile label source = .ok form) :
    ∀ p ∈ slotsBackward form.statement, (Slot.ofName? p.2).isSome = true := by
  rw [compile] at h
  cases hread : Program.read .template source with
  | error d => rw [hread] at h; cases h
  | ok body =>
      rw [hread] at h
      dsimp only at h
      split at h
      · cases h
      · split at h
        · cases h
        · next hfind =>
            obtain rfl := Except.ok.inj h
            intro p hp
            have hknown := List.find?_eq_none.1 hfind p hp
            exact Option.isSome_iff_ne_none.2 (by simpa using hknown)
      · cases h

/-- The slots of what is copied are the slots of the statement. -/
theorem slotsBackward_body (form : Template) :
    slotsBackward form.body = slotsBackward form.statement := by
  obtain ⟨label, source, s, k⟩ := form
  cases k with
  | expression e =>
      change slotsBackward e = Ast.fold slotsStep (.node s (.expression e))
      rw [Ast.fold_node]
      simp [Kind.map, slotsStep, Kind.children, slotsBackward]
  | _ => rfl

/-- What an accepted template leaves in any tree, with programs bound to its slots that are stored
in the tree and share no address. The instance reads as the template with the readings of the
bound programs in its slots. So do its marks: where a bound program is used first, its own nodes
stand, and new nodes stand for them wherever it is used again. No node occurs twice, no slot is
left, and nothing that was in the tree has changed but the parents of the bound nodes. -/
theorem instantiate_marked {label source : String} {form : Template}
    (hform : compile label source = .ok form) {t t' : Tree} {b : Bindings} {id : NodeId} {s : Span}
    {contents : List (Ast NodeId)} {record : Ast NodeId}
    (hstored : ∀ a ∈ record :: contents, t.Shows a)
    (hdisjoint : ((record :: contents).flatMap Ast.notes).Nodup)
    (hcontent : b.content = contents.map Ast.note) (hmetadata : b.metadata = record.note)
    (hinstance : form.instantiate t b s = (id, t')) :
    ∃ m : Ast Mark, t'.Shows (m.mapNotes Prod.fst) ∧ t'.reading id = m.mapNotes Prod.fst ∧
      (t'.reading id).mapNotes t'.span =
        filled ⟨b.logFunction, contents.map (Ast.mapNotes t.span), record.mapNotes t.span⟩ s
          form.body ∧
      (∀ p ∈ slotsBackward form.body, (Slot.ofName? p.2).isSome = true) ∧
      (∀ g : NodeId → Span, m.mapNotes (spanOf s g) =
        filled ⟨b.logFunction, contents.map (Ast.mapNotes g), record.mapNotes g⟩ s form.body) ∧
      Turns t.size [] m.notes ∧ (t'.reading id).notes.Nodup ∧
      (∀ p ∈ m.notes, p.2 = none → ∀ slot, t'.kind p.1 ≠ .placeholder slot) ∧
      (∀ i : NodeId, i.index < t.size → t'.kind i = t.kind i ∧ t'.span i = t.span i ∧
        (i ∉ b.metadata :: b.content → t'.parent i = t.parent i)) ∧
      t.size ≤ t'.size ∧ t'.root = t.root ∧ t'.lineStarts = t.lineStarts := by
  have hbound : Bound t.size t.span (record :: contents) t := by
    refine ⟨hstored, hdisjoint, fun _ _ => rfl, fun i hi => ?_, Nat.le_refl _⟩
    obtain ⟨a, ha, hi⟩ := List.mem_flatMap.1 hi
    exact (hstored a ha).stored i hi
  have hnames : Names (record :: contents) contents record b :=
    ⟨List.subset_cons_self _ _, List.mem_cons_self, hcontent, hmetadata⟩
  obtain ⟨m, used, hm, hmarked⟩ := fill_marked (s := s) hnames hbound form.body
  rw [instantiate] at hinstance
  rw [hinstance] at hm hmarked
  have hshows := hmarked.shows m List.mem_cons_self
  have hnotes : [m].flatMap Ast.notes = m.notes := List.flatMap_singleton _ _
  have hnodup := hmarked.nodup
  have hturns : Turns t.size [] ([m].flatMap Ast.notes) :=
    hmarked.turns.congr fun j => by simp [mem_seenIn]
  have hspans := hmarked.spans
  have hslotless := hmarked.slotless
  rw [hnotes] at hnodup hturns hspans hslotless
  rw [← Ast.notes_mapNotes] at hnodup
  have hforms : ∀ g : NodeId → Span, m.mapNotes (spanOf s g) =
      filled ⟨b.logFunction, contents.map (Ast.mapNotes g), record.mapNotes g⟩ s form.body :=
    fun g => List.singleton_inj.1 (hmarked.forms g)
  have hreading : t'.reading id = m.mapNotes Prod.fst := by
    rw [← hshows.reading_eq hnodup, Ast.note_mapNotes, hm]
  refine ⟨m, hshows, hreading, ?_, ?_, hforms, hturns, hreading ▸ hnodup, hslotless, ?_,
    hmarked.growth.size_le, hmarked.growth.root_eq, hmarked.growth.lines_eq⟩
  · rw [hreading, Ast.mapNotes_mapNotes, m.mapNotes_congr hspans]
    exact hforms t.span
  · rw [slotsBackward_body]
    exact slots_known hform
  · intro i hi
    refine ⟨hmarked.growth.kind_eq i hi, hmarked.growth.span_eq i hi, fun hne => ?_⟩
    refine hmarked.growth.parent_eq i hi fun hmem => hne ?_
    rwa [List.map_cons, ← hcontent, ← hmetadata] at hmem

/-- A tree with an empty program and two names that stand outside of it. -/
def namesTree : Tree :=
  (((Tree.ofText "").alloc (.ident "a") default).2.alloc (.ident "r") default).2

/-- A template that uses the content and the metadata twice, once in a list and once alone. -/
theorem instantiate_marked_twice :
    ∃ (form : Template) (t' : Tree) (id : NodeId) (m : Ast Mark),
      compile "note" "%%logFunction%%(%%metadata%%, %%content%%, %%content%% + %%metadata%%);" =
        .ok form ∧
      (∀ a ∈ [Ast.node ⟨2⟩ (.ident "r"), .node ⟨1⟩ (.ident "a")], namesTree.Shows a) ∧
      form.instantiate namesTree ⟨"f", [⟨1⟩], ⟨2⟩⟩ default = (id, t') ∧
      t'.reading id = m.mapNotes Prod.fst ∧ Turns 3 [] m.notes ∧ (t'.reading id).notes.Nodup := by
  have hok : (compile "note"
      "%%logFunction%%(%%metadata%%, %%content%%, %%content%% + %%metadata%%);").toOption.isSome =
        true := by decide +kernel
  obtain ⟨form, hform⟩ := Option.isSome_iff_exists.1 hok
  have hcompile := eq_ok_of_toOption hform
  have hshows : ∀ a ∈ [Ast.node ⟨2⟩ (.ident "r"), .node ⟨1⟩ (.ident "a")], namesTree.Shows a := by
    intro a ha
    simp only [List.mem_cons, List.not_mem_nil, or_false] at ha
    rcases ha with rfl | rfl
    · exact .node (by decide) rfl (by simp [Kind.children])
    · exact .node (by decide) rfl (by simp [Kind.children])
  obtain ⟨m, -, hreading, -, -, -, hturns, hnodup, -⟩ :=
    instantiate_marked (b := ⟨"f", [⟨1⟩], ⟨2⟩⟩) (s := default) hcompile hshows (by decide) rfl rfl rfl
  exact ⟨form, _, _, m, hcompile, hshows, rfl, hreading, hturns, hnodup⟩

end LogLabel.Template
