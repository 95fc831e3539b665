import LogLabel.Program.Tree
import LogLabel.Proofs.Program.Layer
import Mathlib.Data.List.Nodup
import Mathlib.Data.Finset.Card

set_option autoImplicit false

/-!
# Programs held by an arena

What each operation on a `Tree` does to the kind, the span and the parent of every
node, and the predicate that ties an arena to a nested program.

* `Tree.Shows t a`: the nodes of `t` named by the notes of `a` are stored and have the kinds
  of `a`.
* `Tree.Holds t a` adds that every part points to the node that has it. The parent of the top
  node is left open, so that a program can be held while it is attached or moved.
* `Tree.Held t a` adds that no address occurs twice. Then the program is what
  `Tree.reading` gives (`Tree.Held.reading_eq`).
* `Tree.Holds.congr` is the frame rule: an edit elsewhere keeps a program held.
-/

namespace LogLabel.Program

namespace Tree

variable (t : Tree)

/-! ## Nodes after one operation -/

theorem node?_eq_none {id : NodeId} (h : t.size ≤ id.index) : t.node? id = none := by
  simpa [node?, size] using h

theorem node?_isSome {id : NodeId} (h : id.index < t.size) : ∃ n, t.node? id = some n := by
  exact ⟨t.nodes[id.index], Array.getElem?_eq_getElem h⟩

theorem kind_eq (id : NodeId) : t.kind id = ((t.node? id).map Node.kind).getD .empty := by
  rw [kind]
  cases t.node? id <;> rfl

/-- A node of any kind but the one that is read outside of the tree is stored. -/
theorem index_lt_of_kind_ne {id : NodeId} (h : t.kind id ≠ .empty) : id.index < t.size := by
  refine Nat.lt_of_not_le fun hle => h ?_
  rw [kind, t.node?_eq_none hle]

theorem span_eq (id : NodeId) : t.span id = ((t.node? id).map Node.span).getD default := by
  rw [span]
  cases t.node? id <;> rfl

theorem size_setParent (p : Option NodeId) (id : NodeId) : (t.setParent p id).size = t.size := by
  simp [setParent, size]

theorem node?_setParent (p : Option NodeId) (id j : NodeId) :
    (t.setParent p id).node? j
      = if j = id then (t.node? j).map ({ · with parent := p }) else t.node? j := by
  by_cases h : j = id
  · subst h
    simp [setParent, node?, Array.getElem?_modify]
  · have hi : id.index ≠ j.index := fun hi => h (by cases j; cases id; simp_all)
    simp [setParent, node?, Array.getElem?_modify, h, hi]

@[simp] theorem kind_setParent (p : Option NodeId) (id j : NodeId) :
    (t.setParent p id).kind j = t.kind j := by
  rw [kind_eq, kind_eq, node?_setParent]
  split
  · rw [Option.map_map]
    rfl
  · rfl

@[simp] theorem span_setParent (p : Option NodeId) (id j : NodeId) :
    (t.setParent p id).span j = t.span j := by
  rw [span_eq, span_eq, node?_setParent]
  split
  · rw [Option.map_map]
    rfl
  · rfl

theorem parent_setParent (p : Option NodeId) (id j : NodeId) :
    (t.setParent p id).parent j = if j = id ∧ id.index < t.size then p else t.parent j := by
  rw [parent, parent, node?_setParent]
  by_cases h : j = id
  · subst h
    by_cases hb : j.index < t.size
    · obtain ⟨n, hn⟩ := t.node?_isSome hb
      simp [hb, hn]
    · simp [hb, t.node?_eq_none (Nat.le_of_not_lt hb)]
  · simp [h]

theorem size_adopt (p : NodeId) : ∀ (ids : List NodeId) (t : Tree), (t.adopt p ids).size = t.size := by
  intro ids
  induction ids with
  | nil => intro t; rfl
  | cons id ids ih => intro t; simpa [adopt, size_setParent] using ih (t.setParent (some p) id)

@[simp] theorem kind_adopt (p j : NodeId) :
    ∀ (ids : List NodeId) (t : Tree), (t.adopt p ids).kind j = t.kind j := by
  intro ids
  induction ids with
  | nil => intro t; rfl
  | cons id ids ih => intro t; simpa [adopt] using ih (t.setParent (some p) id)

@[simp] theorem span_adopt (p j : NodeId) :
    ∀ (ids : List NodeId) (t : Tree), (t.adopt p ids).span j = t.span j := by
  intro ids
  induction ids with
  | nil => intro t; rfl
  | cons id ids ih => intro t; simpa [adopt] using ih (t.setParent (some p) id)

theorem parent_adopt (p j : NodeId) :
    ∀ (ids : List NodeId) (t : Tree),
      (t.adopt p ids).parent j = if j ∈ ids ∧ j.index < t.size then some p else t.parent j := by
  intro ids
  induction ids with
  | nil => intro t; simp [adopt]
  | cons id ids ih =>
      intro t
      have h := ih (t.setParent (some p) id)
      rw [size_setParent, parent_setParent] at h
      simp only [adopt, List.foldl_cons] at h ⊢
      rw [h]
      by_cases hj : j = id
      · subst hj
        by_cases hb : j.index < t.size <;> simp [hb]
      · simp [hj]

theorem size_putKind (id : NodeId) (k : Kind NodeId) : (t.putKind id k).size = t.size := by
  simp [putKind, size]

theorem node?_putKind (id : NodeId) (k : Kind NodeId) (j : NodeId) :
    (t.putKind id k).node? j
      = if j = id then (t.node? j).map ({ · with kind := k }) else t.node? j := by
  by_cases h : j = id
  · subst h
    simp [putKind, node?, Array.getElem?_modify]
  · have hi : id.index ≠ j.index := fun hi => h (by cases j; cases id; simp_all)
    simp [putKind, node?, Array.getElem?_modify, h, hi]

theorem kind_putKind (id : NodeId) (k : Kind NodeId) (j : NodeId) :
    (t.putKind id k).kind j = if j = id ∧ id.index < t.size then k else t.kind j := by
  rw [kind, kind, node?_putKind]
  by_cases h : j = id
  · subst h
    by_cases hb : j.index < t.size
    · obtain ⟨n, hn⟩ := t.node?_isSome hb
      simp [hb, hn]
    · simp [hb, t.node?_eq_none (Nat.le_of_not_lt hb)]
  · simp [h]

@[simp] theorem span_putKind (id : NodeId) (k : Kind NodeId) (j : NodeId) :
    (t.putKind id k).span j = t.span j := by
  rw [span_eq, span_eq, node?_putKind]
  split
  · rw [Option.map_map]
    rfl
  · rfl

@[simp] theorem parent_putKind (id : NodeId) (k : Kind NodeId) (j : NodeId) :
    (t.putKind id k).parent j = t.parent j := by
  rw [parent, parent, node?_putKind]
  split
  · cases t.node? j <;> rfl
  · rfl

/-! ## Storing a node -/

@[simp] theorem fst_alloc (k : Kind NodeId) (s : Span) : (t.alloc k s).1 = ⟨t.size⟩ := rfl

@[simp] theorem size_alloc (k : Kind NodeId) (s : Span) : (t.alloc k s).2.size = t.size + 1 := by
  have h := size_adopt ⟨t.size⟩ k.children t
  simp only [size] at h
  simp [alloc, size, h]

theorem node?_alloc (k : Kind NodeId) (s : Span) (j : NodeId) :
    (t.alloc k s).2.node? j
      = if j = ⟨t.size⟩ then some ⟨k, s, none⟩ else (t.adopt ⟨t.size⟩ k.children).node? j := by
  have hsize := size_adopt ⟨t.size⟩ k.children t
  have hsize' : (t.adopt ⟨t.size⟩ k.children).nodes.size = t.size := hsize
  have hj : j = ⟨t.size⟩ ↔ j.index = t.size := by
    cases j
    simp
  simp only [alloc, node?, Array.getElem?_push, hsize', hj]

theorem kind_alloc (k : Kind NodeId) (s : Span) (j : NodeId) :
    (t.alloc k s).2.kind j = if j = ⟨t.size⟩ then k else t.kind j := by
  rw [kind_eq, node?_alloc]
  split
  · rfl
  · rw [← kind_eq, kind_adopt]

theorem span_alloc (k : Kind NodeId) (s : Span) (j : NodeId) :
    (t.alloc k s).2.span j = if j = ⟨t.size⟩ then s else t.span j := by
  rw [span_eq, node?_alloc]
  split
  · rfl
  · rw [← span_eq, span_adopt]

theorem parent_alloc (k : Kind NodeId) (s : Span) (j : NodeId) :
    (t.alloc k s).2.parent j
      = if j = ⟨t.size⟩ then none
        else if j ∈ k.children ∧ j.index < t.size then some ⟨t.size⟩ else t.parent j := by
  rw [parent, node?_alloc]
  split
  · rfl
  · exact parent_adopt _ j k.children t

/-! ## Growth

Every operation leaves the root, the line index and the spans of stored nodes as they are. -/

/-- `t'` arises from `t` by operations on the arena: nodes may have been added, and kinds and parents
changed. -/
structure Grows (t t' : Tree) : Prop where
  size_le : t.size ≤ t'.size
  root_eq : t'.root = t.root
  lines_eq : t'.lineStarts = t.lineStarts
  span_eq : ∀ i : NodeId, i.index < t.size → t'.span i = t.span i

namespace Grows

theorem refl (t : Tree) : Grows t t := ⟨Nat.le_refl _, rfl, rfl, fun _ _ => rfl⟩

theorem trans {t t' t'' : Tree} (h : Grows t t') (h' : Grows t' t'') : Grows t t'' where
  size_le := Nat.le_trans h.size_le h'.size_le
  root_eq := h'.root_eq.trans h.root_eq
  lines_eq := h'.lines_eq.trans h.lines_eq
  span_eq := fun i hi =>
    (h'.span_eq i (Nat.lt_of_lt_of_le hi h.size_le)).trans (h.span_eq i hi)

theorem setParent (t : Tree) (p : Option NodeId) (id : NodeId) : Grows t (t.setParent p id) :=
  ⟨(t.size_setParent p id).ge, rfl, rfl, fun i _ => t.span_setParent p id i⟩

theorem adopt (p : NodeId) : ∀ (ids : List NodeId) (t : Tree), Grows t (t.adopt p ids) := by
  intro ids
  induction ids with
  | nil => intro t; exact refl t
  | cons id ids ih => intro t; exact (setParent t (some p) id).trans (ih (t.setParent (some p) id))

theorem putKind (t : Tree) (id : NodeId) (k : Kind NodeId) : Grows t (t.putKind id k) :=
  ⟨(t.size_putKind id k).ge, rfl, rfl, fun i _ => t.span_putKind id k i⟩

theorem alloc (t : Tree) (k : Kind NodeId) (s : Span) : Grows t (t.alloc k s).2 where
  size_le := by simp
  root_eq := (adopt ⟨t.size⟩ k.children t).root_eq
  lines_eq := (adopt ⟨t.size⟩ k.children t).lines_eq
  span_eq := by
    intro i hi
    rw [span_alloc, if_neg]
    rintro rfl
    exact Nat.lt_irrefl _ hi

theorem lineOf_eq {t t' : Tree} (h : Grows t t') {i : NodeId} (hi : i.index < t.size) :
    t'.lineOf i = t.lineOf i := by
  rw [lineOf, lineOf, lineOfOffset, lineOfOffset, h.lines_eq, h.span_eq i hi]

end Grows

end Tree

/-! ## Held programs -/

/-- The notes of the proper parts of a program. -/
def Ast.inner {ι : Type} (a : Ast ι) : List ι := a.kind.children.flatMap Ast.notes

theorem Ast.notes_eq_cons {ι : Type} (a : Ast ι) : a.notes = a.note :: a.inner := a.notes_eq

theorem Ast.mem_notes_of_inner {ι : Type} {a : Ast ι} {i : ι} (h : i ∈ a.inner) : i ∈ a.notes := by
  rw [notes_eq_cons]
  exact List.mem_cons_of_mem _ h

namespace Tree

/-- The program `a`, whose notes are addresses, is stored in `t`. Of the links to parents nothing is
said. -/
inductive Shows (t : Tree) : Ast NodeId → Prop
  | node {i : NodeId} {k : Kind (Ast NodeId)} (stored : i.index < t.size)
      (kind : t.kind i = k.map Ast.note) (parts : ∀ c ∈ k.children, Shows t c) :
      Shows t (.node i k)

theorem length_le_of_stored {t : Tree} {ids : List NodeId} (hnodup : ids.Nodup)
    (hstored : ∀ i ∈ ids, i.index < t.size) : ids.length ≤ t.size := by
  have hindex : (ids.map NodeId.index).Nodup := by
    refine hnodup.map fun i j h => ?_
    cases i
    cases j
    simp_all
  have hsub : (ids.map NodeId.index).toFinset ⊆ Finset.range t.size := by
    intro n hn
    obtain ⟨i, hi, rfl⟩ := List.mem_map.1 (List.mem_toFinset.1 hn)
    exact Finset.mem_range.2 (hstored i hi)
  have hcard := Finset.card_le_card hsub
  rwa [List.toFinset_card_of_nodup hindex, Finset.card_range, List.length_map] at hcard

namespace Shows

variable {t t' : Tree} {a c : Ast NodeId}

theorem kind_eq (h : t.Shows a) : t.kind a.note = a.kind.map Ast.note := by
  cases h with
  | node stored kind parts => exact kind

theorem part (h : t.Shows a) (hc : c ∈ a.kind.children) : t.Shows c := by
  cases h with
  | node stored kind parts => exact parts c hc

theorem stored (h : t.Shows a) : ∀ i ∈ a.notes, i.index < t.size := by
  induction h with
  | node stored kind parts ih =>
      intro i hi
      rw [Ast.notes_node, List.mem_cons, List.mem_flatMap] at hi
      rcases hi with rfl | ⟨c, hc, hi⟩
      · exact stored
      · exact ih c hc i hi

/-- A program stays stored while its nodes keep their kinds. -/
theorem congr (h : t.Shows a) (hsize : t.size ≤ t'.size)
    (hkind : ∀ i ∈ a.notes, t'.kind i = t.kind i) : t'.Shows a := by
  induction h with
  | @node i k stored kind parts ih =>
      refine .node (Nat.lt_of_lt_of_le stored hsize) ?_ fun c hc => ih c hc fun j hj => hkind j ?_
      · rw [hkind i (by simp), kind]
      · exact Ast.notes_subset_of_mem (a := .node i k) hc hj

/-- Reading a stored program gives it back as soon as the depth suffices. -/
theorem unfold_eq (h : t.Shows a) : ∀ depth, a.notes.length ≤ depth → t.unfold depth a.note = a := by
  induction h with
  | @node i k stored kind parts ih =>
      intro depth hdepth
      cases depth with
      | zero => simp at hdepth
      | succ depth =>
          simp only [Ast.notes_node, List.length_cons, Nat.add_le_add_iff_right] at hdepth
          have hparts : ∀ c ∈ k.children, t.unfold depth c.note = c := by
            intro c hc
            refine ih c hc depth (Nat.le_trans (List.Sublist.length_le ?_) hdepth)
            exact List.sublist_flatten_of_mem (List.mem_map.2 ⟨c, hc, rfl⟩)
          rw [unfold, Ast.note_node, kind, Kind.map_map, Kind.map_congr hparts, Kind.map_id]

/-- A stored program in which no address occurs twice is what is read from its top node. -/
theorem reading_eq (h : t.Shows a) (hnodup : a.notes.Nodup) : t.reading a.note = a :=
  h.unfold_eq _ (length_le_of_stored hnodup h.stored)

end Shows

/-- The program `a`, whose notes are addresses, is stored in `t` with all its links. -/
inductive Holds (t : Tree) : Ast NodeId → Prop
  | node {i : NodeId} {k : Kind (Ast NodeId)} (stored : i.index < t.size)
      (kind : t.kind i = k.map Ast.note) (linked : ∀ c ∈ k.children, t.parent c.note = some i)
      (parts : ∀ c ∈ k.children, Holds t c) : Holds t (.node i k)

namespace Holds

variable {t t' : Tree} {a c : Ast NodeId}

theorem shows (h : t.Holds a) : t.Shows a := by
  induction h with
  | node stored kind linked parts ih => exact .node stored kind ih

theorem note_stored (h : t.Holds a) : a.note.index < t.size := by
  cases h with
  | node stored kind linked parts => exact stored

theorem kind_eq (h : t.Holds a) : t.kind a.note = a.kind.map Ast.note := by
  cases h with
  | node stored kind linked parts => exact kind

theorem parent_eq (h : t.Holds a) (hc : c ∈ a.kind.children) : t.parent c.note = some a.note := by
  cases h with
  | node stored kind linked parts => exact linked c hc

theorem part (h : t.Holds a) (hc : c ∈ a.kind.children) : t.Holds c := by
  cases h with
  | node stored kind linked parts => exact parts c hc

theorem stored (h : t.Holds a) : ∀ i ∈ a.notes, i.index < t.size := h.shows.stored

/-- The frame rule: a program stays held when its nodes keep their kinds and its proper parts keep
their parents. -/
theorem congr (h : t.Holds a) (hsize : t.size ≤ t'.size)
    (hkind : ∀ i ∈ a.notes, t'.kind i = t.kind i)
    (hparent : ∀ i ∈ a.inner, t'.parent i = t.parent i) : t'.Holds a := by
  induction h with
  | @node i k stored kind linked parts ih =>
      have hnotes : ∀ c ∈ k.children, ∀ j ∈ c.notes, j ∈ (Ast.node i k).inner :=
        fun c hc j hj => List.mem_flatMap.2 ⟨c, hc, hj⟩
      refine .node (Nat.lt_of_lt_of_le stored hsize) ?_ ?_ ?_
      · rw [hkind i (by simp), kind]
      · intro c hc
        rw [hparent c.note (hnotes c hc _ c.note_mem_notes), linked c hc]
      · intro c hc
        refine ih c hc (fun j hj => hkind j ?_) fun j hj => hparent j (hnotes c hc j ?_)
        · exact Ast.notes_subset_of_mem (a := .node i k) hc hj
        · exact Ast.mem_notes_of_inner hj

end Holds

/-- A held program in which no address occurs twice. -/
structure Held (t : Tree) (a : Ast NodeId) : Prop where
  holds : t.Holds a
  nodup : a.notes.Nodup

namespace Held

variable {t t' : Tree} {a c : Ast NodeId}

/-- A held program is what is read from its top node. -/
theorem reading_eq (h : t.Held a) : t.reading a.note = a := h.holds.shows.reading_eq h.nodup

theorem part (h : t.Held a) (hc : c ∈ a.kind.children) : t.Held c where
  holds := h.holds.part hc
  nodup := by
    have hnodup := h.nodup
    rw [Ast.notes_eq, List.nodup_cons, List.nodup_flatMap] at hnodup
    exact hnodup.2.1 c hc

/-- A program is a label where its top node is stored as one. -/
theorem exists_label {label : String} {b : NodeId} (h : t.Held a)
    (hkind : t.kind a.note = .labeled label b) :
    ∃ body : Ast NodeId, a = .node a.note (.labeled label body) ∧ body.note = b := by
  rw [h.holds.kind_eq] at hkind
  obtain ⟨p, k⟩ := a
  cases k with
  | labeled l body =>
      obtain ⟨rfl, rfl⟩ := Kind.labeled.inj hkind
      exact ⟨body, rfl, rfl⟩
  | _ => cases hkind

theorem note_not_mem_inner (h : t.Held a) : a.note ∉ a.inner := by
  have hnodup := h.nodup
  rw [Ast.notes_eq_cons, List.nodup_cons] at hnodup
  exact hnodup.1

end Held

/-! ## Storing a layer over held parts -/

/-- Lists without a common entry in a list of lists: an entry tells the list it is in. -/
theorem eq_of_nodup_flatMap {α β : Type} {f : α → List β} :
    ∀ {l : List α}, (l.flatMap f).Nodup → ∀ {c d : α} {i : β}, c ∈ l → d ∈ l → i ∈ f c → i ∈ f d →
      c = d := by
  intro l
  induction l with
  | nil => intro _ c d i hc; simp at hc
  | cons x l ih =>
      intro hnodup c d i hc hd hic hid
      rw [List.flatMap_cons, List.nodup_append] at hnodup
      obtain ⟨-, hrest, hdisjoint⟩ := hnodup
      have hrestMem : ∀ y ∈ l, i ∈ f y → i ∈ l.flatMap f := fun y hy hi =>
        List.mem_flatMap.2 ⟨y, hy, hi⟩
      rcases List.mem_cons.1 hc with rfl | hc' <;> rcases List.mem_cons.1 hd with rfl | hd'
      · rfl
      · exact absurd rfl (hdisjoint i hic i (hrestMem d hd' hid))
      · exact absurd rfl (hdisjoint i hid i (hrestMem c hc' hic))
      · exact ih hrest hc' hd' hic hid

/-- The top of one program is no proper part of another when all addresses differ. -/
theorem note_not_mem_inner_of_nodup {as : List (Ast NodeId)} (hnodup : (as.flatMap Ast.notes).Nodup)
    {c d : Ast NodeId} (hc : c ∈ as) (hd : d ∈ as) : d.note ∉ c.inner := by
  intro hmem
  obtain rfl :=
    eq_of_nodup_flatMap hnodup hc hd (Ast.mem_notes_of_inner hmem) d.note_mem_notes
  have hself := (List.nodup_flatMap.1 hnodup).1 c hc
  rw [Ast.notes_eq_cons, List.nodup_cons] at hself
  exact hself.1 hmem

section Storing

variable {t : Tree} {k : Kind (Ast NodeId)} {s : Span} {a : Ast NodeId}

/-- A program whose proper parts are not among the parts of the new layer stays held. -/
theorem Holds.alloc (h : t.Holds a) (hinner : ∀ c ∈ k.children, c.note ∉ a.inner) :
    (t.alloc (k.map Ast.note) s).2.Holds a := by
  have hstored := h.stored
  have hnew : ∀ i ∈ a.notes, i ≠ (⟨t.size⟩ : NodeId) := by
    rintro i hi rfl
    exact Nat.lt_irrefl _ (hstored _ hi)
  refine h.congr (by simp) ?_ ?_
  · intro i hi
    rw [kind_alloc, if_neg (hnew i hi)]
  · intro i hi
    rw [parent_alloc, if_neg (hnew i (Ast.mem_notes_of_inner hi)), if_neg]
    rintro ⟨hmem, -⟩
    rw [Kind.children_map, List.mem_map] at hmem
    obtain ⟨c, hc, rfl⟩ := hmem
    exact hinner c hc hi

/-- A layer stored over held parts without a common address is a held program. -/
theorem held_alloc (hparts : ∀ c ∈ k.children, t.Holds c)
    (hnodup : (k.children.flatMap Ast.notes).Nodup) :
    (t.alloc (k.map Ast.note) s).2.Held (.node ⟨t.size⟩ k) := by
  have hne : ∀ c ∈ k.children, c.note ≠ (⟨t.size⟩ : NodeId) := by
    intro c hc he
    have hlt := (hparts c hc).note_stored
    rw [he] at hlt
    exact Nat.lt_irrefl _ hlt
  refine ⟨.node (by simp) ?_ ?_ ?_, ?_⟩
  · rw [kind_alloc, if_pos rfl]
  · intro c hc
    rw [parent_alloc, if_neg (hne c hc), if_pos]
    refine ⟨?_, (hparts c hc).note_stored⟩
    rw [Kind.children_map]
    exact List.mem_map.2 ⟨c, hc, rfl⟩
  · intro c hc
    exact (hparts c hc).alloc fun d hd => note_not_mem_inner_of_nodup hnodup hc hd
  · rw [Ast.notes_node, List.nodup_cons]
    refine ⟨?_, hnodup⟩
    intro hmem
    obtain ⟨c, hc, hi⟩ := List.mem_flatMap.1 hmem
    exact Nat.lt_irrefl _ ((hparts c hc).stored _ hi)

end Storing

end Tree

end LogLabel.Program
