import LogLabel.Proofs.Program.Arena

set_option autoImplicit false

/-!
# Replacing a node of a held program

`Tree.replaceWithMany` works on the arena. Here its effect is said of the programs that
the arena holds.

* `Kind.swap` is the replacement in the layer that has the replaced part: a statement list
  takes the replacements in its place, and any other slot takes one program that stands
  for them.
* `Tree.replaceWithMany_open`: replacing a part of a layer succeeds, leaves the layer with
  the replacements held, and changes nothing outside of it. The inside of the part need
  not be held any more, so that nodes of it can have been moved into the replacements.
-/

namespace LogLabel.Program

/-! ## The layer with a replaced part -/

namespace Kind

/-- Whether a layer is a statement list, into which several replacements can be spliced. -/
def isList {α : Type} (k : Kind α) : Bool := k.isProgram || k.isBlock

/-- What a layer is apart from its parts; of a statement list also their number is left out. -/
def outline {α : Type} : Kind α → Kind Unit
  | .program _ => .program []
  | .block _ => .block []
  | k => k.map fun _ => ()

/-- The layer of the same shape over other parts, which may be more or fewer in a statement list. -/
def refill {α β : Type} [Inhabited β] (k : Kind α) (parts : List β) : Kind β :=
  match k with
  | .program _ => .program parts
  | .block _ => .block parts
  | k => k.fill parts

/-- The layer with the part at `p` replaced: by `rs` in a statement list, and by `one` in any other
slot. -/
def swap (p : NodeId) (rs : List (Ast NodeId)) (one : Ast NodeId) :
    Kind (Ast NodeId) → Kind (Ast NodeId)
  | .program body => .program (body.flatMap fun c => if c.note = p then rs else [c])
  | .block body => .block (body.flatMap fun c => if c.note = p then rs else [c])
  | k => k.map fun c => if c.note = p then one else c

variable {p : NodeId} {rs : List (Ast NodeId)} {one c : Ast NodeId} {k : Kind (Ast NodeId)}

section Outline

variable {α β γ : Type}

theorem isList_map (f : α → β) (k : Kind α) : (k.map f).isList = k.isList := by
  cases k <;> rfl

theorem outline_of_not_isList {k : Kind α} (h : k.isList = false) :
    k.outline = k.map fun _ => () := by
  cases k <;> first | rfl | simp [isList, isProgram, isBlock] at h

theorem outline_map (f : α → β) (k : Kind α) : (k.map f).outline = k.outline := by
  cases hk : k.isList with
  | false =>
      rw [outline_of_not_isList hk, outline_of_not_isList (by rw [isList_map, hk]), map_map]
  | true => cases k <;> first | rfl | simp [isList, isProgram, isBlock] at hk

theorem isProgram_outline (k : Kind α) : k.outline.isProgram = k.isProgram := by
  cases k <;> rfl

theorem isList_outline (k : Kind α) : k.outline.isList = k.isList := by
  cases k <;> rfl

theorem isBlock_map (f : α → β) (k : Kind α) : (k.map f).isBlock = k.isBlock := by
  cases k <;> rfl

theorem isBlock_outline (k : Kind α) : k.outline.isBlock = k.isBlock := by
  cases k <;> rfl

theorem refill_of_not_isList [Inhabited β] {k : Kind α} (h : k.isList = false) (parts : List β) :
    k.refill parts = k.fill parts := by
  cases k <;> first | rfl | simp [isList, isProgram, isBlock] at h

theorem refill_outline [Inhabited β] (k : Kind α) (parts : List β) :
    k.outline.refill parts = k.refill parts := by
  cases hk : k.isList with
  | false =>
      rw [refill_of_not_isList hk, refill_of_not_isList (by rw [isList_outline, hk]),
        outline_of_not_isList hk, fill_map]
  | true => cases k <;> first | rfl | simp [isList, isProgram, isBlock] at hk

theorem refill_children [Inhabited α] (k : Kind α) : k.refill k.children = k := by
  cases hk : k.isList with
  | false => rw [refill_of_not_isList hk, fill_children]
  | true => cases k <;> first | rfl | simp [isList, isProgram, isBlock] at hk

/-- A layer is its outline together with its parts. -/
theorem eq_refill_of_outline [Inhabited β] {k : Kind α} {k' : Kind β} (h : k'.outline = k.outline) :
    k' = k.refill k'.children := by
  rw [← refill_outline, ← h, refill_outline, refill_children]

end Outline

theorem flatMap_swap_eq_self {as : List (Ast NodeId)} (h : ∀ a ∈ as, a.note ≠ p) :
    (as.flatMap fun c => if c.note = p then rs else [c]) = as := by
  induction as with
  | nil => rfl
  | cons a as ih =>
      rw [List.flatMap_cons, if_neg (h a List.mem_cons_self), ih fun b hb => h b (by simp [hb])]
      rfl

theorem swap_of_not_isList (h : k.isList = false) :
    k.swap p rs one = k.map fun c => if c.note = p then one else c := by
  cases k <;> first | rfl | simp [isList, isProgram, isBlock] at h

theorem outline_swap : (k.swap p rs one).outline = k.outline := by
  cases hk : k.isList with
  | false => rw [swap_of_not_isList hk, outline_map]
  | true => cases k <;> first | rfl | simp [isList, isProgram, isBlock] at hk

/-- A single replacement takes the place of the part in every layer. -/
theorem swap_single : k.swap p [one] one = k.map fun c => if c.note = p then one else c := by
  have hlist : ∀ body : List (Ast NodeId),
      (body.flatMap fun c => if c.note = p then [one] else [c])
        = body.map fun c => if c.note = p then one else c := by
    intro body
    rw [List.map_eq_flatMap]
    refine List.flatMap_congr fun c _ => ?_
    split <;> rfl
  cases k <;> simp [swap, map, hlist]

/-- The parts of the layer after the replacement. -/
theorem children_swap {before after : List (Ast NodeId)} (hk : k.children = before ++ c :: after)
    (hb : ∀ a ∈ before, a.note ≠ c.note) (ha : ∀ a ∈ after, a.note ≠ c.note) :
    (k.swap c.note rs one).children = before ++ (if k.isList then rs else [one]) ++ after := by
  cases hl : k.isList with
  | false =>
      have hkeep : ∀ l : List (Ast NodeId), (∀ a ∈ l, a.note ≠ c.note) →
          (l.map fun a => if a.note = c.note then one else a) = l := by
        intro l h
        have hsame : ∀ a ∈ l, (if a.note = c.note then one else a) = a := fun a ha => if_neg (h a ha)
        rw [List.map_congr_left hsame, List.map_id']
      rw [swap_of_not_isList hl, children_map, hk, List.map_append, List.map_cons, hkeep before hb,
        hkeep after ha]
      simp
  | true =>
      cases k <;> simp_all [isList, isProgram, isBlock, swap, children, flatMap_swap_eq_self]

end Kind

namespace Tree

/-- The one program that stands for several in a single slot of `t`. -/
def gathered (t : Tree) : List (Ast NodeId) → Ast NodeId
  | [] => .node ⟨t.size⟩ .empty
  | [r] => r
  | rs => .node ⟨t.size⟩ (.block rs)

theorem notes_gathered {t : Tree} {rs : List (Ast NodeId)} {i : NodeId}
    (hi : i ∈ (t.gathered rs).notes) : i ∈ rs.flatMap Ast.notes ∨ t.size ≤ i.index := by
  have hlayer : ∀ layer : Kind (Ast NodeId), layer.children = rs →
      i ∈ (Ast.node ⟨t.size⟩ layer).notes → i ∈ rs.flatMap Ast.notes ∨ t.size ≤ i.index := by
    intro layer hl hi
    rw [Ast.notes_node, List.mem_cons, hl] at hi
    rcases hi with rfl | hi
    · exact Or.inr (Nat.le_refl _)
    · exact Or.inl hi
  match rs, hi, hlayer with
  | [], hi, hlayer => exact hlayer .empty rfl hi
  | [r], hi, _ => exact Or.inl (by simpa [gathered] using hi)
  | r :: r' :: rs, hi, hlayer => exact hlayer (.block (r :: r' :: rs)) rfl hi

theorem splice?_map {c : Ast NodeId} (rs : List (Ast NodeId)) :
    ∀ {before after : List (Ast NodeId)}, (∀ a ∈ before, a.note ≠ c.note) →
      splice? c.note (rs.map Ast.note) ((before ++ c :: after).map Ast.note)
        = some ((before ++ rs ++ after).map Ast.note) := by
  intro before after h
  induction before with
  | nil => simp [splice?]
  | cons b before ih =>
      have hb : b.note ≠ c.note := h b List.mem_cons_self
      have hrest := ih fun a ha => h a (List.mem_cons_of_mem _ ha)
      rw [List.cons_append, List.map_cons, splice?, if_neg hb, hrest]
      simp

theorem spliceKind?_eq_none {k : Kind NodeId} (h : k.isList = false) (p : NodeId)
    (rs : List NodeId) : spliceKind? p rs k = none := by
  cases k <;> first | rfl | simp [Kind.isList, Kind.isProgram, Kind.isBlock] at h

/-- The statements of a list after a replacement. -/
theorem spliceKind?_swap {k : Kind (Ast NodeId)} {c : Ast NodeId} {before after : List (Ast NodeId)}
    (hlist : k.isList = true) (hk : k.children = before ++ c :: after)
    (hb : ∀ a ∈ before, a.note ≠ c.note) (ha : ∀ a ∈ after, a.note ≠ c.note)
    (rs : List (Ast NodeId)) (one : Ast NodeId) :
    spliceKind? c.note (rs.map Ast.note) (k.map Ast.note)
      = some ((k.swap c.note rs one).map Ast.note) := by
  have hsplice : splice? c.note (rs.map Ast.note) ((before ++ c :: after).map Ast.note)
      = some ((before ++ rs ++ after).map Ast.note) := splice?_map rs hb
  have hparts : (k.swap c.note rs one).children = before ++ rs ++ after := by
    rw [Kind.children_swap hk hb ha, hlist, if_pos rfl]
  cases k with
  | program body => simp_all [Kind.children, Kind.swap, Kind.map, spliceKind?]
  | block body => simp_all [Kind.children, Kind.swap, Kind.map, spliceKind?]
  | _ => simp [Kind.isList, Kind.isProgram, Kind.isBlock] at hlist

/-- In any other layer a replacement changes the address in the slot. -/
theorem map_note_swap {k : Kind (Ast NodeId)} (hlist : k.isList = false) (p : NodeId)
    (rs : List (Ast NodeId)) (one : Ast NodeId) :
    (k.map Ast.note).map (fun id => if id = p then one.note else id)
      = (k.swap p rs one).map Ast.note := by
  rw [Kind.swap_of_not_isList hlist, Kind.map_map, Kind.map_map]
  refine Kind.map_congr fun a _ => ?_
  split <;> rfl

section Siblings

variable {q : NodeId} {k : Kind (Ast NodeId)} {c : Ast NodeId} {before after : List (Ast NodeId)}

/-- The siblings of a part share no address with it, nor with the layer itself. -/
theorem sibling_ne (h : (Ast.node q k).notes.Nodup) (hk : k.children = before ++ c :: after)
    {i : NodeId} (hi : i ∈ (before ++ after).flatMap Ast.notes) : i ≠ q ∧ i ∉ c.notes := by
  rw [Ast.notes_node, List.nodup_cons, hk] at h
  simp only [List.flatMap_append, List.flatMap_cons, List.nodup_append, List.mem_append] at h hi
  obtain ⟨hq, -, ⟨-, -, hca⟩, hba⟩ := h
  refine ⟨?_, fun hc => ?_⟩
  · rintro rfl
    exact hq (hi.imp_right Or.inr)
  · rcases hi with hi | hi
    · exact hba i hi i (Or.inl hc) rfl
    · exact hca i hc i hi rfl

theorem sibling_note_ne (h : (Ast.node q k).notes.Nodup) (hk : k.children = before ++ c :: after) :
    ∀ a ∈ before ++ after, a.note ≠ c.note := by
  intro a ha he
  refine (sibling_ne h hk (List.mem_flatMap.2 ⟨a, ha, a.note_mem_notes⟩)).2 ?_
  rw [he]
  exact c.note_mem_notes

theorem mem_notes_of_sibling (hk : k.children = before ++ c :: after) {i : NodeId}
    (hi : i ∈ (before ++ after).flatMap Ast.notes) : i ∈ (Ast.node q k).notes := by
  rw [Ast.notes_node, hk]
  simp only [List.flatMap_append, List.flatMap_cons, List.mem_append, List.mem_cons] at hi ⊢
  exact Or.inr (hi.imp_right Or.inr)

/-- The address of a layer is not below it. -/
theorem layer_not_mem_part (h : (Ast.node q k).notes.Nodup) (hc : c ∈ k.children) : q ∉ c.notes := by
  rw [Ast.notes_node, List.nodup_cons] at h
  exact fun hmem => h.1 (List.mem_flatMap.2 ⟨c, hc, hmem⟩)

/-- The parts of a layer without repeated addresses after a replacement. -/
theorem children_swap_of_nodup (h : (Ast.node q k).notes.Nodup)
    (hk : k.children = before ++ c :: after) (rs : List (Ast NodeId)) (one : Ast NodeId) :
    (k.swap c.note rs one).children = before ++ (if k.isList then rs else [one]) ++ after :=
  Kind.children_swap hk (fun a ha => sibling_note_ne h hk a (List.mem_append_left _ ha)) fun a ha =>
    sibling_note_ne h hk a (List.mem_append_right _ ha)

/-- Programs that share no address with the layer and the siblings may take the place of a part. -/
theorem nodup_of_parts {k' : Kind (Ast NodeId)} {stand : List (Ast NodeId)}
    (h : (Ast.node q k).notes.Nodup) (hk : k.children = before ++ c :: after)
    (hk' : k'.children = before ++ stand ++ after) (hnodup : (stand.flatMap Ast.notes).Nodup)
    (hplace : ∀ i ∈ stand.flatMap Ast.notes, i ≠ q ∧ i ∉ (before ++ after).flatMap Ast.notes) :
    (Ast.node q k').notes.Nodup := by
  rw [Ast.notes_node, List.nodup_cons, hk] at h
  simp only [List.flatMap_append, List.flatMap_cons, List.nodup_append, List.mem_append] at h
  obtain ⟨hq, hbefore, ⟨-, hafter, -⟩, hba⟩ := h
  rw [Ast.notes_node, List.nodup_cons, hk']
  simp only [List.flatMap_append, List.nodup_append, List.mem_append] at hplace ⊢
  refine ⟨?_, ⟨hbefore, hnodup, ?_⟩, hafter, ?_⟩
  · rintro ((hi | hi) | hi)
    · exact hq (Or.inl hi)
    · exact (hplace q hi).1 rfl
    · exact hq (Or.inr (Or.inr hi))
  · rintro i hi _ hj rfl
    exact (hplace i hj).2 (Or.inl hi)
  · rintro i (hi | hi) _ hj rfl
    · exact hba i hi i (Or.inr hj) rfl
    · exact (hplace i hi).2 (Or.inr hj)

/-- The nodes of a layer after a replacement. -/
theorem mem_notes_swap {t : Tree} {rs : List (Ast NodeId)} (h : (Ast.node q k).notes.Nodup)
    (hc : c ∈ k.children) {i : NodeId}
    (hi : i ∈ (Ast.node q (k.swap c.note rs (t.gathered rs))).notes) :
    i ∈ (Ast.node q k).notes ∨ i ∈ rs.flatMap Ast.notes ∨ t.size ≤ i.index := by
  obtain ⟨before, after, hk⟩ := List.append_of_mem hc
  have hstand : ∀ i ∈ (if k.isList then rs else [t.gathered rs]).flatMap Ast.notes,
      i ∈ rs.flatMap Ast.notes ∨ t.size ≤ i.index := by
    intro i hi
    split at hi
    · exact Or.inl hi
    · rw [List.flatMap_singleton] at hi
      exact notes_gathered hi
  rw [Ast.notes_node, children_swap_of_nodup h hk rs (t.gathered rs)] at hi
  simp only [List.flatMap_append, List.mem_append, List.mem_cons] at hi
  rcases hi with rfl | (hi | hi) | hi
  · exact Or.inl (by simp)
  · exact Or.inl (mem_notes_of_sibling hk (by simp [List.flatMap_append, hi]))
  · exact Or.inr (hstand i hi)
  · exact Or.inl (mem_notes_of_sibling hk (by simp [List.flatMap_append, hi]))

/-- Replacements that come from inside the replaced part, or from outside the layer, share no
address with the rest of the layer. -/
theorem place_ne (h : (Ast.node q k).notes.Nodup) (hk : k.children = before ++ c :: after)
    {i : NodeId} (hi : i ∈ c.inner ∨ i ∉ (Ast.node q k).notes) :
    i ≠ q ∧ i ≠ c.note ∧ i ∉ (before ++ after).flatMap Ast.notes := by
  have hc : c ∈ k.children := by simp [hk]
  have hsub : c.notes ⊆ (Ast.node q k).notes := Ast.notes_subset_of_mem (a := .node q k) hc
  rcases hi with hi | hi
  · have hmem : i ∈ c.notes := Ast.mem_notes_of_inner hi
    refine ⟨?_, ?_, fun hi' => (sibling_ne h hk hi').2 hmem⟩
    · rintro rfl
      exact layer_not_mem_part h hc hmem
    · rintro rfl
      have hpart : c.notes.Nodup := by
        rw [Ast.notes_node, List.nodup_cons, List.nodup_flatMap] at h
        exact h.2.1 c hc
      rw [Ast.notes_eq_cons, List.nodup_cons] at hpart
      exact hpart.1 hi
  · refine ⟨?_, ?_, fun hi' => hi (mem_notes_of_sibling hk hi')⟩
    · rintro rfl
      exact hi (by simp)
    · rintro rfl
      exact hi (hsub c.note_mem_notes)

end Siblings

/-- The layer `k` at `q` is held but for the inside of its part `c`, which may be under change. -/
structure Open (t : Tree) (q : NodeId) (k : Kind (Ast NodeId)) (c : Ast NodeId) : Prop where
  kind_eq : t.kind q = k.map Ast.note
  linked : ∀ d ∈ k.children, t.parent d.note = some q
  parts : ∀ d ∈ k.children, d ≠ c → t.Holds d
  stored : ∀ i ∈ (Ast.node q k).notes, i.index < t.size
  nodup : (Ast.node q k).notes.Nodup

theorem Held.toOpen {t : Tree} {q : NodeId} {k : Kind (Ast NodeId)} (h : t.Held (.node q k))
    (c : Ast NodeId) : Open t q k c :=
  ⟨h.holds.kind_eq, fun _ hd => h.holds.parent_eq hd, fun _ hd _ => h.holds.part hd, h.holds.stored,
    h.nodup⟩

/-- A held layer in which the part `c` gives way to the programs `stand`. -/
theorem held_of_parts {t t' : Tree} {q : NodeId} {k k' : Kind (Ast NodeId)} {c : Ast NodeId}
    {before stand after : List (Ast NodeId)} (h : Open t q k c)
    (hk : k.children = before ++ c :: after) (hk' : k'.children = before ++ stand ++ after)
    (hsize : t.size ≤ t'.size) (hkind : t'.kind q = k'.map Ast.note)
    (hstand : ∀ s ∈ stand, t'.Holds s ∧ t'.parent s.note = some q)
    (hnodup : (stand.flatMap Ast.notes).Nodup)
    (hplace : ∀ i ∈ stand.flatMap Ast.notes, i ≠ q ∧ i ∉ (before ++ after).flatMap Ast.notes)
    (hrest : ∀ i ∈ (before ++ after).flatMap Ast.notes,
      t'.kind i = t.kind i ∧ t'.parent i = t.parent i) : t'.Held (.node q k') := by
  have hmem : ∀ a ∈ before ++ after, a ∈ k.children := by
    intro a ha
    rw [hk]
    rcases List.mem_append.1 ha with ha | ha <;> simp [ha]
  have hsibling : ∀ a ∈ before ++ after, t'.Holds a ∧ t'.parent a.note = some q := by
    intro a ha
    have hnotes : ∀ i ∈ a.notes, i ∈ (before ++ after).flatMap Ast.notes :=
      fun i hi => List.mem_flatMap.2 ⟨a, ha, hi⟩
    have hne : a ≠ c := by
      rintro rfl
      exact sibling_note_ne h.nodup hk a ha rfl
    refine ⟨(h.parts a (hmem a ha) hne).congr hsize (fun i hi => (hrest i (hnotes i hi)).1) fun i hi => ?_, ?_⟩
    · exact (hrest i (hnotes i (Ast.mem_notes_of_inner hi))).2
    · rw [(hrest _ (hnotes _ a.note_mem_notes)).2]
      exact h.linked a (hmem a ha)
  have hall : ∀ a ∈ k'.children, t'.Holds a ∧ t'.parent a.note = some q := by
    intro a ha
    rw [hk', List.mem_append, List.mem_append] at ha
    rcases ha with (ha | ha) | ha
    · exact hsibling a (List.mem_append_left _ ha)
    · exact hstand a ha
    · exact hsibling a (List.mem_append_right _ ha)
  exact ⟨.node (Nat.lt_of_lt_of_le (h.stored q (by simp)) hsize) hkind (fun a ha => (hall a ha).2)
    fun a ha => (hall a ha).1, nodup_of_parts h.nodup hk hk' hnodup hplace⟩

/-- What a successful replacement of the part `c` of a held layer by the programs `rs` leaves. -/
structure Replaced (t t' : Tree) (q : NodeId) (k : Kind (Ast NodeId)) (c : Ast NodeId)
    (rs : List (Ast NodeId)) : Prop extends Grows t t' where
  held : t'.Held (.node q (k.swap c.note rs (t.gathered rs)))
  detached : t'.parent c.note = none
  top : t'.parent q = t.parent q
  frame : ∀ i : NodeId, i.index < t.size → i ∉ (Ast.node q k).notes → i ∉ rs.flatMap Ast.notes →
    t'.kind i = t.kind i ∧ t'.parent i = t.parent i
  size_le' : t'.size ≤ t.size + 1
  new_span : ∀ i : NodeId, t.size ≤ i.index → i.index < t'.size → t'.span i = t.span c.note

/-- What a replacement by the programs `rs` may do before its last edit: only the replacements and at
most one new node have changed. -/
structure Prepared (t t' : Tree) (span : Span) (rs : List (Ast NodeId)) : Prop
    extends Grows t t' where
  size_le' : t'.size ≤ t.size + 1
  kind_eq : ∀ i : NodeId, i.index < t.size → t'.kind i = t.kind i
  parent_eq : ∀ i : NodeId, i.index < t.size → i ∉ rs.flatMap Ast.notes → t'.parent i = t.parent i
  new_span : ∀ i : NodeId, t.size ≤ i.index → i.index < t'.size → t'.span i = span

theorem Prepared.refl (t : Tree) (span : Span) (rs : List (Ast NodeId)) : Prepared t t span rs :=
  ⟨.refl t, Nat.le_succ _, fun _ _ => rfl, fun _ _ _ => rfl, fun _ hi hi' =>
    absurd hi' (Nat.not_lt.2 hi)⟩

/-- The last edit of a replacement: the layer `k` is written at `q`, the programs `stand` become parts
of it, and `c` is cut off. -/
def seat (t : Tree) (q : NodeId) (k : Kind (Ast NodeId)) (c : NodeId) (stand : List (Ast NodeId)) :
    Tree :=
  ((t.putKind q (k.map Ast.note)).adopt q (stand.map Ast.note)).setParent none c

section Seat

variable {t t₁ : Tree} {q : NodeId} {k k' : Kind (Ast NodeId)} {c : Ast NodeId} {i p : NodeId}
  {rs before stand after : List (Ast NodeId)}

@[simp] theorem size_seat : (t.seat q k p stand).size = t.size := by
  rw [seat, size_setParent, size_adopt, size_putKind]

@[simp] theorem span_seat : (t.seat q k p stand).span i = t.span i := by
  rw [seat, span_setParent, span_adopt, span_putKind]

theorem kind_seat (hq : q.index < t.size) :
    (t.seat q k p stand).kind i = if i = q then k.map Ast.note else t.kind i := by
  rw [seat, kind_setParent, kind_adopt, kind_putKind]
  simp [hq]

theorem parent_seat (hp : p.index < t.size) :
    (t.seat q k p stand).parent i = if i = p then none
      else if i ∈ stand.map Ast.note ∧ i.index < t.size then some q else t.parent i := by
  rw [seat, parent_setParent, size_adopt, size_putKind, parent_adopt, size_putKind, parent_putKind]
  simp [hp]

theorem grows_seat : Grows t (t.seat q k p stand) :=
  ((Grows.putKind _ _ _).trans (Grows.adopt _ _ _)).trans (Grows.setParent _ _ _)

/-- Programs that are held stay so when they become parts of the layer. -/
theorem holds_seat (hq : q.index < t.size) (hp : p.index < t.size)
    (hnodup : (stand.flatMap Ast.notes).Nodup) (hapart : ∀ i ∈ stand.flatMap Ast.notes, i ≠ q ∧ i ≠ p)
    {s : Ast NodeId} (hs : s ∈ stand) (hholds : t.Holds s) :
    (t.seat q k p stand).Holds s ∧ (t.seat q k p stand).parent s.note = some q := by
  have hmem : ∀ i ∈ s.notes, i ∈ stand.flatMap Ast.notes :=
    fun i hi => List.mem_flatMap.2 ⟨s, hs, hi⟩
  refine ⟨hholds.congr grows_seat.size_le (fun i hi => ?_) fun i hi => ?_, ?_⟩
  · rw [kind_seat hq, if_neg (hapart i (hmem i hi)).1]
  · rw [parent_seat hp, if_neg (hapart i (hmem i (Ast.mem_notes_of_inner hi))).2, if_neg]
    rintro ⟨htop, -⟩
    obtain ⟨d, hd, rfl⟩ := List.mem_map.1 htop
    exact note_not_mem_inner_of_nodup hnodup hs hd hi
  · rw [parent_seat hp, if_neg (hapart _ (hmem _ s.note_mem_notes)).2, if_pos]
    exact ⟨List.mem_map.2 ⟨s, hs, rfl⟩, hholds.note_stored⟩

/-- A stored node that is not the layer keeps its kind. -/
theorem Prepared.kind_seat {span : Span} (h : Prepared t t₁ span rs) (hq : q.index < t.size)
    (hi : i.index < t.size) (hne : i ≠ q) : (t₁.seat q k p stand).kind i = t.kind i := by
  rw [Tree.kind_seat (Nat.lt_of_lt_of_le hq h.size_le), if_neg hne, h.kind_eq i hi]

/-- A stored node that is neither cut off nor comes in keeps its parent. -/
theorem Prepared.parent_seat {span : Span} (h : Prepared t t₁ span rs) (hp : p.index < t.size)
    (hnotes : ∀ i ∈ stand.flatMap Ast.notes, i ∈ rs.flatMap Ast.notes ∨ t.size ≤ i.index)
    (hi : i.index < t.size) (hne : i ≠ p) (hrs : i ∉ rs.flatMap Ast.notes) :
    (t₁.seat q k p stand).parent i = t.parent i := by
  rw [Tree.parent_seat (Nat.lt_of_lt_of_le hp h.size_le), if_neg hne, if_neg, h.parent_eq i hi hrs]
  rintro ⟨htop, -⟩
  obtain ⟨s, hs, rfl⟩ := List.mem_map.1 htop
  rcases hnotes _ (List.mem_flatMap.2 ⟨s, hs, s.note_mem_notes⟩) with hmem | hnew
  · exact hrs hmem
  · exact Nat.not_lt.2 hnew hi

/-- Nothing that comes in is the layer, the part that gives way, or in a sibling of it. -/
theorem Open.ne_of_stand (h : Open t q k c) (hk : k.children = before ++ c :: after)
    (hplace : ∀ i ∈ rs.flatMap Ast.notes, i ∈ c.inner ∨ i ∉ (Ast.node q k).notes)
    (hnotes : ∀ i ∈ stand.flatMap Ast.notes, i ∈ rs.flatMap Ast.notes ∨ t.size ≤ i.index) :
    ∀ i ∈ stand.flatMap Ast.notes,
      i ≠ q ∧ i ≠ c.note ∧ i ∉ (before ++ after).flatMap Ast.notes := by
  intro i hi
  rcases hnotes i hi with hi | hnew
  · exact place_ne h.nodup hk (hplace i hi)
  · have hc : c.notes ⊆ (Ast.node q k).notes :=
      Ast.notes_subset_of_mem (a := .node q k) (by simp [hk])
    have hold : ∀ j ∈ (Ast.node q k).notes, i ≠ j := by
      rintro j hj rfl
      exact Nat.not_lt.2 hnew (h.stored i hj)
    exact ⟨hold q (by simp), hold c.note (hc c.note_mem_notes), fun hr =>
      hold i (mem_notes_of_sibling hk hr) rfl⟩

/-- The layer is held with the programs `stand` in the place of `c`. -/
theorem Open.held_seat {span : Span} (h : Open t q k c) (hk : k.children = before ++ c :: after)
    (hplace : ∀ i ∈ rs.flatMap Ast.notes, i ∈ c.inner ∨ i ∉ (Ast.node q k).notes)
    (hk' : k'.children = before ++ stand ++ after) (hnodup : (stand.flatMap Ast.notes).Nodup)
    (hholds : ∀ s ∈ stand, t₁.Holds s)
    (hnotes : ∀ i ∈ stand.flatMap Ast.notes, i ∈ rs.flatMap Ast.notes ∨ t.size ≤ i.index)
    (hprepared : Prepared t t₁ span rs) (hq : q.index < t.size) (hc : c.note.index < t.size) :
    (t₁.seat q k' c.note stand).Held (.node q k') := by
  have hsize := hprepared.size_le
  have hapart := h.ne_of_stand hk hplace hnotes
  refine held_of_parts h hk hk' (hprepared.toGrows.trans grows_seat).size_le
    (by rw [Tree.kind_seat (Nat.lt_of_lt_of_le hq hsize), if_pos rfl]) (fun s hs => ?_) hnodup
    (fun i hi => ⟨(hapart i hi).1, (hapart i hi).2.2⟩) fun i hi => ?_
  · exact holds_seat (Nat.lt_of_lt_of_le hq hsize) (Nat.lt_of_lt_of_le hc hsize) hnodup
      (fun i hi => ⟨(hapart i hi).1, (hapart i hi).2.1⟩) hs (hholds s hs)
  · obtain ⟨hiq, hic⟩ := sibling_ne h.nodup hk hi
    have hrs : i ∉ rs.flatMap Ast.notes := fun hmem => (place_ne h.nodup hk (hplace i hmem)).2.2 hi
    have hlt := h.stored i (mem_notes_of_sibling hk hi)
    refine ⟨hprepared.kind_seat hq hlt hiq, hprepared.parent_seat hc hnotes hlt ?_ hrs⟩
    rintro rfl
    exact hic c.note_mem_notes

end Seat

section Replacement

variable {t : Tree} {q : NodeId} {k : Kind (Ast NodeId)} {c : Ast NodeId} {rs : List (Ast NodeId)}

/-- The last edit completes a replacement. -/
theorem replaced_of_stand {t₁ : Tree} {before stand after : List (Ast NodeId)}
    (h : Open t q k c) (hk : k.children = before ++ c :: after)
    (hplace : ∀ i ∈ rs.flatMap Ast.notes, i ∈ c.inner ∨ i ∉ (Ast.node q k).notes)
    (hstand : (k.swap c.note rs (t.gathered rs)).children = before ++ stand ++ after)
    (hnodup : (stand.flatMap Ast.notes).Nodup) (hholds : ∀ s ∈ stand, t₁.Holds s)
    (hnotes : ∀ i ∈ stand.flatMap Ast.notes, i ∈ rs.flatMap Ast.notes ∨ t.size ≤ i.index)
    (hprepared : Prepared t t₁ (t.span c.note) rs) :
    Replaced t (t₁.seat q (k.swap c.note rs (t.gathered rs)) c.note stand) q k c rs := by
  have hcmem : c ∈ k.children := by simp [hk]
  have hcsub : c.notes ⊆ (Ast.node q k).notes := Ast.notes_subset_of_mem (a := .node q k) hcmem
  have hq : q.index < t.size := h.stored q (by simp)
  have hc : c.note.index < t.size := h.stored _ (hcsub c.note_mem_notes)
  refine ⟨hprepared.toGrows.trans grows_seat, ?_, ?_, ?_, ?_, ?_, ?_⟩
  · exact h.held_seat hk hplace hstand hnodup hholds hnotes hprepared hq hc
  · rw [parent_seat (Nat.lt_of_lt_of_le hc hprepared.size_le), if_pos rfl]
  · refine hprepared.parent_seat hc hnotes hq ?_ fun hmem => ?_
    · rintro rfl
      exact layer_not_mem_part h.nodup hcmem c.note_mem_notes
    · exact (place_ne h.nodup hk (hplace q hmem)).1 rfl
  · intro i hi hlayer hrs
    refine ⟨hprepared.kind_seat hq hi ?_, hprepared.parent_seat hc hnotes hi ?_ hrs⟩
    · rintro rfl
      exact hlayer (by simp)
    · rintro rfl
      exact hlayer (hcsub c.note_mem_notes)
  · rw [size_seat]
    exact hprepared.size_le'
  · intro i hi hi'
    rw [span_seat]
    exact hprepared.new_span i hi (by rwa [size_seat] at hi')

/-- What putting one program in the place of several leaves: the programs may be parts of a new
block, and nothing else has changed. -/
structure Gathered (t t' : Tree) (span : Span) (rs : List (Ast NodeId)) : Prop
    extends Prepared t t' span rs where
  holds : t'.Holds (t.gathered rs)
  nodup : (t.gathered rs).notes.Nodup

/-- A new layer over replacements gathers them. -/
theorem gathered_alloc (layer : Kind (Ast NodeId)) (span : Span) (hrs : ∀ r ∈ rs, t.Holds r)
    (hnodup : (rs.flatMap Ast.notes).Nodup) (hlayer : layer.children = rs)
    (hone : t.gathered rs = .node ⟨t.size⟩ layer) :
    Gathered t (t.alloc (layer.map Ast.note) span).2 span rs := by
  have hold : ∀ i : NodeId, i.index < t.size → i ≠ ⟨t.size⟩ := by
    rintro i hi rfl
    exact Nat.lt_irrefl _ hi
  have hheld : (t.alloc (layer.map Ast.note) span).2.Held (t.gathered rs) := by
    rw [hone]
    exact held_alloc (hlayer ▸ hrs) (hlayer ▸ hnodup)
  refine ⟨⟨Grows.alloc _ _ _, by simp, ?_, ?_, ?_⟩, hheld.holds, hheld.nodup⟩
  · intro i hi
    rw [kind_alloc, if_neg (hold i hi)]
  · intro i hi hne
    rw [parent_alloc, if_neg (hold i hi), if_neg]
    rintro ⟨hmem, -⟩
    rw [Kind.children_map, hlayer] at hmem
    obtain ⟨r, hr, rfl⟩ := List.mem_map.1 hmem
    exact hne (List.mem_flatMap.2 ⟨r, hr, r.note_mem_notes⟩)
  · intro i hi hi'
    rw [size_alloc] at hi'
    have he : i = ⟨t.size⟩ := by
      cases i
      congr 1
      simp only at hi hi'
      omega
    rw [span_alloc, if_pos he]

theorem gather_spec (span : Span) (hrs : ∀ r ∈ rs, t.Holds r)
    (hnodup : (rs.flatMap Ast.notes).Nodup) :
    (t.gather span (rs.map Ast.note)).1 = (t.gathered rs).note ∧
      Gathered t (t.gather span (rs.map Ast.note)).2 span rs := by
  match rs, hrs, hnodup with
  | [], hrs, hnodup => exact ⟨rfl, gathered_alloc .empty span hrs hnodup rfl rfl⟩
  | [r], hrs, hnodup =>
      exact ⟨rfl, .refl t span [r], hrs r (by simp), by simpa [gathered] using hnodup⟩
  | r :: r' :: rs, hrs, hnodup =>
      exact ⟨rfl, gathered_alloc (.block (r :: r' :: rs)) span hrs hnodup rfl rfl⟩

/-- Replacing the part of a layer that is held but for the inside of the part succeeds. The
replacements are held and share no address; they come from inside the replaced part or from outside
the layer. -/
theorem replaceWithMany_open (h : Open t q k c) (hc : c ∈ k.children)
    (hrs : ∀ r ∈ rs, t.Holds r) (hnodup : (rs.flatMap Ast.notes).Nodup)
    (hplace : ∀ i ∈ rs.flatMap Ast.notes, i ∈ c.inner ∨ i ∉ (Ast.node q k).notes) :
    ∃ t', t.replaceWithMany c.note (rs.map Ast.note) = .ok t' ∧ Replaced t t' q k c rs := by
  obtain ⟨before, after, hk⟩ := List.append_of_mem hc
  have hne := sibling_note_ne h.nodup hk
  have hstand := children_swap_of_nodup h.nodup hk rs (t.gathered rs)
  rw [replaceWithMany, h.linked c hc]
  cases hlist : k.isList with
  | true =>
      have hsplice : spliceKind? c.note (rs.map Ast.note) (t.kind q)
          = some ((k.swap c.note rs (t.gathered rs)).map Ast.note) := by
        rw [h.kind_eq]
        exact spliceKind?_swap hlist hk (fun a ha => hne a (List.mem_append_left _ ha))
          (fun a ha => hne a (List.mem_append_right _ ha)) rs _
      simp only [hsplice]
      rw [hlist, if_pos rfl] at hstand
      exact ⟨_, rfl, replaced_of_stand h hk hplace hstand hnodup hrs (fun i hi => Or.inl hi)
        (.refl t _ rs)⟩
  | false =>
      have hsplice : spliceKind? c.note (rs.map Ast.note) (t.kind q) = none := by
        refine spliceKind?_eq_none ?_ _ _
        rw [h.kind_eq, Kind.isList_map, hlist]
      obtain ⟨hone, hgathered⟩ := gather_spec (t.span c.note) hrs hnodup
      have hkind : (t.gather (t.span c.note) (rs.map Ast.note)).2.kind q = k.map Ast.note := by
        rw [hgathered.kind_eq q (h.stored q (by simp)), h.kind_eq]
      have hmem : c.note ∈ (k.map Ast.note).children := by
        rw [Kind.children_map]
        exact List.mem_map.2 ⟨c, hc, rfl⟩
      simp only [hsplice]
      rw [replaceSlot, hkind, if_pos hmem, hone, map_note_swap hlist c.note rs (t.gathered rs)]
      rw [hlist] at hstand
      have hreplaced := replaced_of_stand h hk hplace hstand (by simpa using hgathered.nodup)
        (by simpa using hgathered.holds) (by simpa using fun i => notes_gathered) hgathered.toPrepared
      exact ⟨_, rfl, hreplaced⟩

end Replacement

end Tree

end LogLabel.Program
