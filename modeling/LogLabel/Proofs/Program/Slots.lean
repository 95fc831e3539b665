import LogLabel.Proofs.Program.Layout

set_option autoImplicit false

/-!
# Template slots

The slots of a text are seen in three places: among the captures of its match, in the drafts
that are built from them, and among the nodes of the tree. Each of the three lists them in the
order of the text.

* `Draft.placeholders`: the spans of the slots of a draft, from left to right.
* `Draft.inOrder_placeholders`: they stand one behind the other.
* `Tree.slots`: the nodes of a tree that are slots, in the order in which they were stored.
* `Draft.slotSpans_plantProgram`: storing a program keeps the spans and the order of its slots.
* `Piece.slots`: the spans of the slots of a piece.
-/

namespace LogLabel.Program

/-! ## Slots of drafts -/

/-- Whether the kind is a template slot. -/
def Kind.isPlaceholder {α : Type} : Kind α → Bool
  | .placeholder _ => true
  | _ => false

namespace Kind

variable {α β : Type}

theorem isPlaceholder_map (f : α → β) (k : Kind α) : (k.map f).isPlaceholder = k.isPlaceholder := by
  cases k <;> rfl

theorem isPlaceholder_fill [Inhabited β] (k : Kind α) (parts : List β) :
    (k.fill parts).isPlaceholder = k.isPlaceholder := by
  cases k <;> rfl

end Kind

namespace Draft

/-- Spans of the slots of a node, given those of its parts. -/
def slotSpans (span : Span) (k : Kind (List Span)) : List Span :=
  if k.isPlaceholder then [span] else k.children.flatten

/-- Spans of the slots of a draft, from left to right. -/
def placeholders : Draft → List Span :=
  fold slotSpans fun first rest => first ++ rest.flatMap Prod.snd

theorem placeholders_node (s : Span) (k : Kind Draft) :
    (Draft.node s k).placeholders
      = if k.isPlaceholder then [s] else k.children.flatMap placeholders := by
  rw [placeholders, fold_node, slotSpans, Kind.isPlaceholder_map, Kind.children_map]
  rfl

theorem placeholders_chain (s : Span) (first : Draft) (rest : List (String × Draft)) :
    (Draft.chain s first rest).placeholders
      = (first :: rest.map Prod.snd).flatMap placeholders := by
  rw [placeholders, fold_chain, List.flatMap_map, List.flatMap_cons, List.flatMap_map]

theorem placeholders_ofChain (first : Draft) (links : List (String × Draft)) :
    (ofChain first links).placeholders = (first :: links.map Prod.snd).flatMap placeholders := by
  cases links with
  | nil => simp [ofChain]
  | cons link links => exact placeholders_chain _ _ _

end Draft

/-- The span lies between two offsets. -/
def Span.Between (lo hi : Nat) (s : Span) : Prop := lo ≤ s.start ∧ s.start ≤ s.stop ∧ s.stop ≤ hi

theorem Span.widens_between (s : Span) : Widens Span.Between s :=
  fun hlo hhi h => ⟨Nat.le_trans hlo h.1, h.2.1, Nat.le_trans h.2.2 hhi⟩

namespace Draft

/-- The slots of drafts in order are in order, if those of each draft are. -/
theorem inOrder_flatMap {lo hi : Nat} {ds : List Draft} (h : InOrder Draft.Within lo hi ds)
    (hds : ∀ d ∈ ds, ∀ lo hi, d.Within lo hi → InOrder Span.Between lo hi d.placeholders) :
    InOrder Span.Between lo hi (ds.flatMap placeholders) :=
  (h.imp hds).flatMap Span.widens_between fun _ _ _ hd => hd

/-- The slots of a draft stand one behind the other where the draft does. -/
theorem inOrder_placeholders (d : Draft) :
    ∀ lo hi : Nat, d.Within lo hi → InOrder Span.Between lo hi d.placeholders := by
  induction d using Draft.induction with
  | node s k ih =>
      intro lo hi h
      rw [within_node] at h
      obtain ⟨hlo, hhi, hparts⟩ := h
      rw [placeholders_node]
      split
      · have hle := hparts.le
        exact .singleton (Nat.le_trans hlo (Nat.le_trans hle hhi)) ⟨hlo, hle, hhi⟩
      · exact (inOrder_flatMap hparts ih).widen (fun s _ => s.widens_between) hlo hhi
  | chain s first rest ihfirst ihrest =>
      intro lo hi h
      rw [within_chain] at h
      rw [placeholders_chain]
      exact inOrder_flatMap h.1 (forall_operand ihfirst ihrest)

end Draft

/-! ## Slots of trees -/

namespace Tree

variable {t : Tree}

/-- The nodes of a tree that are template slots, in the order in which they were stored. -/
def slots (t : Tree) : List NodeId :=
  ((List.range t.size).map NodeId.mk).filter fun i => (t.kind i).isPlaceholder

/-- The spans of the slots of a tree. -/
def slotSpans (t : Tree) : List Span := t.slots.map t.span

theorem mem_slots {i : NodeId} : i ∈ t.slots ↔ ∃ name, t.kind i = .placeholder name := by
  have hkind : (t.kind i).isPlaceholder = true ↔ ∃ name, t.kind i = .placeholder name := by
    cases t.kind i <;> simp [Kind.isPlaceholder]
  rw [slots, List.mem_filter, hkind, List.mem_map, and_iff_right_iff_imp]
  rintro ⟨name, hname⟩
  refine ⟨i.index, List.mem_range.2 (Nat.lt_of_not_le fun hle => ?_), rfl⟩
  -- An address outside of the tree reads as an empty statement.
  rw [kind, node?_eq_none t hle] at hname
  cases hname

/-- The slots of a tree with the same kinds. -/
theorem slotSpans_congr {t' : Tree} (hsize : t'.size = t.size)
    (hkind : ∀ i, (t'.kind i).isPlaceholder = (t.kind i).isPlaceholder)
    (hspan : ∀ i, t'.span i = t.span i) : t'.slotSpans = t.slotSpans := by
  rw [slotSpans, slotSpans, slots, slots, hsize]
  simp only [hkind]
  exact List.map_congr_left fun i _ => hspan i

/-- Storing a node adds it to the slots if it is one. -/
theorem slotSpans_alloc (t : Tree) (k : Kind NodeId) (s : Span) :
    (t.alloc k s).2.slotSpans = t.slotSpans ++ if k.isPlaceholder then [s] else [] := by
  have hold : ∀ i ∈ (List.range t.size).map NodeId.mk, i ≠ ⟨t.size⟩ := by
    rintro i hi rfl
    simp at hi
  have hkept : ((List.range t.size).map NodeId.mk).filter
      (fun i => ((t.alloc k s).2.kind i).isPlaceholder) = t.slots := by
    refine List.filter_congr fun i hi => ?_
    rw [kind_alloc, if_neg (hold i hi)]
  have hspans : t.slots.map (t.alloc k s).2.span = t.slotSpans := by
    refine List.map_congr_left fun i hi => ?_
    rw [span_alloc, if_neg (hold i (List.mem_filter.1 hi).1)]
  rw [slotSpans, slots, size_alloc, List.range_succ, List.map_append, List.filter_append, hkept,
    List.map_append, hspans]
  congr 1
  rw [List.map_singleton, List.filter_singleton, kind_alloc, if_pos rfl]
  cases k.isPlaceholder with
  | true => exact congrArg (fun s => [s]) ((span_alloc t k s _).trans (if_pos rfl))
  | false => rfl

/-- The root of a tree is no slot. -/
theorem slotSpans_setProgramBody (ids : List NodeId) {body : List NodeId}
    (hroot : t.kind t.root = .program body) : (t.setProgramBody ids).slotSpans = t.slotSpans := by
  rw [setProgramBody, setKind]
  refine slotSpans_congr ?_ (fun i => ?_) fun i => ?_
  · rw [size_putKind, size_adopt]
  · rw [kind_putKind, kind_adopt]
    split
    · next h => rw [h.1, hroot]; rfl
    · rfl
  · rw [span_putKind, span_adopt]

/-- Storing several programs, one after the other. -/
theorem slotSpans_mapStateList {α β : Type} {f : α → Tree → β × Tree} {g : α → List Span} :
    ∀ (ds : List α), (∀ d ∈ ds, ∀ t, (f d t).2.slotSpans = t.slotSpans ++ g d) → ∀ t,
      (Kind.mapStateList f ds t).2.slotSpans = t.slotSpans ++ ds.flatMap g := by
  intro ds
  induction ds with
  | nil => intro _ t; exact (List.append_nil _).symm
  | cons d ds ih =>
      intro h t
      rw [List.forall_mem_cons] at h
      rw [Kind.mapStateList, ih h.2, h.1, List.flatMap_cons, List.append_assoc]

/-- The operators that join the operands of a chain are no slots. -/
theorem slotSpans_foldState (g : Grouping NodeId) :
    ∀ t : Tree, (g.foldState Draft.plantJoin t).2.slotSpans = t.slotSpans := by
  induction g with
  | leaf i => intro t; rfl
  | branch op l r ihl ihr =>
      intro t
      have hjoin : ∀ a b t, (Draft.plantJoin op a b t).2.slotSpans = t.slotSpans := by
        intro a b t
        exact (slotSpans_alloc _ _ _).trans (List.append_nil _)
      rw [Grouping.foldState, hjoin, ihr, ihl]

end Tree

namespace Draft

/-- Storing a draft adds its slots in their order. -/
theorem slotSpans_plant (d : Draft) :
    ∀ t : Tree, (d.plant t).2.slotSpans = t.slotSpans ++ d.placeholders := by
  induction d using Draft.induction with
  | node s k ih =>
      intro t
      rw [plant, fold_node]
      change (Tree.plantLayer s (k.map plant) t).2.slotSpans = _
      rw [Tree.plantLayer_map, Tree.slotSpans_alloc, Tree.slotSpans_mapStateList _ ih,
        Kind.isPlaceholder_fill, placeholders_node, List.append_assoc]
      cases k with
      | placeholder name => rfl
      | _ => exact congrArg _ (List.append_nil _)
  | chain s first rest ihfirst ihrest =>
      intro t
      rw [plant, fold_chain]
      change (plantChain first.plant (rest.map fun link => (link.1, link.2.plant)) t).2.slotSpans = _
      rw [plantChain, Tree.slotSpans_foldState, plantLinks, Kind.mapStateList_map]
      refine (Tree.slotSpans_mapStateList (g := fun link => link.2.placeholders) rest ihrest _).trans ?_
      rw [ihfirst, placeholders_chain, List.flatMap_cons, List.flatMap_map, List.append_assoc]

/-- The slots of the tree of a text are those of its statements. -/
theorem slotSpans_plantProgram (text : String) (body : List Draft) :
    (plantProgram text body).slotSpans = body.flatMap placeholders := by
  have hplanted := Tree.slotSpans_mapStateList body (fun d _ => d.slotSpans_plant) (Tree.ofText text)
  obtain ⟨_, -, hstored⟩ := Tree.plants_list body (fun d _ => d.plant_stored) (Tree.ofText text)
  have hroot : (Kind.mapStateList plant body (Tree.ofText text)).2.kind
      (Kind.mapStateList plant body (Tree.ofText text)).2.root = .program [] := by
    rw [hstored.growth.root_eq]
    exact hstored.growth.kind_eq ⟨0⟩ Nat.zero_lt_one
  change ((Kind.mapStateList plant body (Tree.ofText text)).2.setProgramBody _).slotSpans = _
  rw [Tree.slotSpans_setProgramBody _ hroot, hplanted]
  rfl

end Draft

/-! ## Slots of pieces -/

namespace Piece

variable {p : Piece} {ps : List Piece} {d d' : Draft} {ds : List Draft}

/-- The spans of the slots of a piece. -/
def slots (p : Piece) : List Span := p.parts.flatMap Draft.placeholders

theorem slots_of_draft? (hd : p.draft? = some d) : p.slots = d.placeholders := by
  rw [slots, parts_of_draft? hd, List.flatMap_singleton]

@[simp] theorem slots_draft (d : Draft) : (draft d).slots = d.placeholders := slots_of_draft? rfl

@[simp] theorem slots_token (r : Rule) (s : Span) (t : String) : (token r s t).slots = [] := by
  cases r with
  | string =>
      rw [slots_of_draft? rfl, stringKind]
      split <;> rfl
  | _ => rfl

@[simp] theorem slots_names (ns : List String) : (names ns).slots = [] := rfl

@[simp] theorem slots_dot (stop : Nat) (name : String) : (dot stop name).slots = [] := rfl

@[simp] theorem slots_superclass (d : Draft) : (superclass d).slots = d.placeholders :=
  List.flatMap_singleton _ _

@[simp] theorem slots_computed (d : Draft) : (computed d).slots = d.placeholders :=
  List.flatMap_singleton _ _

@[simp] theorem slots_index (stop : Nat) (d : Draft) : (index stop d).slots = d.placeholders :=
  List.flatMap_singleton _ _

@[simp] theorem slots_arguments (stop : Nat) (ds : List Draft) :
    (arguments stop ds).slots = ds.flatMap Draft.placeholders := rfl

/-- The slots of a key are those of its piece. -/
theorem slots_key? {key : Key Draft} (h : p.key? = some key) :
    key.children.flatMap Draft.placeholders = p.slots := by
  unfold key? at h
  split at h
  · cases h; exact (slots_token _ _ _).symm
  · cases h; exact (slots_token _ _ _).symm
  · split at h <;> cases h <;> exact (slots_token _ _ _).symm
  · cases h; rfl
  · cases h

theorem slots_mapM (h : ps.mapM draft? = some ds) :
    ps.flatMap slots = ds.flatMap Draft.placeholders := by
  rw [← parts_of_mapM h, List.flatMap_assoc]
  rfl

theorem slots_links? {links : List (String × Draft)} (h : links? ps = some links) :
    ps.flatMap slots = (links.map Prod.snd).flatMap Draft.placeholders := by
  fun_induction links? ps generalizing links with
  | case1 => cases h; rfl
  | case2 s op operand ps d ls hls hd ih =>
      cases h
      simp [slots_of_draft? hd, ih hls]
  | case3 => cases h
  | case4 => cases h

theorem slots_prefixed? {stop : Nat} (h : prefixed? stop ps = some d) :
    ps.flatMap slots = d.placeholders := by
  fun_induction prefixed? stop ps generalizing d with
  | case1 => cases h
  | case2 p => simp [slots_of_draft? h]
  | case3 s op ps hne ih =>
      obtain ⟨e, he, rfl⟩ := Option.map_eq_some_iff.1 h
      rw [List.flatMap_cons, slots_token, List.nil_append, ih he, Draft.placeholders_node]
      split <;> simp [Kind.isPlaceholder, Kind.children]
  | case4 => cases h

theorem slots_suffixed? {start : Nat} (h : suffixed? start d ps = some d') :
    d'.placeholders = d.placeholders ++ ps.flatMap slots := by
  fun_induction suffixed? start d ps with
  | case1 => cases h; simp
  | case2 d stop ds ps ih =>
      rw [ih h, Draft.placeholders_node]
      simp [Kind.isPlaceholder, Kind.children]
  | case3 d stop name ps ih =>
      rw [ih h, Draft.placeholders_node]
      simp [Kind.isPlaceholder, Kind.children, Key.children]
  | case4 d stop e ps ih =>
      rw [ih h, Draft.placeholders_node]
      simp [Kind.isPlaceholder, Kind.children, Key.children]
  | case5 => cases h

end Piece

end LogLabel.Program
