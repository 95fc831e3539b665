import LogLabel.Program.Draft
import LogLabel.Program.Parser
import LogLabel.Proofs.Program.Storing

set_option autoImplicit false

/-!
# Planting

Storing a nested program or a draft in an arena gives a tree that holds it.

* `Ast.plant_stored` and `Draft.plant_stored`: planting stores the program itself, and for
  a draft the program that grouping its operator chains gives.
* `plantProgram_rooted`: the tree of a text is held from its root on, the root has no
  parent, and what is read from it is the program of the drafts.
-/

namespace LogLabel

theorem eq_ok_of_toOption {ε α : Type} {result : Except ε α} {a : α} (h : result.toOption = some a) :
    result = .ok a := by
  cases result with
  | error e => cases h
  | ok a' => exact congrArg _ (Option.some.inj h)

end LogLabel

namespace LogLabel.Program

variable {α β : Type}

/-! ## Recursion over drafts -/

namespace Draft

theorem foldList_eq_map (f : Span → Kind β → β) (g : β → List (String × β) → β) :
    ∀ ds : List Draft, foldList f g ds = ds.map (fold f g)
  | [] => rfl
  | d :: ds => by rw [foldList, foldList_eq_map f g ds, List.map_cons]

theorem foldLinks_eq_map (f : Span → Kind β → β) (g : β → List (String × β) → β) :
    ∀ links : List (String × Draft),
      foldLinks f g links = links.map fun link => (link.1, fold f g link.2)
  | [] => rfl
  | (op, d) :: links => by rw [foldLinks, foldLinks_eq_map f g links, List.map_cons]

theorem fold_node (f : Span → Kind β → β) (g : β → List (String × β) → β) (s : Span)
    (k : Kind Draft) : fold f g (.node s k) = f s (k.map (fold f g)) := by
  have hoption : ∀ o : Option Draft, foldOption f g o = o.map (fold f g) := by
    intro o
    cases o <;> simp [foldOption]
  have hkey : ∀ k : Key Draft, foldKey f g k = k.map (fold f g) := by
    intro k
    cases k <;> simp [foldKey, Key.map]
  rw [fold]
  cases k <;> simp [foldKind, Kind.map, foldList_eq_map, hoption, hkey]

theorem fold_chain (f : Span → Kind β → β) (g : β → List (String × β) → β) (s : Span)
    (first : Draft) (rest : List (String × Draft)) :
    fold f g (.chain s first rest)
      = g (fold f g first) (rest.map fun link => (link.1, fold f g link.2)) := by
  rw [fold, foldLinks_eq_map]

/-- Induction over drafts, with one hypothesis for each direct part. -/
@[elab_as_elim] theorem induction {P : Draft → Prop}
    (node : ∀ (s : Span) (k : Kind Draft), (∀ c ∈ k.children, P c) → P (.node s k))
    (chain : ∀ (s : Span) (first : Draft) (rest : List (String × Draft)), P first →
      (∀ link ∈ rest, P link.2) → P (.chain s first rest)) (d : Draft) : P d := by
  refine @Draft.rec P (fun k => ∀ c ∈ k.children, P c) (fun links => ∀ link ∈ links, P link.2)
    (fun ds => ∀ c ∈ ds, P c) (fun o => ∀ c ∈ o.toList, P c) (fun k => ∀ c ∈ k.children, P c)
    (fun link => P link.2) node chain ?_ ?_ ?_ ?_ ?_ ?_ ?_ ?_ ?_ ?_ ?_ ?_ ?_ ?_ ?_ ?_ ?_ ?_ ?_ ?_ ?_
    ?_ ?_ ?_ ?_ ?_ ?_ ?_ ?_ ?_ ?_ ?_ ?_ ?_ ?_ ?_ ?_ ?_ ?_ ?_ ?_ ?_ ?_ ?_ ?_ ?_ ?_ ?_ d
  all_goals simp +contextual [Kind.children, Key.children, or_imp]

end Draft

/-! ## Grouping of chains -/

namespace Grouping

/-- The same tree over other operands. -/
def map (f : α → β) : Grouping α → Grouping β
  | .leaf a => .leaf (f a)
  | .branch op l r => .branch op (l.map f) (r.map f)

/-- The operands from left to right. -/
def leaves : Grouping α → List α
  | .leaf a => [a]
  | .branch _ l r => l.leaves ++ r.leaves

theorem map_congr {f g : α → β} {x : Grouping α} (h : ∀ a ∈ x.leaves, f a = g a) :
    x.map f = x.map g := by
  induction x with
  | leaf a => rw [map, map, h a (by simp [leaves])]
  | branch op l r ihl ihr =>
      rw [map, map, ihl fun a ha => h a (by simp [leaves, ha]),
        ihr fun a ha => h a (by simp [leaves, ha])]

/-- Grouping does not look at the operands. -/
theorem climb_map (f : α → β) :
    ∀ (fuel floor : Nat) (left : Grouping α) (chain : List (String × α)),
      climb fuel floor (left.map f) (chain.map fun link => (link.1, f link.2))
        = ((climb fuel floor left chain).1.map f,
          (climb fuel floor left chain).2.map fun link => (link.1, f link.2)) := by
  intro fuel
  induction fuel with
  | zero => intro floor left chain; rfl
  | succ fuel ih =>
      intro floor left chain
      cases chain with
      | nil => rfl
      | cons link chain =>
          obtain ⟨op, operand⟩ := link
          simp only [List.map_cons, climb]
          by_cases h : Operator.precedence op < floor
          · simp [h]
          · simp only [h, if_false]
            rw [show (leaf (f operand)) = (leaf operand : Grouping α).map f from rfl, ih]
            exact ih floor (.branch op left _) _

theorem ofChain_map (f : α → β) (first : α) (chain : List (String × α)) :
    ofChain (f first) (chain.map fun link => (link.1, f link.2)) = (ofChain first chain).map f := by
  have h := climb_map f (chain.length + 1) 1 (.leaf first) chain
  rw [ofChain, ofChain, List.length_map]
  exact congrArg Prod.fst h

/-- Climbing keeps the operands in their order; those it does not reach stay in the chain. -/
theorem leaves_climb :
    ∀ (fuel floor : Nat) (left : Grouping α) (chain : List (String × α)),
      (climb fuel floor left chain).1.leaves ++ (climb fuel floor left chain).2.map Prod.snd
        = left.leaves ++ chain.map Prod.snd := by
  intro fuel
  induction fuel with
  | zero => intro floor left chain; rfl
  | succ fuel ih =>
      intro floor left chain
      cases chain with
      | nil => rfl
      | cons link chain =>
          obtain ⟨op, operand⟩ := link
          simp only [climb]
          by_cases h : Operator.precedence op < floor
          · simp [h]
          · simp only [h, if_false]
            rw [ih floor, leaves, List.append_assoc, ih, leaves]
            rfl

/-- The operands that a grouping reaches are operands of the chain. -/
theorem leaves_ofChain_subset (first : α) (chain : List (String × α)) :
    (ofChain first chain).leaves ⊆ first :: chain.map Prod.snd := by
  have hleaves := leaves_climb (chain.length + 1) 1 (.leaf first) chain
  intro a ha
  have hmem := List.mem_append_left ((climb (chain.length + 1) 1 (.leaf first) chain).2.map Prod.snd) ha
  rw [ofChain, hleaves] at hmem
  exact hmem

end Grouping

/-! ## Planting -/

namespace Tree

/-- Planting stores the given program, whatever is already in the tree. -/
def Plants (plant : Planting) (x : Ast Span) : Prop :=
  ∀ t : Tree, ∃ a : Ast NodeId, a.note = (plant t).1 ∧ Stored t (plant t).2 [] [a] [x]

/-- Planting several programs from left to right. -/
theorem plants_list {σ : Type} {plant : σ → Planting} {program : σ → Ast Span} :
    ∀ (ds : List σ), (∀ d ∈ ds, Plants (plant d) (program d)) → ∀ t : Tree,
      ∃ as : List (Ast NodeId), as.map Ast.note = (Kind.mapStateList plant ds t).1 ∧
        Stored t (Kind.mapStateList plant ds t).2 [] as (ds.map program) := by
  intro ds
  induction ds with
  | nil => intro _ t; exact ⟨[], rfl, .nil t⟩
  | cons d ds ih =>
      intro h t
      obtain ⟨a, ha, hstored⟩ := h d List.mem_cons_self t
      obtain ⟨as, has, hrest⟩ := ih (fun e he => h e (List.mem_cons_of_mem _ he)) (plant d t).2
      refine ⟨a :: as, ?_, hstored.append_new hrest⟩
      simp [Kind.mapStateList, ha, has]

/-- Planting a layer is planting its parts from left to right, and then storing the layer. -/
theorem plantLayer_map {σ : Type} (plant : σ → Planting) (s : Span) (k : Kind σ) (t : Tree) :
    plantLayer s (k.map plant) t
      = (Kind.mapStateList plant k.children t).2.alloc
          (k.fill (Kind.mapStateList plant k.children t).1) s := by
  rw [plantLayer, Kind.mapState_eq, Kind.children_map, Kind.mapStateList_map, Kind.fill_map]

/-- Planting a layer from plantings of its parts. -/
theorem plants_layer {σ : Type} {plant : σ → Planting} {program : σ → Ast Span} (s : Span)
    (k : Kind σ) (h : ∀ d ∈ k.children, Plants (plant d) (program d)) :
    Plants (plantLayer s (k.map plant)) (.node s (k.map program)) := by
  intro t
  obtain ⟨as, has, hstored⟩ := plants_list k.children h t
  have hlength : as.length = k.children.length := by
    have := congrArg List.length has
    simpa [Kind.length_mapStateList] using this
  have hlayer := plantLayer_map plant s k t
  rw [← has] at hlayer
  have hfill := hstored.fill s hlength
  rw [Kind.fill_children_map, ← hlayer] at hfill
  refine ⟨_, ?_, hfill⟩
  rw [hlayer]
  rfl

theorem grows_foldState :
    ∀ (g : Grouping NodeId) (t : Tree), Grows t (g.foldState Draft.plantJoin t).2 := by
  intro g
  induction g with
  | leaf id => intro t; exact .refl t
  | branch op l r ihl ihr =>
      intro t
      exact ((ihl t).trans (ihr _)).trans (Grows.alloc _ _ _)

/-- Joining operands that are stored side by side, along a tree of operators. -/
theorem stored_foldState {t : Tree} :
    ∀ (g : Grouping (Ast NodeId)) (t' : Tree) (as bs : List (Ast NodeId)) (xs : List (Ast Span)),
      Stored t t' [] (as ++ g.leaves ++ bs) xs →
        ∃ (a : Ast NodeId) (ys : List (Ast Span)),
          a.note = ((g.map Ast.note).foldState Draft.plantJoin t').1 ∧
          Stored t ((g.map Ast.note).foldState Draft.plantJoin t').2 [] (as ++ [a] ++ bs) ys ∧
          a.mapNotes ((g.map Ast.note).foldState Draft.plantJoin t').2.span
            = (g.map (Ast.mapNotes t'.span)).fold Draft.join := by
  intro g
  induction g with
  | leaf a => intro t' as bs xs h; exact ⟨a, xs, rfl, h, rfl⟩
  | branch op l r ihl ihr =>
      intro t' as bs xs h
      obtain ⟨a, _, ha, hl, hal⟩ :=
        ihl t' as (r.leaves ++ bs) xs (by simpa [Grouping.leaves] using h)
      have hgrows := grows_foldState (l.map Ast.note) t'
      have hfold : ((Grouping.branch op l r).map Ast.note).foldState Draft.plantJoin t'
          = Draft.plantJoin op ((l.map Ast.note).foldState Draft.plantJoin t').1
            ((r.map Ast.note).foldState Draft.plantJoin
              ((l.map Ast.note).foldState Draft.plantJoin t').2).1
            ((r.map Ast.note).foldState Draft.plantJoin
              ((l.map Ast.note).foldState Draft.plantJoin t').2).2 := rfl
      rw [hfold]
      generalize (l.map Ast.note).foldState Draft.plantJoin t' = left at ha hl hal hgrows ⊢
      obtain ⟨b, ys, hb, hr, hbr⟩ := ihr left.2 (as ++ [a]) bs _ (by simpa using hl)
      have hgrows' := grows_foldState (r.map Ast.note) left.2
      generalize (r.map Ast.note).foldState Draft.plantJoin left.2 = right at hb hr hbr hgrows' ⊢
      have hr' : Stored t right.2 [] (as ++ (Kind.binary op a b).children ++ bs) ys := by
        simpa [Kind.children] using hr
      have hjoin := hr'.layer ((right.2.span a.note).cover (right.2.span b.note))
      rw [← ha, ← hb, Draft.plantJoin]
      refine ⟨.node ⟨right.2.size⟩ (.binary op a b), _, rfl, hjoin, ?_⟩
      -- Spans do not change once a node is stored, so both operands read as before.
      have ha' : a.mapNotes right.2.span = a.mapNotes left.2.span :=
        hgrows'.mapNotes_span (hl.holds a (by simp))
      have hr'' : r.map (Ast.mapNotes left.2.span) = r.map (Ast.mapNotes t'.span) :=
        Grouping.map_congr fun c hc => hgrows.mapNotes_span (h.holds c (by simp [Grouping.leaves, hc]))
      have hspans := hjoin.spans
      rw [List.map_append, List.map_append] at hspans
      have hnode := (List.append_inj (List.append_inj hspans (by simp)).1 (by simp)).2
      simp only [List.map_cons, List.map_nil, List.cons.injEq, and_true] at hnode
      refine hnode.trans ?_
      have hspan : right.2.span a.note = left.2.span a.note :=
        hgrows'.span_eq _ (hl.holds a (by simp)).note_stored
      rw [hr''] at hbr
      simp [Kind.map, Grouping.map, Grouping.fold, Draft.join, ← hal, ← hbr, ha', hspan]

end Tree

/-- Planting a nested program stores it. -/
theorem Ast.plant_stored (x : Ast Span) : Tree.Plants x.plant x := by
  induction x using Ast.induction with
  | node s k ih =>
      have hplant : (Ast.node s k).plant = Tree.plantLayer s (k.map Ast.plant) := fold_node _ s k
      rw [hplant]
      have h : Tree.Plants _ (.node s (k.map fun x => x)) := Tree.plants_layer s k ih
      rwa [Kind.map_id] at h

namespace Draft

theorem resolve_node (s : Span) (k : Kind Draft) :
    (Draft.node s k).resolve = .node s (k.map resolve) :=
  fold_node _ _ s k

theorem resolve_chain (s : Span) (first : Draft) (rest : List (String × Draft)) :
    (Draft.chain s first rest).resolve
      = (Grouping.ofChain first.resolve (rest.map fun link => (link.1, link.2.resolve))).fold join :=
  fold_chain _ _ s first rest

/-- Planting the operands of a chain from left to right. -/
theorem plantLinks_stored :
    ∀ rest : List (String × Draft), (∀ link ∈ rest, Tree.Plants link.2.plant link.2.resolve) →
      ∀ t : Tree, ∃ chain : List (String × Ast NodeId),
        (plantLinks (rest.map fun link => (link.1, link.2.plant)) t).1
          = chain.map (fun link => (link.1, link.2.note)) ∧
        Tree.Stored t (plantLinks (rest.map fun link => (link.1, link.2.plant)) t).2 []
          (chain.map Prod.snd) (rest.map fun link => link.2.resolve) ∧
        chain.map Prod.fst = rest.map Prod.fst := by
  intro rest
  induction rest with
  | nil => intro _ t; exact ⟨[], rfl, .nil t, rfl⟩
  | cons link rest ih =>
      intro h t
      obtain ⟨a, ha, hstored⟩ := h link List.mem_cons_self t
      obtain ⟨chain, hchain, hrest, hops⟩ :=
        ih (fun l hl => h l (List.mem_cons_of_mem _ hl)) (link.2.plant t).2
      simp only [plantLinks] at hchain hrest
      refine ⟨(link.1, a) :: chain, ?_, hstored.append_new hrest, by simp [hops]⟩
      simp [plantLinks, Kind.mapStateList, ha, hchain]

theorem map_pair_eq {γ : Type} {f : α → γ} {g : β → γ} :
    ∀ {l : List (String × α)} {m : List (String × β)}, l.map Prod.fst = m.map Prod.fst →
      (l.map fun p => f p.2) = (m.map fun p => g p.2) →
      (l.map fun p => (p.1, f p.2)) = m.map fun p => (p.1, g p.2)
  | [], [], _, _ => rfl
  | [], _ :: _, h, _ => by simp at h
  | _ :: _, [], h, _ => by simp at h
  | _ :: l, _ :: m, h, h' => by
      simp only [List.map_cons, List.cons.injEq] at h h' ⊢
      exact ⟨by rw [h.1, h'.1], map_pair_eq h.2 h'.2⟩

/-- Planting a draft stores the program that grouping its operator chains gives. -/
theorem plant_stored (d : Draft) : Tree.Plants d.plant d.resolve := by
  induction d using Draft.induction with
  | node s k ih =>
      have hplant : (Draft.node s k).plant = Tree.plantLayer s (k.map plant) := fold_node _ _ s k
      rw [hplant, resolve_node]
      exact Tree.plants_layer s k ih
  | chain s first rest ihfirst ihrest =>
      have hplant : (Draft.chain s first rest).plant
          = plantChain first.plant (rest.map fun link => (link.1, link.2.plant)) :=
        fold_chain _ _ s first rest
      rw [hplant, resolve_chain]
      intro t
      obtain ⟨a, ha, hfirst⟩ := ihfirst t
      obtain ⟨chain, hchain, hrest, hops⟩ := plantLinks_stored rest ihrest (first.plant t).2
      have hall := hfirst.append_new hrest
      -- The operands that the grouping reaches are the front of the stored ones.
      have hleaves := Grouping.leaves_climb (chain.length + 1) 1 (.leaf a) chain
      have hplanted : plantChain first.plant (rest.map fun link => (link.1, link.2.plant)) t
          = ((Grouping.ofChain a chain).map Ast.note).foldState plantJoin
            (plantLinks (rest.map fun link => (link.1, link.2.plant)) (first.plant t).2).2 := by
        rw [plantChain, ← Grouping.ofChain_map, ha, ← hchain]
      generalize plantLinks (rest.map fun link => (link.1, link.2.plant)) (first.plant t).2 = planted
        at hchain hrest hall hplanted
      have hfront : Tree.Stored t planted.2 [] ([] ++ (Grouping.ofChain a chain).leaves ++
          (Grouping.climb (chain.length + 1) 1 (.leaf a) chain).2.map Prod.snd)
          ([first.resolve] ++ rest.map fun link => link.2.resolve) := by
        rw [List.nil_append, Grouping.ofChain, hleaves]
        exact hall
      obtain ⟨b, ys, hb, hjoined, hspans⟩ := Tree.stored_foldState _ _ _ _ _ hfront
      have hoperands : (Grouping.ofChain a chain).map (Ast.mapNotes planted.2.span)
          = Grouping.ofChain first.resolve (rest.map fun link => (link.1, link.2.resolve)) := by
        have hxs := hall.spans
        simp only [List.cons_append, List.nil_append, List.map_cons, List.map_map,
          List.cons.injEq] at hxs
        rw [← Grouping.ofChain_map, hxs.1, map_pair_eq (g := resolve) hops hxs.2]
      rw [hplanted]
      refine ⟨b, hb, ?_⟩
      have hleft := hjoined.left
      have hleft' : Tree.Stored t _ [] [b] _ := Tree.Stored.left (by simpa using hleft)
      simpa [hspans, hoperands] using hleft'

end Draft

/-! ## Whole programs -/

/-- A tree that holds `a` from its root on, the root having no parent. -/
structure Tree.Rooted (t : Tree) (a : Ast NodeId) : Prop extends Tree.Held t a where
  root_eq : a.note = t.root
  root_parent : t.parent t.root = none

theorem Tree.Rooted.program_eq {t : Tree} {a : Ast NodeId} (h : t.Rooted a) : t.program = a := by
  rw [Tree.program, ← h.root_eq, h.toHeld.reading_eq]

/-- The tree of a text is held from its root on, and reads as the program of the drafts. -/
theorem plantProgram_rooted (text : String) (body : List Draft) :
    ∃ a, (Draft.plantProgram text body).Rooted a ∧
      a.mapNotes (Draft.plantProgram text body).span
        = .node ⟨0, text.utf8ByteSize⟩ (.program (body.map Draft.resolve)) := by
  obtain ⟨as, has, hstored⟩ :=
    Tree.plants_list body (fun d _ => d.plant_stored) (Tree.ofText text)
  have hplant : Draft.plantProgram text body
      = (Kind.mapStateList Draft.plant body (Tree.ofText text)).2.setProgramBody (as.map Ast.note) := by
    rw [Draft.plantProgram, has]
  rw [hplant]
  generalize (Kind.mapStateList Draft.plant body (Tree.ofText text)).2 = t at hstored
  have hroot : t.root = ⟨0⟩ := hstored.growth.root_eq
  have hsize : 0 < t.size := Nat.lt_of_lt_of_le Nat.zero_lt_one hstored.growth.size_le
  have hparent : t.parent ⟨0⟩ = none := hstored.growth.parent_eq ⟨0⟩ Nat.zero_lt_one (by simp)
  have hspan : t.span ⟨0⟩ = ⟨0, text.utf8ByteSize⟩ := hstored.growth.span_eq ⟨0⟩ Nat.zero_lt_one
  -- The programs are stored after the root, which is the only node of the fresh tree.
  have hfresh : (⟨0⟩ : NodeId) ∉ as.flatMap Ast.notes := fun hmem =>
    absurd (hstored.fresh _ hmem) (Nat.not_le.2 Nat.zero_lt_one)
  have hkind : ∀ i, (t.setProgramBody (as.map Ast.note)).kind i
      = if i = ⟨0⟩ then .program (as.map Ast.note) else t.kind i := by
    intro i
    rw [Tree.setProgramBody, Tree.setKind, Tree.kind_putKind, Tree.kind_adopt, Tree.size_adopt, hroot]
    simp [hsize]
  have hparents : ∀ i, (t.setProgramBody (as.map Ast.note)).parent i
      = if i ∈ as.map Ast.note ∧ i.index < t.size then some ⟨0⟩ else t.parent i := by
    intro i
    rw [Tree.setProgramBody, Tree.setKind, Tree.parent_putKind, Tree.parent_adopt, hroot]
    rfl
  have hspans : ∀ i, (t.setProgramBody (as.map Ast.note)).span i = t.span i := by
    intro i
    rw [Tree.setProgramBody, Tree.setKind, Tree.span_putKind, Tree.span_adopt]
  have hsize' : (t.setProgramBody (as.map Ast.note)).size = t.size := by
    rw [Tree.setProgramBody, Tree.setKind, Tree.size_putKind, Tree.size_adopt]
  have hroot' : (t.setProgramBody (as.map Ast.note)).root = ⟨0⟩ := by
    rw [Tree.setProgramBody, Tree.setKind, ← hroot]
    exact (Tree.Grows.adopt _ _ _).root_eq
  refine ⟨.node ⟨0⟩ (.program as), ⟨⟨.node ?_ ?_ ?_ ?_, ?_⟩, hroot'.symm, ?_⟩, ?_⟩
  · rw [hsize']
    exact hsize
  · rw [hkind, if_pos rfl]
    rfl
  · intro c hc
    rw [hparents, if_pos ⟨List.mem_map.2 ⟨c, hc, rfl⟩, (hstored.holds c hc).note_stored⟩]
  · intro c hc
    have hnotes : ∀ i ∈ c.notes, i ≠ ⟨0⟩ := by
      rintro i hi rfl
      exact hfresh (List.mem_flatMap.2 ⟨c, hc, hi⟩)
    refine (hstored.holds c hc).congr hsize'.ge ?_ ?_
    · intro i hi
      rw [hkind, if_neg (hnotes i hi)]
    · intro i hi
      rw [hparents, if_neg]
      rintro ⟨htop, -⟩
      obtain ⟨d, hd, rfl⟩ := List.mem_map.1 htop
      exact Tree.note_not_mem_inner_of_nodup hstored.nodup hc hd hi
  · rw [Ast.notes_node, List.nodup_cons]
    exact ⟨hfresh, hstored.nodup⟩
  · rw [hroot', hparents, if_neg, hparent]
    rintro ⟨htop, -⟩
    obtain ⟨d, hd, he⟩ := List.mem_map.1 htop
    exact hfresh (List.mem_flatMap.2 ⟨d, hd, he ▸ d.note_mem_notes⟩)
  · have hparts : as.map (Ast.mapNotes (t.setProgramBody (as.map Ast.note)).span)
        = body.map Draft.resolve := by
      rw [← hstored.spans]
      exact List.map_congr_left fun a _ => a.mapNotes_congr fun i _ => hspans i
    rw [Ast.mapNotes_node, hspans, hspan, Kind.map, hparts]

/-- Reading a text gives a tree that is held from its root on and reads as the program of the
text. -/
theorem parse_rooted {mode : Mode} {text : String} {t : Tree} (h : parse mode text = .ok t) :
    ∃ (body : List Draft) (a : Ast NodeId), draftsIn mode text = .ok body ∧ t.Rooted a ∧
      a.mapNotes t.span = .node ⟨0, text.utf8ByteSize⟩ (.program (body.map Draft.resolve)) := by
  rw [parse] at h
  cases hdrafts : draftsIn mode text with
  | error d => rw [hdrafts] at h; exact absurd h (by simp [Except.map])
  | ok body =>
      rw [hdrafts] at h
      obtain rfl := Except.ok.inj h
      obtain ⟨a, hrooted, hspans⟩ := plantProgram_rooted text body
      exact ⟨body, a, rfl, hrooted, hspans⟩

/-- A text with a label is read. -/
theorem exists_parse_label : ∃ t : Tree, parse .source "info:a" = .ok t := by
  have hok : (parse .source "info:a").toOption.isSome = true := by decide +kernel
  obtain ⟨t, ht⟩ := Option.isSome_iff_exists.1 hok
  exact ⟨t, eq_ok_of_toOption ht⟩

end LogLabel.Program
