import LogLabel.Proofs.Program.Layout

set_option autoImplicit false

/-!
# Paths in a tree that was read

The tree of a text has no node to spare, and its order can be read off the addresses and the
spans.

* `Tree.Builds t n t'`: storing `n` nodes leads from `t` to `t'`, each one over nodes that were
  there before. Then addresses rise from the parts to the nodes (`Tree.Builds.rises`).
* `Draft.stores_plant`: planting a draft stores one node for each node of its program.
* `Tree.follow t i path`: the node that is reached from `i` along positions of parts.
* `Tree.Held.existsUnique_follow`: in a held program one path leads to each node.
* `parse_laidOut`: the tree of a text is `Tree.LaidOut`.
-/

namespace LogLabel.Program

variable {α β : Type}

namespace Tree

/-! ## Storing node after node -/

/-- Storing `n` nodes, each one over nodes that are there, leads from `t` to the tree. -/
inductive Builds (t : Tree) : Nat → Tree → Prop
  | refl : Builds t 0 t
  | alloc {n : Nat} {t' : Tree} {k : Kind NodeId} (s : Span) : Builds t n t' →
      (∀ c ∈ k.children, c.index < t'.size) → Builds t (n + 1) (t'.alloc k s).2

/-- Every node but the root comes after its parts. -/
def Rises (t : Tree) : Prop :=
  ∀ i : NodeId, i ≠ t.root → ∀ c ∈ (t.kind i).children, c.index < i.index

namespace Builds

variable {t t' t'' : Tree} {n m : Nat}

theorem trans (h : Builds t n t') (h' : Builds t' m t'') : Builds t (n + m) t'' := by
  induction h' with
  | refl => exact h
  | alloc s _ hparts ih => exact .alloc s ih hparts

theorem size_eq (h : Builds t n t') : t'.size = t.size + n := by
  induction h with
  | refl => rfl
  | alloc s _ _ ih => rw [size_alloc, ih, Nat.add_assoc]

theorem lt_size (h : Builds t n t') {i : NodeId} (hi : i.index < t.size) : i.index < t'.size := by
  rw [h.size_eq]
  exact Nat.lt_add_right n hi

theorem rises (h : Builds t n t') (ht : t.Rises) : t'.Rises := by
  induction h with
  | refl => exact ht
  | @alloc n t' k s h hparts ih =>
      intro i hi c hc
      -- The new node has the next address; the nodes before it keep their parts.
      rw [(Grows.alloc t' k s).root_eq] at hi
      rw [kind_alloc] at hc
      split at hc
      · next hnew =>
          rw [hnew]
          exact hparts c hc
      · exact ih i hi c hc

end Builds

/-- The action stores `n` nodes, and what it gives is at an address of the tree it leaves. -/
def Stores (address : β → NodeId) (action : Tree → β × Tree) (n : Nat) : Prop :=
  ∀ t : Tree, Builds t n (action t).2 ∧ (address (action t).1).index < (action t).2.size

/-- Actions one after the other. -/
theorem builds_list {σ ι : Type} {address : β → NodeId} {action : σ → Tree → β × Tree}
    {notes : σ → List ι} :
    ∀ ds : List σ, (∀ d ∈ ds, Stores address (action d) (notes d).length) → ∀ t : Tree,
      Builds t (ds.flatMap notes).length (Kind.mapStateList action ds t).2 ∧
        ∀ b ∈ (Kind.mapStateList action ds t).1,
          (address b).index < (Kind.mapStateList action ds t).2.size := by
  intro ds
  induction ds with
  | nil => exact fun _ t => ⟨.refl, by simp [Kind.mapStateList]⟩
  | cons d ds ih =>
      intro h t
      obtain ⟨hfirst, hstored⟩ := h d List.mem_cons_self t
      obtain ⟨hrest, hids⟩ := ih (fun e he => h e (List.mem_cons_of_mem _ he)) (action d t).2
      rw [List.flatMap_cons, List.length_append]
      refine ⟨hfirst.trans hrest, ?_⟩
      simp only [Kind.mapStateList, List.forall_mem_cons]
      exact ⟨hrest.lt_size hstored, hids⟩

/-- A layer after its parts. -/
theorem stores_layer {σ ι : Type} {plant : σ → Planting} {notes : σ → List ι} (s : Span) (k : Kind σ)
    (h : ∀ d ∈ k.children, Stores id (plant d) (notes d).length) :
    Stores id (plantLayer s (k.map plant)) ((k.children.flatMap notes).length + 1) := by
  intro t
  obtain ⟨hparts, hids⟩ := builds_list k.children h t
  have hchildren := Kind.children_fill k _ (Kind.length_mapStateList plant k.children t)
  rw [plantLayer_map]
  refine ⟨.alloc s hparts ?_, ?_⟩
  · rw [hchildren]
    exact hids
  · rw [fst_alloc, size_alloc]
    exact Nat.lt_succ_self _

end Tree

/-! ## Nodes of a chain -/

namespace Grouping

/-- The number of operators. -/
def joins : Grouping α → Nat
  | .leaf _ => 0
  | .branch _ l r => l.joins + r.joins + 1

theorem joins_map (f : α → β) (g : Grouping α) : (g.map f).joins = g.joins := by
  induction g with
  | leaf a => rfl
  | branch op l r ihl ihr => rw [map, joins, ihl, ihr, joins]

/-- How many operators are reached is decided by the operators. -/
theorem joins_ofChain {a : α} {b : β} {chain : List (String × α)} {chain' : List (String × β)}
    (h : chain.map Prod.fst = chain'.map Prod.fst) :
    (ofChain a chain).joins = (ofChain b chain').joins := by
  -- Both are the grouping of the chain that has the operators only.
  have hunit : (chain.map fun link => (link.1, ())) = chain'.map fun link => (link.1, ()) := by
    have := congrArg (List.map fun op => (op, ())) h
    rwa [List.map_map, List.map_map] at this
  rw [← joins_map (fun _ => ()), ← joins_map (fun _ => ()) (ofChain b chain'), ← ofChain_map,
    ← ofChain_map, hunit]

/-- Joining operands adds one node for each operator. -/
theorem length_notes_join (g : Grouping (Ast Span)) :
    (g.fold Draft.join).notes.length = (g.leaves.flatMap Ast.notes).length + g.joins := by
  induction g with
  | leaf a => simp [fold, leaves, joins]
  | branch op l r ihl ihr =>
      simp only [fold, Draft.join, Ast.notes_node, Kind.children, List.flatMap_cons,
        List.flatMap_nil, List.append_nil, List.length_cons, List.length_append, ihl, ihr, leaves,
        List.flatMap_append, joins]
      omega

/-- Storing the operators over stored operands. -/
theorem builds_foldState (g : Grouping NodeId) :
    ∀ t : Tree, (∀ i ∈ g.leaves, i.index < t.size) →
      Tree.Builds t g.joins (g.foldState Draft.plantJoin t).2 ∧
        (g.foldState Draft.plantJoin t).1.index < (g.foldState Draft.plantJoin t).2.size := by
  induction g with
  | leaf i => exact fun t h => ⟨.refl, h i (List.mem_singleton.2 rfl)⟩
  | branch op l r ihl ihr =>
      intro t h
      have hleaves := List.forall_mem_append.1 h
      obtain ⟨hleft, hl⟩ := ihl t hleaves.1
      obtain ⟨hright, hr⟩ := ihr (l.foldState Draft.plantJoin t).2
        fun i hi => hleft.lt_size (hleaves.2 i hi)
      refine ⟨.alloc _ (hleft.trans hright) ?_, ?_⟩
      · simp only [Kind.children, List.forall_mem_cons]
        exact ⟨hright.lt_size hl, hr, by simp⟩
      · simp only [foldState, Draft.plantJoin, Tree.fst_alloc, Tree.size_alloc]
        exact Nat.lt_succ_self _

end Grouping

namespace Draft

theorem operators_plantLinks (rest : List (String × Draft)) (t : Tree) :
    (plantLinks (rest.map fun link => (link.1, link.2.plant)) t).1.map Prod.fst
      = rest.map Prod.fst := by
  obtain ⟨chain, hchain, -, hops⟩ := plantLinks_stored rest (fun link _ => link.2.plant_stored) t
  rw [hchain, List.map_map]
  exact hops

/-- Storing the operands behind the operators. -/
theorem builds_plantLinks (rest : List (String × Draft))
    (h : ∀ link ∈ rest, Tree.Stores id link.2.plant link.2.resolve.notes.length) (t : Tree) :
    Tree.Builds t (rest.flatMap fun link => link.2.resolve.notes).length
        (plantLinks (rest.map fun link => (link.1, link.2.plant)) t).2 ∧
      ∀ link ∈ (plantLinks (rest.map fun link => (link.1, link.2.plant)) t).1,
        link.2.index < (plantLinks (rest.map fun link => (link.1, link.2.plant)) t).2.size := by
  have hlinks : ∀ link ∈ rest,
      Tree.Stores Prod.snd (fun t => ((link.1, (link.2.plant t).1), (link.2.plant t).2))
        link.2.resolve.notes.length := h
  rw [plantLinks, Kind.mapStateList_map]
  exact Tree.builds_list rest hlinks t

/-- Storing the operands of a chain, and then its operators. -/
theorem stores_plantChain {first : Draft} {rest : List (String × Draft)}
    (hfirst : Tree.Stores id first.plant first.resolve.notes.length)
    (hrest : ∀ link ∈ rest, Tree.Stores id link.2.plant link.2.resolve.notes.length) :
    Tree.Stores id (plantChain first.plant (rest.map fun link => (link.1, link.2.plant)))
      (first.resolve.notes.length + (rest.flatMap fun link => link.2.resolve.notes).length
        + (Grouping.ofChain first rest).joins) := by
  intro t
  obtain ⟨hbuilds, htop⟩ := hfirst t
  obtain ⟨hlinks, hids⟩ := builds_plantLinks rest hrest (first.plant t).2
  have hops := operators_plantLinks rest (first.plant t).2
  rw [plantChain]
  dsimp only
  generalize plantLinks (rest.map fun link => (link.1, link.2.plant)) (first.plant t).2 = planted
    at hlinks hids hops ⊢
  have hstored : ∀ i ∈ (Grouping.ofChain (first.plant t).1 planted.1).leaves,
      i.index < planted.2.size := by
    intro i hi
    rcases List.mem_cons.1 (Grouping.leaves_ofChain_subset _ _ hi) with rfl | hi
    · exact hlinks.lt_size htop
    · obtain ⟨link, hlink, rfl⟩ := List.mem_map.1 hi
      exact hids link hlink
  -- The addresses are grouped as the drafts are, since grouping looks at the operators only.
  obtain ⟨hjoins, hjoined⟩ := Grouping.builds_foldState _ planted.2 hstored
  rw [Grouping.joins_ofChain (b := first) hops] at hjoins
  exact ⟨(hbuilds.trans hlinks).trans hjoins, hjoined⟩

/-- The program of a chain has the nodes of its operands, and one node for each operator. -/
theorem length_notes_chain (s : Span) {first : Draft} {rest : List (String × Draft)}
    (h : ∀ link ∈ rest, 0 < Operator.precedence link.1) :
    (Draft.chain s first rest).resolve.notes.length
      = first.resolve.notes.length + (rest.flatMap fun link => link.2.resolve.notes).length
        + (Grouping.ofChain first rest).joins := by
  rw [resolve_chain, Grouping.ofChain_map, Grouping.length_notes_join, Grouping.leaves_map,
    Grouping.leaves_ofChain h, Grouping.joins_map]
  simp [List.flatMap_map]

/-- Planting a draft stores one node for each node of its program. -/
theorem stores_plant (d : Draft) :
    ∀ {lo hi : Nat}, d.Within lo hi → Tree.Stores id d.plant d.resolve.notes.length := by
  induction d using Draft.induction with
  | node s k ih =>
      intro lo hi h
      rw [within_node] at h
      have hplant : (Draft.node s k).plant = Tree.plantLayer s (k.map plant) := fold_node _ _ s k
      have hstores : Tree.Stores id (Tree.plantLayer s (k.map plant))
          ((k.children.flatMap fun d => d.resolve.notes).length + 1) :=
        Tree.stores_layer s k fun d hd => ih d hd (h.2.2.of_mem widens_within hd)
      rw [hplant, resolve_node, Ast.notes_node, List.length_cons, Kind.children_map, List.flatMap_map]
      exact hstores
  | chain s first rest ihfirst ihrest =>
      intro lo hi h
      rw [within_chain] at h
      have hoperand : ∀ d ∈ first :: rest.map Prod.snd, d.Within lo hi :=
        fun d hd => h.1.of_mem widens_within hd
      have hplant : (Draft.chain s first rest).plant
          = plantChain first.plant (rest.map fun link => (link.1, link.2.plant)) :=
        fold_chain _ _ s first rest
      rw [hplant, length_notes_chain s h.2]
      refine stores_plantChain (ihfirst (hoperand first List.mem_cons_self)) fun link hlink => ?_
      exact ihrest link hlink (hoperand _ (List.mem_cons_of_mem _ (List.mem_map_of_mem hlink)))

end Draft

namespace Tree

/-! ## Whole programs -/

theorem rises_ofText (text : String) : (ofText text).Rises := by
  intro i hi c hc
  have hnone : (ofText text).node? i = none := by
    refine node?_eq_none _ (Nat.one_le_iff_ne_zero.2 fun hzero => hi ?_)
    cases i
    exact congrArg NodeId.mk hzero
  rw [kind, hnone] at hc
  cases hc

/-- The statements of the program are the parts of the root, which may come before them. -/
theorem rises_setProgramBody {t : Tree} (h : t.Rises) (ids : List NodeId) :
    (t.setProgramBody ids).Rises := by
  have hroot : (t.setProgramBody ids).root = t.root := (Grows.adopt _ _ _).root_eq
  intro i hi c hc
  rw [hroot] at hi
  rw [setProgramBody, setKind, kind_putKind, if_neg fun hcond => hi hcond.1, kind_adopt] at hc
  exact h i hi c hc

end Tree

/-- The tree of a text stores one node for each node of its statements, and one for the root. -/
theorem Draft.plantProgram_builds {text : String} {body : List Draft} {lo hi : Nat}
    (h : InOrder Draft.Within lo hi body) :
    (plantProgram text body).size = (body.flatMap fun d => d.resolve.notes).length + 1 ∧
      (plantProgram text body).Rises := by
  have hstores : ∀ d ∈ body, Tree.Stores id d.plant d.resolve.notes.length := fun d hd =>
    d.stores_plant (h.of_mem widens_within hd)
  obtain ⟨hbuilds, -⟩ := Tree.builds_list body hstores (Tree.ofText text)
  have hplant : plantProgram text body
      = (Kind.mapStateList plant body (Tree.ofText text)).2.setProgramBody
        (Kind.mapStateList plant body (Tree.ofText text)).1 := rfl
  have hsize : (Tree.ofText text).size = 1 := rfl
  rw [hplant]
  refine ⟨?_, Tree.rises_setProgramBody (hbuilds.rises (Tree.rises_ofText text)) _⟩
  rw [Tree.setProgramBody, Tree.setKind, Tree.size_putKind, Tree.size_adopt, hbuilds.size_eq, hsize,
    Nat.add_comm]

namespace Tree

/-! ## Paths -/

/-- The node that is reached from a node along the positions of parts. -/
def follow (t : Tree) (i : NodeId) : List Nat → Option NodeId
  | [] => some i
  | n :: path => (t.kind i).children[n]?.bind fun c => t.follow c path

variable {t : Tree} {a : Ast NodeId} {i : NodeId}

theorem Holds.follow_cons (h : t.Holds a) (n : Nat) (path : List Nat) :
    t.follow a.note (n :: path) = a.kind.children[n]?.bind fun c => t.follow c.note path := by
  rw [follow, h.kind_eq, Kind.children_map, List.getElem?_map, Option.bind_map]
  rfl

theorem Holds.mem_notes_of_follow {path : List Nat} :
    ∀ {a : Ast NodeId}, t.Holds a → t.follow a.note path = some i → i ∈ a.notes := by
  induction path with
  | nil =>
      intro a _ hi
      obtain rfl := Option.some.inj hi
      exact a.note_mem_notes
  | cons n path ih =>
      intro a h hi
      rw [h.follow_cons, Option.bind_eq_some_iff] at hi
      obtain ⟨c, hc, hi⟩ := hi
      have hmem := List.mem_of_getElem? hc
      exact Ast.notes_subset_of_mem hmem (ih (h.part hmem) hi)

/-- Lists without a common entry in a list of lists: an entry tells the position of its list. -/
theorem position_eq_of_nodup_flatMap {f : α → List β} {l : List α} (h : (l.flatMap f).Nodup)
    {m n : Nat} {c d : α} {x : β} (hc : l[m]? = some c) (hd : l[n]? = some d) (hxc : x ∈ f c)
    (hxd : x ∈ f d) : m = n := by
  obtain ⟨hm, rfl⟩ := List.getElem?_eq_some_iff.1 hc
  obtain ⟨hn, rfl⟩ := List.getElem?_eq_some_iff.1 hd
  have hdisjoint := List.pairwise_iff_getElem.1 (List.nodup_flatMap.1 h).2
  rcases Nat.lt_trichotomy m n with hlt | heq | hlt
  · exact absurd hxd (hdisjoint m n hm hn hlt hxc)
  · exact heq
  · exact absurd hxc (hdisjoint n m hn hm hlt hxd)

/-- In a held program one path leads from its top to each node. -/
theorem Held.existsUnique_follow :
    ∀ {a : Ast NodeId}, t.Held a → ∀ i ∈ a.notes, ∃! path, t.follow a.note path = some i := by
  intro a
  induction a using Ast.induction with
  | node j k ih =>
      intro h i hi
      rw [Ast.notes_node, List.mem_cons] at hi
      have hnodup := h.nodup
      rw [Ast.notes_node, List.nodup_cons] at hnodup
      rcases hi with rfl | hi
      · -- A longer path leads into a part, where the address of the top does not occur.
        refine ⟨[], rfl, fun path hpath => ?_⟩
        cases path with
        | nil => rfl
        | cons n path =>
            rw [h.holds.follow_cons, Option.bind_eq_some_iff] at hpath
            obtain ⟨c, hc, hpath⟩ := hpath
            have hmem := List.mem_of_getElem? hc
            have hnote := (h.holds.part hmem).mem_notes_of_follow hpath
            exact absurd (List.mem_flatMap.2 ⟨c, hmem, hnote⟩) hnodup.1
      · obtain ⟨c, hmem, hic⟩ := List.mem_flatMap.1 hi
        obtain ⟨n, hc⟩ := List.mem_iff_getElem?.1 hmem
        obtain ⟨path, hpath, hunique⟩ := ih c hmem (h.part hmem) i hic
        refine ⟨n :: path, ?_, fun path' hpath' => ?_⟩
        · change t.follow (Ast.node j k).note (n :: path) = some i
          rw [h.holds.follow_cons, Ast.kind_node, hc]
          exact hpath
        · cases path' with
          | nil =>
              obtain rfl : j = i := Option.some.inj hpath'
              exact absurd hi hnodup.1
          | cons m path' =>
              rw [h.holds.follow_cons, Option.bind_eq_some_iff] at hpath'
              obtain ⟨d, hd, hpath'⟩ := hpath'
              have hid := (h.holds.part (List.mem_of_getElem? hd)).mem_notes_of_follow hpath'
              -- The parts have no common address, so both paths enter the same part.
              obtain rfl : m = n := position_eq_of_nodup_flatMap hnodup.2 hd hc hid hic
              obtain rfl : d = c := Option.some.inj (hd.symm.trans hc)
              rw [hunique path' hpath']

/-- A held program of as many nodes as the tree has them all. -/
theorem Held.mem_notes_of_size_le (h : t.Held a) (hsize : t.size ≤ a.notes.length)
    (hi : i.index < t.size) : i ∈ a.notes := by
  by_contra hmem
  have hle := length_le_of_stored (List.nodup_cons.2 ⟨hmem, h.nodup⟩)
    (List.forall_mem_cons.2 ⟨hi, h.holds.stored⟩)
  exact absurd (Nat.le_trans hle hsize) (Nat.not_succ_le_self _)

/-! ## Trees that were read -/

/-- What holds of the tree of a text of `length` bytes. -/
structure LaidOut (t : Tree) (length : Nat) : Prop where
  /-- One path leads from the root to each node. -/
  reached : ∀ i : NodeId, i.index < t.size → ∃! path, t.follow t.root path = some i
  /-- Every node but the root comes after its parts. -/
  rises : ∀ i : NodeId, i.index < t.size → i ≠ t.root → ∀ c ∈ (t.kind i).children, c.index < i.index
  /-- The span of a node is a range of the text. -/
  bounded : ∀ i : NodeId, i.index < t.size →
    (t.span i).start ≤ (t.span i).stop ∧ (t.span i).stop ≤ length
  /-- The span of a node contains the spans of its parts. -/
  contains : ∀ i : NodeId, i.index < t.size → ∀ c ∈ (t.kind i).children,
    (t.span i).start ≤ (t.span c).start ∧ (t.span c).stop ≤ (t.span i).stop
  /-- The parts of a node are listed in the order of the text, and do not overlap. -/
  ordered : ∀ i : NodeId, i.index < t.size →
    (t.kind i).children.Pairwise fun c d => (t.span c).stop ≤ (t.span d).start

/-- A program that stands in the text and has all nodes of the tree. -/
theorem Rooted.laidOut {length : Nat} (h : t.Rooted a) (hsize : t.size ≤ a.notes.length)
    (hrises : t.Rises) (hwithin : a.Within t.span 0 length) : t.LaidOut length := by
  have hnotes : ∀ i : NodeId, i.index < t.size → i ∈ a.notes := fun i hi =>
    h.toHeld.mem_notes_of_size_le hsize hi
  -- Every node is the top of a part of the program, and the part stands in the text as well.
  have hpart : ∀ i : NodeId, i.index < t.size → ∃ b : Ast NodeId, b.note = i ∧
      (t.kind i).children = b.kind.children.map Ast.note ∧ b.Within t.span 0 length := by
    intro i hi
    obtain ⟨b, hb, rfl⟩ := Ast.Part.exists_of_mem (hnotes i hi)
    refine ⟨b, rfl, ?_, hwithin.part hb⟩
    rw [(h.toHeld.of_part hb).holds.kind_eq, Kind.children_map]
  refine ⟨fun i hi => ?_, fun i _ hroot => hrises i hroot, fun i hi => ?_, fun i hi c hc => ?_,
    fun i hi => ?_⟩
  · rw [← h.root_eq]
    exact h.toHeld.existsUnique_follow i (hnotes i hi)
  · obtain ⟨b, rfl, -, hb⟩ := hpart i hi
    rw [Ast.within_iff] at hb
    exact ⟨hb.2.2.le, hb.2.1⟩
  · obtain ⟨b, rfl, hchildren, hb⟩ := hpart i hi
    rw [hchildren] at hc
    obtain ⟨d, hd, rfl⟩ := List.mem_map.1 hc
    rw [Ast.within_iff] at hb
    have hinside := (Ast.within_iff d).1 (hb.2.2.of_mem Ast.widens_within hd)
    exact ⟨hinside.1, hinside.2.1⟩
  · obtain ⟨b, rfl, hchildren, hb⟩ := hpart i hi
    rw [hchildren, List.pairwise_map]
    rw [Ast.within_iff] at hb
    refine hb.2.2.pairwise Ast.widens_within fun hc hd => ?_
    exact Nat.le_trans ((Ast.within_iff _).1 hc).2.1 ((Ast.within_iff _).1 hd).1

end Tree

/-- The program of a text stands in the text as its drafts do. -/
theorem within_of_drafts {text : String} {t : Tree} {body : List Draft} {a : Ast NodeId}
    (hbody : InOrder Draft.Within 0 text.utf8ByteSize body)
    (hspans : a.mapNotes t.span = .node ⟨0, text.utf8ByteSize⟩ (.program (body.map Draft.resolve))) :
    a.Within t.span 0 text.utf8ByteSize := by
  have hroot : (a.mapNotes t.span).Within id 0 text.utf8ByteSize := by
    rw [hspans, Ast.within_node]
    refine ⟨Nat.le_refl _, Nat.le_refl _, InOrder.map_iff.2 ?_⟩
    exact hbody.imp fun d _ _ _ => d.within_resolve
  exact (Ast.within_mapNotes t.span a).1 hroot

/-- The program of the tree of a text has all nodes of the tree, and stands in the text. -/
theorem parse_whole {mode : Mode} {text : String} {t : Tree} (h : parse mode text = .ok t) :
    ∃ a : Ast NodeId, t.Rooted a ∧ t.size ≤ a.notes.length ∧ t.Rises ∧
      a.Within t.span 0 text.utf8ByteSize := by
  obtain ⟨body, a, hdrafts, hrooted, hspans⟩ := parse_rooted h
  have hbody := draftsIn_within hdrafts
  have htree : t = Draft.plantProgram text body := by
    rw [parse, hdrafts] at h
    exact (Except.ok.inj h).symm
  obtain ⟨hsize, hrises⟩ := Draft.plantProgram_builds hbody
  rw [← htree] at hsize hrises
  refine ⟨a, hrooted, ?_, hrises, within_of_drafts hbody hspans⟩
  -- The tree has a node for the root and one for each node of the statements, as the program has.
  have hlength := congrArg (fun x => x.notes.length) hspans
  simp only [Ast.notes_mapNotes, List.length_map, Ast.notes_node, List.length_cons, Kind.children,
    List.flatMap_map] at hlength
  exact hsize.trans_le hlength.ge

/-- Every node of the tree of a text is reached from the root by one path. Addresses rise from the
parts of a node to the node, its span lies in the text and around the spans of its parts, and its
parts are listed in the order of the text. -/
theorem parse_laidOut {mode : Mode} {text : String} {t : Tree} (h : parse mode text = .ok t) :
    t.LaidOut text.utf8ByteSize := by
  obtain ⟨a, hrooted, hsize, hrises, hwithin⟩ := parse_whole h
  exact hrooted.laidOut hsize hrises hwithin

/-- The parentheses leave no node, and the sum has a product as its second operand. -/
theorem parse_laidOut_grouped :
    ∃ t : Tree, parse .source "-(a) + b.c * f(d);" = .ok t ∧ t.size = 11 ∧ t.LaidOut 18 := by
  have hok : (parse .source "-(a) + b.c * f(d);").toOption.map Tree.size = some 11 := by
    decide +kernel
  obtain ⟨t, ht, hsize⟩ := Option.map_eq_some_iff.1 hok
  have hparse := eq_ok_of_toOption ht
  exact ⟨t, hparse, hsize, parse_laidOut hparse⟩

end LogLabel.Program
