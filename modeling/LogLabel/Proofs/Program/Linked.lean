import LogLabel.Proofs.Program.Planting
import LogLabel.Proofs.Program.Revision

set_option autoImplicit false

/-!
# Agreeing links

Parents are stored in the nodes besides the parts, so the two can disagree.

* `Tree.WellLinked`: the nodes that are reached from the root form a tree, and every parent
  is the node that holds the slot.
* `Tree.LinkedBelow t top`: the same of the nodes at and below `top`, whatever is around it.
* `Tree.LinkedBelow.held`: a program is held where the links agree.
* `Tree.wellLinked_iff`: the links of a tree agree just if it holds its program from the root on.
-/

namespace LogLabel.Program.Tree

/-! ## Agreeing links -/

/-- The nodes that are reached from the root through the parts of nodes. -/
inductive Reachable (t : Tree) : NodeId → Prop
  | root : Reachable t t.root
  | part {p i : NodeId} (h : Reachable t p) (hi : i ∈ (t.kind p).children) : Reachable t i

/-- The reachable nodes form a tree whose links agree. A slot is a node and a position among its
parts. -/
structure WellLinked (t : Tree) : Prop where
  stored : ∀ i, t.Reachable i → i.index < t.size
  root_parent : t.parent t.root = none
  root_free : ∀ p, t.Reachable p → t.root ∉ (t.kind p).children
  one_slot : ∀ i, t.Reachable i → i ≠ t.root →
    ∃! slot : NodeId × Nat, t.Reachable slot.1 ∧ (t.kind slot.1).children[slot.2]? = some i
  parent_eq : ∀ p, t.Reachable p → ∀ i ∈ (t.kind p).children, t.parent i = some p

section WellLinked

variable {t : Tree} {a : Ast NodeId}

theorem Held.reachable_of_part (h : t.Held a) (ha : t.Reachable a.note) {b : Ast NodeId}
    (hb : b.Part a) : t.Reachable b.note := by
  induction hb with
  | self => exact ha
  | @inside a c hc _ ih =>
      refine ih (h.part hc) (.part ha ?_)
      rw [h.holds.kind_eq, Kind.children_map]
      exact List.mem_map.2 ⟨c, hc, rfl⟩

/-- The reachable nodes of a held program are its parts. -/
theorem Rooted.exists_part (h : t.Rooted a) {i : NodeId} (hi : t.Reachable i) :
    ∃ b : Ast NodeId, b.Part a ∧ b.note = i := by
  induction hi with
  | root => exact ⟨a, .self, h.root_eq⟩
  | part _ hi ih =>
      obtain ⟨b, hb, rfl⟩ := ih
      rw [(h.toHeld.of_part hb).holds.kind_eq, Kind.children_map, List.mem_map] at hi
      obtain ⟨c, hc, rfl⟩ := hi
      exact ⟨c, .trans (.of_mem hc) hb, rfl⟩

/-- A part is not the whole of a program in which it is a direct part of something. -/
theorem Held.part_ne (h : t.Held a) {b c : Ast NodeId} (hb : b.Part a) (hc : c ∈ b.kind.children) :
    c ≠ a := by
  rintro rfl
  refine (h.of_part hb).note_not_mem_inner (List.mem_flatMap.2 ⟨c, hc, ?_⟩)
  exact hb.notes_subset b.note_mem_notes

theorem Rooted.wellLinked (h : t.Rooted a) : t.WellLinked := by
  have hheld := h.toHeld
  refine ⟨fun i hi => ?_, h.root_parent, fun p hp hroot => ?_, fun i hi hne => ?_, fun p hp i hi => ?_⟩
  · obtain ⟨b, hb, rfl⟩ := h.exists_part hi
    exact (hheld.of_part hb).holds.note_stored
  · obtain ⟨b, hb, rfl⟩ := h.exists_part hp
    rw [(hheld.of_part hb).holds.kind_eq, Kind.children_map, List.mem_map] at hroot
    obtain ⟨c, hc, he⟩ := hroot
    have hca : c = a := hheld.part_unique (.trans (.of_mem hc) hb) .self (he.trans h.root_eq.symm)
    exact hheld.part_ne hb hc hca
  · obtain ⟨b, hb, rfl⟩ := h.exists_part hi
    have hba : b ≠ a := by
      rintro rfl
      exact hne h.root_eq
    obtain ⟨q, k, hq, hbk⟩ := hb.eq_or_parent.resolve_left hba
    have hqheld := hheld.of_part hq
    have hkind : t.kind q = k.map Ast.note := hqheld.holds.kind_eq
    obtain ⟨n, hn⟩ := List.getElem?_of_mem hbk
    have hroot : t.Reachable a.note := by
      rw [h.root_eq]
      exact .root
    refine ⟨(q, n), ⟨hheld.reachable_of_part hroot hq, ?_⟩, ?_⟩
    · rw [hkind, Kind.children_map, List.getElem?_map, hn]
      rfl
    · rintro ⟨p, m⟩ ⟨hp, hm⟩
      -- The node has one parent, and is listed once among its parts.
      obtain ⟨d, hd, hdp⟩ := h.exists_part hp
      obtain rfl : d.note = p := hdp
      simp only [(hheld.of_part hd).holds.kind_eq, Kind.children_map, List.getElem?_map,
        Option.map_eq_some_iff] at hm
      obtain ⟨c, hcm, hcb⟩ := hm
      have hcd : c ∈ d.kind.children := List.mem_of_getElem? hcm
      obtain rfl : c = b := hheld.part_unique (.trans (.of_mem hcd) hd) hb hcb
      have hparent : some d.note = some q :=
        ((hheld.of_part hd).holds.parent_eq hcd).symm.trans (hqheld.holds.parent_eq hbk)
      have hdq : d = .node q k := hheld.part_unique hd hq (Option.some.inj hparent)
      subst hdq
      have hnodup : k.children.Nodup := by
        have hlayer := hqheld.nodup
        rw [Ast.notes_node, List.nodup_cons, List.nodup_flatMap] at hlayer
        refine hlayer.2.2.imp_of_mem fun {x y} _ _ hdisjoint => ?_
        rintro rfl
        exact hdisjoint x.note_mem_notes x.note_mem_notes
      have hmn : m = n := (List.getElem?_inj (List.getElem?_eq_some_iff.1 hcm).1 hnodup).1
        (hcm.trans hn.symm)
      rw [hmn]
      rfl
  · obtain ⟨b, hb, rfl⟩ := h.exists_part hp
    have hbheld := hheld.of_part hb
    rw [hbheld.holds.kind_eq, Kind.children_map, List.mem_map] at hi
    obtain ⟨c, hc, rfl⟩ := hi
    exact hbheld.holds.parent_eq hc

/-! ## Linked nodes hold a program -/

/-- The nodes at and below a node, reached through the parts of nodes. -/
inductive Below (t : Tree) (top : NodeId) : NodeId → Prop
  | top : Below t top top
  | part {p i : NodeId} (h : Below t top p) (hi : i ∈ (t.kind p).children) : Below t top i

/-- The nodes at and below `top` form a tree whose links agree. -/
structure LinkedBelow (t : Tree) (top : NodeId) : Prop where
  stored : ∀ i, t.Below top i → i.index < t.size
  top_free : ∀ p, t.Below top p → top ∉ (t.kind p).children
  nodup : ∀ p, t.Below top p → (t.kind p).children.Nodup
  parent_eq : ∀ p, t.Below top p → ∀ i ∈ (t.kind p).children, t.parent i = some p

theorem below_root_iff {i : NodeId} : t.Below t.root i ↔ t.Reachable i := by
  constructor <;> intro h
  · induction h with
    | top => exact .root
    | part _ hi ih => exact .part ih hi
  · induction h with
    | root => exact .top
    | part _ hi ih => exact .part ih hi

theorem Below.trans {top r i : NodeId} (h : t.Below top r) (h' : t.Below r i) : t.Below top i := by
  induction h' with
  | top => exact h
  | part _ hi ih => exact .part ih hi

/-- The nodes of a held program are those at and below its top node. -/
theorem Held.mem_notes_iff (h : t.Held a) {i : NodeId} : i ∈ a.notes ↔ t.Below a.note i := by
  constructor
  · intro hi
    obtain ⟨b, hb, rfl⟩ := Ast.Part.exists_of_mem hi
    have hbelow : ∀ {a : Ast NodeId}, b.Part a → t.Held a → ∀ {top : NodeId}, t.Below top a.note →
        t.Below top b.note := by
      intro a hb
      induction hb with
      | self => exact fun _ _ h => h
      | @inside a c hc _ ih =>
          intro h top htop
          refine ih (h.part hc) (.part htop ?_)
          rw [h.holds.kind_eq, Kind.children_map]
          exact List.mem_map.2 ⟨c, hc, rfl⟩
    exact hbelow hb h .top
  · intro hi
    induction hi with
    | top => exact a.note_mem_notes
    | part _ hi ih =>
        obtain ⟨b, hb, rfl⟩ := Ast.Part.exists_of_mem ih
        rw [(h.of_part hb).holds.kind_eq, Kind.children_map, List.mem_map] at hi
        obtain ⟨c, hc, rfl⟩ := hi
        exact ((Ast.Part.of_mem hc).trans hb).notes_subset c.note_mem_notes

/-- The nodes that are met from a node outward to `top`. -/
inductive Path (t : Tree) (top : NodeId) : NodeId → List NodeId → Prop
  | top : Path t top top []
  | part {p i : NodeId} {l : List NodeId} (h : Path t top p l) (hi : i ∈ (t.kind p).children) :
      Path t top i (p :: l)

namespace Path

variable {top i : NodeId} {l : List NodeId}

theorem mem_below (h : Path t top i l) : t.Below top i := by
  induction h with
  | top => exact .top
  | part _ hi ih => exact .part ih hi

/-- A node on the way has a shorter way. -/
theorem exists_shorter (h : Path t top i l) {j : NodeId} (hj : j ∈ l) :
    ∃ l', Path t top j l' ∧ l'.length < l.length := by
  induction h with
  | top => cases hj
  | @part p i l hp _ ih =>
      rcases List.mem_cons.1 hj with rfl | hj
      · exact ⟨l, hp, Nat.lt_succ_self _⟩
      · obtain ⟨l', hl', hlt⟩ := ih hj
        exact ⟨l', hl', Nat.lt_succ_of_lt hlt⟩

end Path

namespace LinkedBelow

variable {top i : NodeId} {l l' : List NodeId}

/-- There is one way outward. -/
theorem path_unique (h : t.LinkedBelow top) (hl : Path t top i l) :
    ∀ {l' : List NodeId}, Path t top i l' → l = l' := by
  induction hl with
  | top =>
      intro l' hl'
      cases hl' with
      | top => rfl
      | part hp hi => exact absurd hi (h.top_free _ hp.mem_below)
  | part hp hi ih =>
      intro l' hl'
      cases hl' with
      | top => exact absurd hi (h.top_free _ hp.mem_below)
      | part hp' hi' =>
          have hparent := h.parent_eq _ hp.mem_below _ hi
          rw [h.parent_eq _ hp'.mem_below _ hi'] at hparent
          obtain rfl := Option.some.inj hparent
          rw [ih hp']

theorem path_nodup (h : t.LinkedBelow top) (hl : Path t top i l) :
    (i :: l).Nodup ∧ ∀ j ∈ i :: l, j.index < t.size := by
  induction hl with
  | top => exact ⟨List.nodup_singleton _, fun j hj => List.mem_singleton.1 hj ▸ h.stored _ .top⟩
  | @part p i l hp hi ih =>
      have hpath : Path t top i (p :: l) := .part hp hi
      refine ⟨List.nodup_cons.2 ⟨fun hmem => ?_, ih.1⟩, fun j hj => ?_⟩
      · obtain ⟨l', hl', hlt⟩ := hpath.exists_shorter hmem
        rw [h.path_unique hpath hl'] at hlt
        exact Nat.lt_irrefl _ hlt
      · rcases List.mem_cons.1 hj with rfl | hj
        · exact h.stored _ hpath.mem_below
        · exact ih.2 j hj

end LinkedBelow

theorem note_reading (i : NodeId) : (t.reading i).note = i := by
  rw [reading]
  cases t.size <;> rfl

/-- Two ends of a list of the same length are the same. -/
theorem suffix_inj {α : Type} {l l' whole : List α} (h : l <:+ whole) (h' : l' <:+ whole)
    (hlength : l.length = l'.length) : l = l' :=
  (List.suffix_of_suffix_length_le h h' hlength.le).eq_of_length hlength

/-- By induction on what the way outward is shorter than the tree. The ways of the nodes below go on
with it, and so no two parts share a node. -/
theorem LinkedBelow.held_of_path {top : NodeId} (h : t.LinkedBelow top) :
    ∀ (n : Nat) {i : NodeId} {l : List NodeId}, Path t top i l → t.size ≤ l.length + n →
      t.Held (t.reading i) ∧
        ∀ j ∈ (t.reading i).notes, ∃ l', Path t top j l' ∧ i :: l <:+ j :: l' := by
  intro n
  induction n with
  | zero =>
      intro i l hl hsize
      obtain ⟨hnodup, hstored⟩ := h.path_nodup hl
      have hlength := length_le_of_stored hnodup hstored
      rw [List.length_cons] at hlength
      omega
  | succ n ih =>
      intro i l hl hsize
      have hparts : ∀ c ∈ (t.kind i).children, t.Held (t.reading c) ∧
          ∀ j ∈ (t.reading c).notes, ∃ l', Path t top j l' ∧ c :: i :: l <:+ j :: l' := by
        intro c hc
        refine ih (.part hl hc) ?_
        rw [List.length_cons]
        omega
      have hchildren : ((t.kind i).map t.reading).children = (t.kind i).children.map t.reading :=
        Kind.children_map _ _
      have hheld : t.Held (.node i ((t.kind i).map t.reading)) := by
        refine ⟨.node (h.stored i hl.mem_below) ?_ ?_ ?_, ?_⟩
        · rw [Kind.map_map, Kind.map_congr fun c _ => note_reading c, Kind.map_id]
        · rw [hchildren, List.forall_mem_map]
          intro c hc
          rw [note_reading]
          exact h.parent_eq i hl.mem_below c hc
        · rw [hchildren, List.forall_mem_map]
          exact fun c hc => (hparts c hc).1.holds
        · rw [Ast.notes_node, hchildren, List.nodup_cons, List.nodup_flatMap, List.forall_mem_map,
            List.pairwise_map]
          refine ⟨fun hmem => ?_, fun c hc => (hparts c hc).1.nodup,
            (h.nodup i hl.mem_below).imp_of_mem fun {c d} hc hd hne => ?_⟩
          · obtain ⟨_, ha, hmem⟩ := List.mem_flatMap.1 hmem
            obtain ⟨c, hc, rfl⟩ := List.mem_map.1 ha
            obtain ⟨l', hl', hsuffix⟩ := (hparts c hc).2 i hmem
            obtain rfl := h.path_unique hl hl'
            exact Nat.not_succ_le_self _ hsuffix.length_le
          · intro j hjc hjd
            obtain ⟨l', hl', hsuffix⟩ := (hparts c hc).2 j hjc
            obtain ⟨l'', hl'', hsuffix'⟩ := (hparts d hd).2 j hjd
            obtain rfl := h.path_unique hl' hl''
            exact hne (List.cons.inj (suffix_inj hsuffix hsuffix' rfl)).1
      have hreading : t.reading i = .node i ((t.kind i).map t.reading) := hheld.reading_eq
      rw [hreading]
      refine ⟨hheld, fun j hj => ?_⟩
      rw [Ast.notes_node, hchildren, List.mem_cons, List.mem_flatMap] at hj
      rcases hj with rfl | ⟨_, ha, hj⟩
      · exact ⟨l, hl, List.suffix_refl _⟩
      · obtain ⟨c, hc, rfl⟩ := List.mem_map.1 ha
        obtain ⟨l', hl', hsuffix⟩ := (hparts c hc).2 j hj
        exact ⟨l', hl', (List.suffix_cons _ _).trans hsuffix⟩

/-- Where the links agree, a program is held. -/
theorem LinkedBelow.held {top : NodeId} (h : t.LinkedBelow top) : t.Held (t.reading top) :=
  (h.held_of_path t.size .top (Nat.le_add_left _ _)).1

theorem WellLinked.linkedBelow (h : t.WellLinked) : t.LinkedBelow t.root := by
  refine ⟨fun i hi => h.stored i (below_root_iff.1 hi), fun p hp => h.root_free p (below_root_iff.1 hp),
    fun p hp => ?_, fun p hp => h.parent_eq p (below_root_iff.1 hp)⟩
  have hp := below_root_iff.1 hp
  rw [List.nodup_iff_injective_getElem]
  intro m n hmn
  have hmem : (t.kind p).children[m] ∈ (t.kind p).children := List.getElem_mem _
  have hne : (t.kind p).children[m] ≠ t.root := fun he => h.root_free p hp (he ▸ hmem)
  obtain ⟨slot, -, hunique⟩ := h.one_slot _ (.part hp hmem) hne
  have hm := hunique (p, m) ⟨hp, List.getElem?_eq_getElem m.2⟩
  have hn := hunique (p, n) ⟨hp, (List.getElem?_eq_getElem n.2).trans (congrArg some hmn.symm)⟩
  exact Fin.ext (Prod.ext_iff.1 (hm.trans hn.symm)).2

/-- The links of a tree agree just if the tree holds its program. -/
theorem wellLinked_iff : t.WellLinked ↔ t.Rooted t.program :=
  ⟨fun h => ⟨h.linkedBelow.held, note_reading t.root, h.root_parent⟩, Rooted.wellLinked⟩

end WellLinked

end LogLabel.Program.Tree
