import LogLabel.Proofs.Expansion.Scope

set_option autoImplicit false

/-!
# Visits

All that one visit of the pass can do, said once. The invariants of the pass are derived
from it without opening `Expansion.step` again.

* `Tree.Placed`: where a program that takes the place of another one stands.
* `Tree.Leaves`: which nodes are in the program after programs took the place of another one.
* `Tree.Spliced`: how the nodes around them have changed.
* `Expansion.Visited`: the outcomes of a visit. A statement made before is passed over, a
  node that is no label of a log statement is entered, and a label is removed or expanded.
* `Expansion.Refused`: the only visits that fail.
-/

namespace LogLabel

open Program (Ast Kind NodeId Span Tree)
open Program.Tree (Held Revised Apart)

/-- The program `r` of `t'` stands where `x` stood in `t`: below the same node, or in a new block
there. -/
def Program.Tree.Placed (t t' : Tree) (x r : Ast NodeId) : Prop :=
  ∃ q, t.parent x.note = some q ∧ (t'.parent r.note = some q ∨
    ∃ g : NodeId, t.size ≤ g.index ∧ (t'.kind g).isBlock = true ∧ t'.parent r.note = some g ∧
      t'.parent g = some q)

/-- The ancestors of a program that takes the place of another one: those of the other one, with at
most a new block before them. -/
theorem Program.Tree.Placed.exists_ancestors {t t' : Tree} {a a' x r : Ast NodeId}
    (h : t.Placed t' x r) (hapart : Apart t t' x) (ht : t.Rooted a) (hx : x.Part a)
    (ht' : t'.Rooted a') (hr : r.Part a') :
    ∃ new : List NodeId, t'.ancestors r.note = new ++ t.ancestors x.note ∧
      ∀ g ∈ new, t.size ≤ g.index ∧ (t'.kind g).isBlock = true := by
  obtain ⟨q, hq, hplace⟩ := h
  have hancestors := ht.ancestors_of_parent hx hq
  obtain ⟨k, hlayer, -⟩ := ht.exists_of_parent hx hq
  have hsame : t'.ancestors q = t.ancestors q := by
    refine hapart.ancestors_eq ht hlayer hx (ht.ancestor_not_mem_self hx q ?_)
    rw [hancestors]
    exact List.mem_cons_self
  rcases hplace with hparent | ⟨g, hnew, hblock, hparent, hg⟩
  · refine ⟨[], ?_, by simp⟩
    rw [ht'.ancestors_of_parent hr hparent, hsame, hancestors]
    rfl
  · obtain ⟨kg, hkg, -⟩ := ht'.exists_of_parent hr hparent
    have houter : t'.ancestors g = q :: t'.ancestors q := ht'.ancestors_of_parent hkg hg
    refine ⟨[g], ?_, by simpa using ⟨hnew, hblock⟩⟩
    rw [ht'.ancestors_of_parent hr hparent, houter, hsame, hancestors]
    rfl

/-- On the way from `t` to `t'` the programs `rs` took the place of `x`. A node of the program is in one
of them, or it was in the program outside of `x`, or it is the one new statement that stands for `rs`
in a single slot: a block, or an empty statement. -/
def Program.Tree.Leaves (t t' : Tree) (x : Ast NodeId) (rs : List (Ast NodeId)) : Prop :=
  ∀ i ∈ t'.program.notes, i ∈ rs.flatMap Ast.notes ∨ i ∈ t.program.notes ∧ i ∉ x.notes ∨
    t.size ≤ i.index ∧ ((t'.kind i).isBlock = true ∨ t'.kind i = .empty)

/-- A revision of the layer that has a program leaves the programs that take its place. -/
theorem Program.Tree.Rooted.leaves {t t₁ t' : Tree} {a x : Ast NodeId} {q : NodeId}
    {k k' : Kind (Ast NodeId)} {before after rs : List (Ast NodeId)} (h : t.Rooted a)
    (hlayer : (Ast.node q k).Part a) (hk : k.children = before ++ x :: after)
    (hsize : t.size ≤ t₁.size)
    (hk' : k'.children = before ++ (if k.isList then rs else [t₁.gathered rs]) ++ after)
    (h' : t'.Rooted (a.graft q (.node q k'))) : t.Leaves t' x rs := by
  have hnodup := hlayer.nodup h.nodup
  have hx : x ∈ k.children := by simp [hk]
  have hsub : (Ast.node q k).notes ⊆ a.notes := hlayer.notes_subset
  intro i hi
  rw [h'.program_eq] at hi
  rw [h.program_eq]
  rcases hlayer.mem_notes_graft h.nodup hi with hi | ⟨hi, hout⟩
  · rw [Ast.notes_node, List.mem_cons, List.mem_flatMap] at hi
    rcases hi with rfl | ⟨d, hd, hi⟩
    · exact Or.inr (Or.inl ⟨hsub (by simp), layer_not_mem_part hnodup hx⟩)
    · have hself : (Ast.node q k').Part (a.graft q (.node q k')) := hlayer.graft_self h.nodup
      have hheld := (h'.toHeld.of_part hself).part hd
      rw [hk', List.append_assoc, List.mem_append, List.mem_append] at hd
      have hsibling : d ∈ before ++ after → i ∈ a.notes ∧ i ∉ x.notes := fun hd =>
        have hmem : i ∈ (before ++ after).flatMap Ast.notes := List.mem_flatMap.2 ⟨d, hd, hi⟩
        ⟨hsub (mem_notes_of_sibling hk hmem), (sibling_ne hnodup hk hmem).2⟩
      rcases hd with hd | hd | hd
      · exact Or.inr (Or.inl (hsibling (List.mem_append_left _ hd)))
      · split at hd
        · exact Or.inl (List.mem_flatMap.2 ⟨d, hd, hi⟩)
        · -- In a single slot one program stands for all.
          obtain rfl := List.mem_singleton.1 hd
          match rs, hheld, hi with
          | [], hheld, hi =>
              obtain rfl : i = ⟨t₁.size⟩ := by simpa [gathered, Kind.children] using hi
              exact Or.inr (Or.inr ⟨hsize, Or.inr hheld.holds.kind_eq⟩)
          | [r], _, hi => exact Or.inl (by simpa [gathered] using hi)
          | r :: r' :: rs, hheld, hi =>
              have hi : i ∈ (Ast.node ⟨t₁.size⟩ (.block (r :: r' :: rs))).notes := hi
              rw [Ast.notes_node, List.mem_cons] at hi
              rcases hi with rfl | hi
              · refine Or.inr (Or.inr ⟨hsize, Or.inl ?_⟩)
                have hkind : t'.kind ⟨t₁.size⟩ = _ := hheld.holds.kind_eq
                rw [hkind]
                rfl
              · exact Or.inl hi
      · exact Or.inr (Or.inl (hsibling (List.mem_append_right _ hd)))
  · refine Or.inr (Or.inl ⟨hi, fun hmem => hout ?_⟩)
    exact Ast.notes_subset_of_mem (a := .node q k) hx hmem

/-- On the way from `t` to `t'` the programs `rs` took the place of `x`. Of the nodes outside of `x` only
the one that had it has other parts: a block has `rs` in the place of `x`, and a layer of slots has
one node there. -/
structure Program.Tree.Spliced (t t' : Tree) (x : Ast NodeId) (rs : List (Ast NodeId)) : Prop where
  kind_eq : ∀ i : NodeId, i.index < t.size → i ∉ x.notes → t.parent x.note ≠ some i →
    t'.kind i = t.kind i
  block_eq : ∀ (i : NodeId) (before after : List NodeId), t.parent x.note = some i →
    t.kind i = .block (before ++ x.note :: after) →
      t'.kind i = .block (before ++ rs.map Ast.note ++ after)
  slot_eq : ∀ i : NodeId, t.parent x.note = some i → (t.kind i).isList = false →
    ∃ one : NodeId, t'.kind i = (t.kind i).map fun j => if j = x.note then one else j

/-- A revision of the layer that has a program splices in the programs that take its place. -/
theorem Program.Tree.Revised.spliced {t t' : Tree} {x one : Ast NodeId} {q : NodeId}
    {k k' : Kind (Ast NodeId)} {before after rs : List (Ast NodeId)}
    (hr : Revised t t' (.node q k) (.node q k')) (h : t.Held (.node q k))
    (hk : k.children = before ++ x :: after)
    (hk' : k'.children = before ++ (if k.isList then rs else [one]) ++ after) :
    t.Spliced t' x rs := by
  have hparent : t.parent x.note = some q := h.holds.parent_eq (by simp [hk])
  have hkind : t.kind q = k.map Ast.note := h.holds.kind_eq
  have hkind' : t'.kind q = k'.map Ast.note := hr.held.holds.kind_eq
  -- The revised layer has the form of the old one, so that its parts determine it.
  have hswap : k' = k.swap x.note rs one :=
    calc k' = k.refill k'.children := Kind.eq_refill_of_outline hr.outline_eq
      _ = k.refill (k.swap x.note rs one).children := by
        rw [hk', children_swap_of_nodup h.nodup hk]
      _ = k.swap x.note rs one := (Kind.eq_refill_of_outline Kind.outline_swap).symm
  refine ⟨fun i hi hout hne => ?_, fun i front back hi hblock => ?_, fun i hi hlist => ?_⟩
  · refine (hr.same_of_ne h hk hk' hi hout ?_).1
    rintro rfl
    exact hne hparent
  · obtain rfl : q = i := Option.some.inj (hparent.symm.trans hi)
    rw [hkind] at hblock
    cases k with
    | block ss =>
        obtain rfl : ss = before ++ x :: after := hk
        have hstand : k' = .block (before ++ rs ++ after) := by
          rw [hswap] at hk' ⊢
          exact congrArg Kind.block hk'
        have hlist : (before ++ x :: after).map Ast.note = front ++ x.note :: back :=
          Kind.block.inj hblock
        -- The address of the part stands once in the list, so both cuts are at the same place.
        have honce : x.note ∉ (before ++ after).map Ast.note := fun hmem => by
          obtain ⟨d, hd, hnote⟩ := List.mem_map.1 hmem
          exact sibling_note_ne h.nodup rfl d hd hnote
        rw [List.map_append, List.mem_append, not_or] at honce
        rw [List.map_append, List.map_cons] at hlist
        obtain ⟨rfl, -, rfl⟩ := (List.append_cons_inj_of_notMem honce.1 honce.2).1 hlist
        rw [hkind', hstand, Kind.map, List.map_append, List.map_append]
    | _ => cases hblock
  · obtain rfl : q = i := Option.some.inj (hparent.symm.trans hi)
    rw [hkind, Kind.isList_map] at hlist
    refine ⟨one.note, ?_⟩
    rw [hkind', hswap, Kind.swap_of_not_isList hlist, hkind, Kind.map_map, Kind.map_map]
    exact Kind.map_congr fun d _ => apply_ite Ast.note _ _ _

namespace Expansion

/-- What a visit of the program `x` leaves: the programs to visit in its place, and the new session. -/
inductive Visited (c : ExpansionContext) (session : Session) :
    Ast NodeId → List (Ast NodeId) → Session → Prop
  | passed {x : Ast NodeId} (hhandled : x.note ∈ session.handled) : Visited c session x [] session
  | entered {x : Ast NodeId} (hhandled : x.note ∉ session.handled)
      (hlabel : Purity.isKnownLabel c.known x.kind = false) :
      Visited c session x x.kind.children session
  | stripped {p : NodeId} {label : String} {body : Ast NodeId} {session' : Session}
      (hhandled : p ∉ session.handled) (hknown : c.known label = true)
      (hstrip : shouldStrip c.strip c.environment label (metadataOf c session p) = true)
      (hsame : session'.handled = session.handled)
      (hapart : Apart session.tree session'.tree (.node p (.labeled label body)))
      (hleaves : session.tree.Leaves session'.tree (.node p (.labeled label body)) [])
      (hspliced : session.tree.Spliced session'.tree (.node p (.labeled label body)) []) :
      Visited c session (.node p (.labeled label body)) [] session'
  | expanded {p : NodeId} {label : String} {body : Ast NodeId} {s : Synthesizer}
      {pairs : List (Ast NodeId × Ast NodeId)} {session' : Session}
      (hhandled : p ∉ session.handled) (hs : c.table.get? label = some s)
      (hstrip : shouldStrip c.strip c.environment label (metadataOf c session p) = false)
      (hpure : Purity.violations c.known body = [])
      (hpairs : pairs.map Prod.fst = bodyRegion c.known session.handled body)
      (hmade : ∀ pair ∈ pairs,
        Made c s (metadataOf c session p) session.tree session'.tree pair.1 pair.2)
      (hnew : session'.handled = (pairs.map fun pair => pair.2.note).reverse ++ session.handled)
      (hapart : Apart session.tree session'.tree (.node p (.labeled label body)))
      (hplaced : ∀ r ∈ (body.subst (Ast.replacement pairs)).unwrapped,
        session.tree.Placed session'.tree (.node p (.labeled label body)) r)
      (hleaves : session.tree.Leaves session'.tree (.node p (.labeled label body))
        (body.subst (Ast.replacement pairs)).unwrapped)
      (hspliced : session.tree.Spliced session'.tree (.node p (.labeled label body))
        (body.subst (Ast.replacement pairs)).unwrapped) :
      Visited c session (.node p (.labeled label body))
        (body.subst (Ast.replacement pairs)).unwrapped session'

/-- A label that is refused: its body has a side effect. -/
def Refused (c : ExpansionContext) (x : Ast NodeId) : Prop :=
  ∃ (p : NodeId) (label : String) (body : Ast NodeId), x = .node p (.labeled label body) ∧
    Purity.violations c.known body ≠ []

theorem known_of_get? (c : ExpansionContext) {label : String} {s : Synthesizer}
    (h : c.table.get? label = some s) : c.known label = true := by
  rw [ExpansionContext.known, NameMap.contains, h]
  rfl

section Outcomes

variable {c : ExpansionContext} {s : Synthesizer} {session : Session} {q p : NodeId}
  {k k' : Kind (Ast NodeId)} {label : String} {body : Ast NodeId} {before after : List (Ast NodeId)}
  {pairs : List (Ast NodeId × Ast NodeId)} {t₁ t₂ : Tree}

/-- The statements that take the place of a label stand in the layer that had it. -/
theorem Unwrapped.placed {l l' b' : Ast NodeId}
    (hun : Unwrapped session.tree t₁ t₂ l l' b' q k k' before after)
    (h : session.tree.Held (.node q k)) (hl : l ∈ k.children) {r : Ast NodeId}
    (hr : r ∈ b'.unwrapped) : session.tree.Placed t₂ l r := by
  refine ⟨q, h.holds.parent_eq hl, ?_⟩
  have hlayer := hun.layer.held
  have hchildren := hun.children
  generalize b'.unwrapped = rs at hr hchildren
  have hmem : ∀ d ∈ (if k.isList then rs else [t₁.gathered rs]), d ∈ k'.children := by
    intro d hd
    rw [hchildren]
    exact List.mem_append_left _ (List.mem_append_right _ hd)
  -- In a list the statements stand in the layer itself. Elsewhere a single one does, and several are
  -- gathered in a new block, which is the node that the replacement allocates first.
  cases hlist : k.isList with
  | true =>
      rw [hlist] at hmem
      exact Or.inl (hlayer.holds.parent_eq (hmem r hr))
  | false =>
      rw [hlist] at hmem
      have hone := hmem (t₁.gathered rs) (List.mem_singleton.2 rfl)
      match rs, hr, hone with
      | [r'], hr, hone =>
          obtain rfl := List.mem_singleton.1 hr
          exact Or.inl (hlayer.holds.parent_eq hone)
      | r' :: r'' :: rs, hr, hone =>
          have hblock := (hlayer.part hone).holds
          refine Or.inr ⟨⟨t₁.size⟩, hun.label.size_le, ?_, hblock.parent_eq hr,
            hlayer.holds.parent_eq hone⟩
          have hkind : t₂.kind ⟨t₁.size⟩ = _ := hblock.kind_eq
          rw [hkind]
          rfl

/-- The outcome of expanding a label. -/
theorem visited_expanded (h : session.tree.Held (.node q k))
    (hk : k.children = before ++ .node p (.labeled label body) :: after)
    (hhandled : p ∉ session.handled) (hs : c.table.get? label = some s)
    (hstrip : shouldStrip c.strip c.environment label (metadataOf c session p) = false)
    (hpure : Purity.violations c.known body = [])
    (hpairs : pairs.map Prod.fst = bodyRegion c.known session.handled body)
    (hmade : ∀ pair ∈ pairs, Made c s (metadataOf c session p) session.tree t₁ pair.1 pair.2)
    (hun : Unwrapped session.tree t₁ t₂ (.node p (.labeled label body))
      (.node p (.labeled label (body.graftAll pairs))) (body.graftAll pairs) q k k' before after)
    (hleaves : session.tree.Leaves t₂ (.node p (.labeled label body))
      (body.graftAll pairs).unwrapped) :
    Visited c session (.node p (.labeled label body)) (body.graftAll pairs).unwrapped
      (expandedSession session t₂ pairs) := by
  have hmem : .node p (.labeled label body) ∈ k.children := by simp [hk]
  have hbody := (h.part hmem).part (c := body) (List.mem_singleton.2 rfl)
  have hplaced : ∀ r ∈ (body.graftAll pairs).unwrapped, session.tree.Placed
      (expandedSession session t₂ pairs).tree (.node p (.labeled label body)) r := fun r hr =>
    hun.placed h hmem hr
  have hspliced : session.tree.Spliced (expandedSession session t₂ pairs).tree
      (.node p (.labeled label body)) (body.graftAll pairs).unwrapped :=
    hun.layer.spliced h hk hun.children
  rw [graftAll_eq_subst_of_made hbody hpairs hmade] at hplaced hleaves hspliced ⊢
  exact .expanded hhandled hs hstrip hpure hpairs
    (fun pair hpair => (hmade pair hpair).grows hun.grows) rfl (hun.layer.apart h hk hun.children) hplaced
    hleaves hspliced

end Outcomes

end Expansion

end LogLabel
