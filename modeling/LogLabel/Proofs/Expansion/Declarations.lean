import LogLabel.Proofs.Expansion.Covered
import LogLabel.Proofs.Expansion.Edits
import Mathlib.Data.List.Find

set_option autoImplicit false

/-!
# Scopes of declarations

Expanding a label takes the label away and, when its body is a block, the block as well. The
statements of the block come to stand in what is around the label. This module says which
scopes of the source are around its declarations when the pass is over, for the table of the
built-in labels.

* `Kind.isDeclaration`, `Tree.opensScope`: the declarations, and the nodes that are scopes for them.
* `Expansion.Lifted`: what the expansion of a label does to the ancestors of a node in its body.
* `Expansion.Stands`: the invariant of the pass. A statement has its form and all scopes of the source
  around it but blocks of labels, and a block of a label stands below its label.
* `Expansion.declaration_scope_eq`: when the pass is over, the innermost scope of a declaration is the
  one it has in the source, not counting blocks of labels; and only classes stand in such a block.
-/

namespace LogLabel

open Program (Ast Kind NodeId Span Tree)
open Program.Tree (Rooted Apart Placed)

namespace Program

/-- Whether a layer is a statement that declares variables, a function or a class. -/
def Kind.isDeclaration {α : Type} : Kind α → Bool
  | .varDecl _ _ => true
  | .function head _ => head.form == .declaration
  | .classDef _ _ _ isDeclaration => isDeclaration
  | _ => false

theorem Kind.isStatement_of_isDeclaration {α : Type} {k : Kind α} (h : k.isDeclaration = true) :
    k.isStatement = true := by
  cases k <;> first | rfl | exact h

/-- Whether a node is the program, a block, or the body of a function or a method. -/
def Tree.opensScope (t : Tree) (i : NodeId) : Bool :=
  (t.kind i).isList || (t.parent i).any fun p => (t.kind p).functionBody? == some i

theorem Tree.index_lt_of_opensScope {t : Tree} {i : NodeId} (h : t.opensScope i = true) :
    i.index < t.size := by
  refine Nat.lt_of_not_le fun hle => ?_
  rw [opensScope, kind, parent, t.node?_eq_none hle] at h
  cases h

end Program

/-- All declarations but those of classes are refused below a label. -/
theorem Purity.construct?_of_isDeclaration {α : Type} {k : Kind α} (h : k.isDeclaration = true)
    (hclass : k.isClass = false) : construct? k ≠ none := by
  cases k with
  | classDef _ _ _ _ => cases hclass
  | _ => first | exact Option.some_ne_none _ | cases h

namespace Expansion

/-! ## Lifting out of a label -/

/-- On the way from `t` to `t'` the label `p` was expanded, and the node `i` of its body came to stand in
what was around the label, with the nodes `inner` still around it. The label is gone from the
ancestors of the node and so is the body, if it is a block; the nodes `new` have come in. -/
structure Lifted (t t' : Tree) (p : NodeId) (body : Ast NodeId) (i : NodeId)
    (inner new : List NodeId) : Prop where
  before : body.kind.isBlock = true ∧ t.ancestors i = inner ++ body.note :: p :: t.ancestors p ∨
    (inner = [] → (t.kind i).isBlock = false) ∧ t.ancestors i = inner ++ p :: t.ancestors p
  after : t'.ancestors i = inner ++ new ++ t.ancestors p
  fresh : ∀ g ∈ new, t.size ≤ g.index
  outline_eq : (t'.kind i).outline = (t.kind i).outline

section Lifting

variable {t t' : Tree} {a a' body : Ast NodeId} {p i : NodeId} {label : String}
  {f : NodeId → Option (Ast NodeId)}

/-- What is unwrapped from a body with replaced parts: it is in what was put in, or it is unwrapped from
the body, with replaced parts. -/
theorem exists_of_unwrapped_subst {r : Ast NodeId} (hr : r ∈ (body.subst f).unwrapped) :
    (∃ j m, f j = some m ∧ r.Part m) ∨ ∃ r₀ ∈ body.unwrapped, r = r₀.subst f := by
  obtain ⟨b, k⟩ := body
  have hsubst := Ast.subst_node f b k
  cases hb : f b with
  | some m =>
      rw [hsubst, hb] at hr
      exact Or.inl ⟨b, m, hb, Ast.unwrapped_part hr⟩
  | none =>
      rw [hb, Option.getD_none] at hsubst
      rw [hsubst] at hr
      refine Or.inr ?_
      cases k with
      | block ss =>
          obtain ⟨r₀, hr₀, rfl⟩ := List.mem_map.1 hr
          exact ⟨r₀, hr₀, rfl⟩
      | empty => exact absurd hr List.not_mem_nil
      | _ => exact ⟨_, List.mem_singleton.2 rfl, (List.mem_singleton.1 hr).trans hsubst.symm⟩

/-- The nodes of the body that are still there after the expansion are lifted out of the label. -/
theorem exists_lifted (ht : t.Rooted a) (hx : (Ast.node p (.labeled label body)).Part a)
    (ht' : t'.Rooted a') (hapart : Apart t t' (.node p (.labeled label body)))
    (hparts : ∀ r ∈ (body.subst f).unwrapped, r.Part a')
    (hplaced : ∀ r ∈ (body.subst f).unwrapped, Placed t t' (.node p (.labeled label body)) r)
    (hf : ∀ j m, f j = some m → i ∉ m.notes)
    (hi : i ∈ (body.subst f).unwrapped.flatMap Ast.notes) :
    i ∈ body.notes ∧ ∃ inner new : List NodeId, Lifted t t' p body i inner new := by
  obtain ⟨r, hr, hi⟩ := List.mem_flatMap.1 hi
  obtain ⟨d, hd, rfl⟩ := Ast.Part.exists_of_mem hi
  have houtside : ∀ j m, f j = some m → ¬ d.Part m := fun j m hm hdm =>
    hf j m hm (hdm.notes_subset d.note_mem_notes)
  obtain ⟨r₀, hr₀, rfl⟩ := (exists_of_unwrapped_subst hr).resolve_left
    fun ⟨j, m, hm, hrm⟩ => houtside j m hm (hd.trans hrm)
  -- The node stands below the same nodes in the body before and after the replacement.
  obtain ⟨bs, hbs⟩ := hd.exists_at
  obtain ⟨d₀, bs₀, hd₀, hinner, -, hkept⟩ := (Ast.at_subst r₀ hbs).resolve_left
    fun ⟨j, m, hm, hdm⟩ => houtside j m hm hdm
  have hnote : d.note = d₀.note := by rw [hkept, Ast.note_node]
  have hbody : body.Part a := Ast.part_of_labeled hx
  have hr₀body := Ast.unwrapped_part hr₀
  have hd₀a := hd₀.part.trans (hr₀body.trans hbody)
  have hra := hparts _ hr
  have hkind := (ht.toHeld.of_part hd₀a).holds.kind_eq
  have hbefore : t.ancestors d.note = bs.map Ast.note ++ t.ancestors r₀.note := by
    rw [hnote, hinner, ht.ancestors_at hd₀ (hr₀body.trans hbody)]
  obtain ⟨new, hnew, hfresh⟩ := (hplaced _ hr).exists_ancestors hapart ht hx ht' hra
  refine ⟨hnote ▸ (hd₀.part.trans hr₀body).notes_subset d₀.note_mem_notes, bs.map Ast.note, new,
    ?_, ?_, fun g hg => (hfresh g hg).1, ?_⟩
  · rcases ancestors_unwrapped ht hx hr₀ with ⟨hblock, houter⟩ | ⟨⟨hblock, rfl⟩, houter⟩
    · exact Or.inl ⟨hblock, by rw [hbefore, houter]⟩
    · refine Or.inr ⟨fun hnil => ?_, by rw [hbefore, houter]⟩
      obtain rfl := List.map_eq_nil_iff.1 (hinner.symm.trans hnil)
      rw [hnote, hkind, Kind.isBlock_map, hd₀.eq_of_nil, hblock]
  · rw [ht'.ancestors_at hbs hra, hnew, List.append_assoc, Ast.note_node]
  · rw [(ht'.toHeld.of_part (hd.trans hra)).holds.kind_eq, hnote, hkind, hkept, Ast.kind_node,
      Kind.outline_map, Kind.outline_map, Kind.outline_map]

end Lifting

/-! ## The invariant of the pass -/

/-- Whether a node is the block of a label of a log statement. -/
def isLabelBlock (known : String → Bool) (t : Tree) (i : NodeId) : Bool :=
  (t.kind i).isBlock && (t.parent i).any fun p => Purity.isKnownLabel known (t.kind p)

/-- Whether a node is a scope that the pass leaves: it is no label of a log statement, and not the block
of one. -/
def lastingScope (known : String → Bool) (t : Tree) (i : NodeId) : Bool :=
  t.opensScope i && !(Purity.isKnownLabel known (t.kind i) || isLabelBlock known t i)

/-- How a statement `i` of the source stands in the tree `t`. -/
structure Stands (known : String → Bool) (t₀ t : Tree) (i : NodeId) : Prop where
  source : i ∈ t₀.program.notes
  outline_eq : (t.kind i).outline = (t₀.kind i).outline
  scopes_eq : (t.ancestors i).filter (lastingScope known t₀)
    = (t₀.ancestors i).filter (lastingScope known t₀)
  below_label : isLabelBlock known t₀ i = true →
    ∃ p outer, t.ancestors i = p :: outer ∧ Purity.isKnownLabel known (t₀.kind p) = true

/-- What the pass has made is new, and the statements of the source that are left in the program stand
as the source says. -/
structure Standing (c : ExpansionContext) (t₀ : Tree) (session : Session) : Prop where
  made : ∀ i ∈ session.handled, t₀.size ≤ i.index
  stands : ∀ i : NodeId, i.index < t₀.size → (t₀.kind i).isStatement = true →
    i ∈ session.tree.program.notes → Stands c.known t₀ session.tree i

section Invariant

variable {known : String → Bool} {c : ExpansionContext} {t₀ t t' : Tree}
  {session session' : Session} {ps rs : List (Ast NodeId)} {a a' x y body : Ast NodeId}
  {p i : NodeId} {label : String}

theorem exists_label_of_isLabelBlock (h : isLabelBlock known t i = true) :
    (t.kind i).isBlock = true ∧
      ∃ p, t.parent i = some p ∧ Purity.isKnownLabel known (t.kind p) = true := by
  obtain ⟨hblock, hlabel⟩ := Bool.and_eq_true_iff.1 h
  exact ⟨hblock, (Option.any_eq_true _ _).1 hlabel⟩

theorem lastingScope_of_label (h : Purity.isKnownLabel known (t.kind i) = true) :
    lastingScope known t i = false := by
  rw [lastingScope, h, Bool.true_or, Bool.not_true, Bool.and_false]

theorem lastingScope_of_new (h : t.size ≤ i.index) : lastingScope known t i = false := by
  rw [Bool.eq_false_iff]
  intro hscope
  exact Nat.not_lt.2 h (Tree.index_lt_of_opensScope (Bool.and_eq_true_iff.1 hscope).1)

/-- A block of a label, like a new node, is no scope that stays and no label. -/
theorem lastingScope_of_block (h : t.size ≤ i.index ∨ isLabelBlock known t i = true) :
    lastingScope known t i = false ∧ Purity.isKnownLabel known (t.kind i) = false := by
  rcases h with h | h
  · refine ⟨lastingScope_of_new h, ?_⟩
    rw [Tree.kind, t.node?_eq_none h]
    rfl
  · refine ⟨by rw [lastingScope, h, Bool.or_true, Bool.not_true, Bool.and_false], ?_⟩
    obtain ⟨hblock, -⟩ := exists_label_of_isLabelBlock h
    cases hk : t.kind i <;> rw [hk] at hblock <;> first | rfl | cases hblock

theorem stands_start (hsource : Source t₀) (hi : i ∈ t₀.program.notes) : Stands known t₀ t₀ i := by
  refine ⟨hi, rfl, rfl, fun hblock => ?_⟩
  obtain ⟨d, hd, rfl⟩ := Ast.Part.exists_of_mem hi
  obtain ⟨-, p, hparent, hlabel⟩ := exists_label_of_isLabelBlock hblock
  exact ⟨p, _, hsource.rooted.ancestors_of_parent hd hparent, hlabel⟩

/-- An edit of another program changes nothing for a statement. -/
theorem Stands.apart (h : Stands known t₀ t x.note) (hapart : Apart t t' y) (ht : t.Rooted a)
    (hx : x.Part a) (hy : y.Part a) (hxy : x.note ∉ y.notes) : Stands known t₀ t' x.note := by
  have hancestors := hapart.ancestors_eq ht hx hy hxy
  refine ⟨h.source, ?_, by rw [hancestors, h.scopes_eq], by rw [hancestors]; exact h.below_label⟩
  rw [hapart.outline_eq _ (ht.toHeld.of_part hx).holds.note_stored hxy, h.outline_eq]

/-- A statement that is lifted out of a label. Only the label, its block and new nodes have changed
around it. -/
theorem Stands.lifted {inner new : List NodeId} (h : Stands known t₀ t i)
    (hlifted : Lifted t t' p body i inner new) (hsize : t₀.size ≤ t.size)
    (hlabel : Purity.isKnownLabel known (t₀.kind p) = true)
    (hbody : body.kind.isBlock = true →
      t₀.size ≤ body.note.index ∨ isLabelBlock known t₀ body.note = true) :
    Stands known t₀ t' i := by
  have hnew : new.filter (lastingScope known t₀) = [] := by
    rw [List.filter_eq_nil_iff]
    intro g hg
    rw [lastingScope_of_new (Nat.le_trans hsize (hlifted.fresh g hg))]
    exact Bool.false_ne_true
  have hp := lastingScope_of_label hlabel
  refine ⟨h.source, hlifted.outline_eq.trans h.outline_eq, ?_, fun hblock => ?_⟩
  · rw [← h.scopes_eq, hlifted.after]
    rcases hlifted.before with ⟨hb, hbefore⟩ | ⟨-, hbefore⟩
    · simp [hbefore, hnew, hp, (lastingScope_of_block (hbody hb)).1]
    · simp [hbefore, hnew, hp]
  · obtain ⟨q, outer, hancestors, hq⟩ := h.below_label hblock
    cases inner with
    | cons j inner =>
        -- The nearest ancestor is inside of the label, so it is the same as before.
        have hj : j = q := by
          rcases hlifted.before with ⟨-, hbefore⟩ | ⟨-, hbefore⟩ <;>
            exact (List.cons.inj (hbefore.symm.trans hancestors)).1
        exact ⟨j, _, hlifted.after, hj ▸ hq⟩
    | nil =>
        -- What stands directly in the label is no block, and what stands in its block is below no label.
        rcases hlifted.before with ⟨hb, hbefore⟩ | ⟨hb, -⟩
        · obtain ⟨rfl, -⟩ := List.cons.inj (hbefore.symm.trans hancestors)
          rw [(lastingScope_of_block (hbody hb)).2] at hq
          cases hq
        · obtain ⟨hblock, -⟩ := exists_label_of_isLabelBlock hblock
          rw [← Kind.isBlock_outline, ← h.outline_eq, Kind.isBlock_outline, hb rfl] at hblock
          cases hblock

/-- The body of a label that is visited, if it is a block, is the block of the label in the source, or a
block that the pass has made. -/
theorem Awaits.labelBlock_of_isBlock {s : Synthesizer} (hsource : Source t₀) (htame : c.table.Tame)
    (hmade : ∀ j ∈ session.handled, t₀.size ≤ j.index)
    (hx : Awaits c t₀ session (.node p (.labeled label body))) (hhandled : p ∉ session.handled)
    (hs : c.table.get? label = some s) :
    Purity.isKnownLabel c.known (t₀.kind p) = true ∧ (body.kind.isBlock = true →
      t₀.size ≤ body.note.index ∨ isLabelBlock c.known t₀ body.note = true) := by
  obtain ⟨body₀, hlabel, hbecomes⟩ := hx.label_of_source htame hhandled hs
  have hheld := hsource.rooted.toHeld.of_part hlabel
  have hmem : body₀ ∈ (Ast.node p (.labeled label body₀)).kind.children := List.mem_singleton.2 rfl
  have hkind : t₀.kind p = .labeled label body₀.note := hheld.holds.kind_eq
  have hknown : Purity.isKnownLabel c.known (t₀.kind p) = true := by
    rw [hkind]
    exact known_of_get? c hs
  refine ⟨hknown, fun hblock => ?_⟩
  by_cases hbody : body.note ∈ session.handled
  · exact Or.inl (hmade _ hbody)
  · obtain ⟨g, rfl, -⟩ := hbecomes.exists_layer hbody
    have hparent : t₀.parent body₀.note = some p := hheld.holds.parent_eq hmem
    rw [Ast.kind_node, Kind.isBlock_map] at hblock
    refine Or.inr ?_
    rw [Ast.note_node, isLabelBlock, (hheld.part hmem).holds.kind_eq, Kind.isBlock_map, hblock,
      hparent]
    exact hknown

/-- One visit keeps the invariant. -/
theorem Standing.visit (hsource : Source t₀) (htable : c.table = LabelTable.defaults)
    (hfaithful : Faithful c t₀ (x :: ps) session) (h : Standing c t₀ session)
    (htracks : Tracks session.tree (x :: ps) a) (htracks' : Tracks session'.tree (rs ++ ps) a')
    (hvisited : Visited c session x rs session') : Standing c t₀ session' := by
  have hx := htracks.parts x List.mem_cons_self
  have hsize := hfaithful.grows.size_le
  have hedited := hvisited.edited htable
  -- A statement outside of the label that is visited stands as before.
  have houtside : Apart session.tree session'.tree x → ∀ i : NodeId, i.index < t₀.size →
      (t₀.kind i).isStatement = true → i ∈ session.tree.program.notes → i ∉ x.notes →
      Stands c.known t₀ session'.tree i := by
    intro hapart i hstored hstatement hi hix
    have hstands := h.stands i hstored hstatement hi
    rw [htracks.program_eq] at hi
    obtain ⟨d, hd, rfl⟩ := Ast.Part.exists_of_mem hi
    exact hstands.apart hapart htracks.toRooted hd hx hix
  have hmade : Edited session session' x rs → ∀ j ∈ session'.handled, t₀.size ≤ j.index :=
    fun hedited j hj => (hedited.handled_origin j hj).elim (h.made j) (Nat.le_trans hsize)
  cases hvisited with
  | passed hhandled => exact h
  | entered hhandled hlabel => exact h
  | stripped hhandled hknown hstrip hsame hapart hleaves =>
      refine ⟨hmade (hedited hhandled hknown), fun i hstored hstatement hi => ?_⟩
      rcases hleaves i hi with hi | ⟨hi, hix⟩ | ⟨hge, -⟩
      · exact absurd hi List.not_mem_nil
      · exact houtside hapart i hstored hstatement hi hix
      · exact absurd hstored (Nat.not_lt.2 (Nat.le_trans hsize hge))
  | @expanded p label body s pairs _ hhandled hs hstrip hpure hpairs hmadeOf hnew hapart hplaced
      hleaves =>
      have htame : c.table.Tame := by
        rw [htable]
        exact LabelTable.defaults_plain.tame
      have hawaits := hfaithful.pending _ List.mem_cons_self
      obtain ⟨hlabel, hbody⟩ := hawaits.labelBlock_of_isBlock hsource htame h.made hhandled hs
      refine ⟨hmade (hedited hhandled (known_of_get? c hs)), fun i hstored hstatement hi => ?_⟩
      rcases hleaves i hi with hi | ⟨hi, hix⟩ | ⟨hge, -⟩
      · have hout : ∀ j m, Ast.replacement pairs j = some m → i ∉ m.notes := by
          intro j m hm hmem
          obtain ⟨pair, hpair, -, rfl⟩ := Ast.mem_of_replacement hm
          have hregion := hpairs ▸ List.mem_map.2 ⟨pair, hpair, rfl⟩
          rw [((hmadeOf pair hpair).harmless_of_mem hsource htame (Nat.lt_of_lt_of_le hstored hsize)
            hawaits hhandled hs hpure hregion hmem).1] at hstatement
          cases hstatement
        obtain ⟨hmem, inner, new, hlifted⟩ := exists_lifted htracks.toRooted hx htracks'.toRooted
          hapart (fun r hr => htracks'.parts r (List.mem_append_left _ hr)) hplaced hout hi
        have hi : i ∈ session.tree.program.notes := by
          rw [htracks.program_eq]
          exact (Ast.part_of_labeled hx).notes_subset hmem
        exact (h.stands i hstored hstatement hi).lifted hlifted hsize hlabel hbody
      · exact houtside hapart i hstored hstatement hi hix
      · exact absurd hstored (Nat.not_lt.2 (Nat.le_trans hsize hge))

end Invariant

/-! ## After the pass -/

section Passes

variable {text : String} {t : Tree} {c : ExpansionContext} {session : Session} {a : Ast NodeId}
  {i : NodeId}

theorem Complete.not_label (h : Complete c [] session) (hi : i ∈ session.tree.program.notes) :
    Purity.isKnownLabel c.known (session.tree.kind i) = false := by
  rw [Bool.eq_false_iff]
  intro hlabel
  obtain ⟨x, hx, -⟩ := h.labels i hi hlabel
  exact absurd hx List.not_mem_nil

/-- At the end no label of a log statement in the source is left. -/
theorem Standing.not_mem_of_label (h : Standing c t session) (hcomplete : Complete c [] session)
    (hlabel : Purity.isKnownLabel c.known (t.kind i) = true) : i ∉ session.tree.program.notes := by
  intro hi
  have hstored : i.index < t.size := t.index_lt_of_kind_ne fun hempty => by
    rw [hempty] at hlabel
    cases hlabel
  have hstatement : (t.kind i).isStatement = true := by
    cases hk : t.kind i <;> rw [hk] at hlabel <;> first | rfl | cases hlabel
  have hstands := h.stands i hstored hstatement hi
  rw [← isKnownLabel_outline, ← hstands.outline_eq, isKnownLabel_outline, hcomplete.not_label hi]
    at hlabel
  cases hlabel

/-- At the end a scope of the source that is left is no block of a label: it would stand below it. -/
theorem Standing.lastingScope_eq (h : Standing c t session) (hcomplete : Complete c [] session)
    (ht : session.tree.Rooted a) (hi : i ∈ session.tree.program.notes) :
    lastingScope c.known t i = t.opensScope i := by
  cases hscope : t.opensScope i with
  | false => rw [lastingScope, hscope, Bool.false_and]
  | true =>
      have hlabel : Purity.isKnownLabel c.known (t.kind i) = false := by
        rw [Bool.eq_false_iff]
        exact fun hlabel => h.not_mem_of_label hcomplete hlabel hi
      have hblock : isLabelBlock c.known t i = false := by
        rw [Bool.eq_false_iff]
        intro hblock
        obtain ⟨hkind, -⟩ := exists_label_of_isLabelBlock hblock
        have hstatement : (t.kind i).isStatement = true := by
          cases hk : t.kind i <;> rw [hk] at hkind <;> first | rfl | cases hkind
        obtain ⟨p, outer, hancestors, hp⟩ :=
          (h.stands i (Tree.index_lt_of_opensScope hscope) hstatement hi).below_label hblock
        rw [ht.program_eq] at hi
        obtain ⟨d, hd, rfl⟩ := Ast.Part.exists_of_mem hi
        obtain ⟨e, he, rfl, -⟩ := ht.exists_of_ancestor hd (hancestors ▸ List.mem_cons_self)
        exact h.not_mem_of_label hcomplete hp (kind_of_part ht he).1
      rw [lastingScope, hscope, hlabel, hblock]
      rfl

/-- When the pass over a source is over, its statements stand as the source says, and no label of a log
statement is left. -/
theorem standing_of_run (hparse : Program.parse .source text = .ok t)
    (hc : c.table = LabelTable.defaults) (hrun : run c t = .ok session) :
    (∃ a, Tracks session.tree [] a) ∧ Complete c [] session ∧ Standing c t session := by
  have hsource := source_parse hparse
  have htable : Options.buildTable none [] = .ok c.table := hc ▸ Options.buildTable_none
  have hplain : c.table.Plain := hc ▸ LabelTable.defaults_plain
  obtain ⟨ps, a, hps, htracks, -, hcomplete, hstanding⟩ := tracked_faithful_and hparse htable
    (fun ps session => Complete c ps session ∧ Standing c t session)
    ⟨complete_start hparse, by simp, fun i _ _ hi => stands_start hsource hi⟩
    (fun hfaithful htracks htracks' hvisited h =>
      ⟨h.1.visit hsource hplain hfaithful htracks htracks' hvisited,
        h.2.visit hsource hc hfaithful htracks htracks' hvisited⟩)
    (iterates_of_run hrun)
  obtain rfl := List.map_eq_nil_iff.1 hps.symm
  exact ⟨⟨a, htracks⟩, hcomplete, hstanding⟩

/-- A construct that is refused below labels and is left at the end has no label of a log statement around
it in the source. -/
theorem not_below_label (hparse : Program.parse .source text = .ok t)
    (hc : c.table = LabelTable.defaults) (hrun : run c t = .ok session)
    (hconstruct : Purity.construct? (t.kind i) ≠ none) (hi : i ∈ session.tree.program.notes) :
    ∀ j ∈ t.ancestors i, Purity.isKnownLabel c.known (t.kind j) = false := by
  intro j hj
  rw [Bool.eq_false_iff]
  intro hlabel
  have hsource := source_parse hparse
  have htable : Options.buildTable none [] = .ok c.table := hc ▸ Options.buildTable_none
  have htame : c.table.Tame := hc ▸ LabelTable.defaults_plain.tame
  have hstored : i.index < t.size := t.index_lt_of_kind_ne fun hempty => hconstruct (by rw [hempty]; rfl)
  obtain ⟨ps, a, hps, htracks, -, hcovered⟩ := tracked_faithful_and hparse htable
    (fun _ session => Covered c.known t i session.tree) (fun _ => ⟨rfl, j, hj, hlabel⟩)
    (fun hfaithful htracks htracks' hvisited h =>
      h.visit hsource htame hconstruct hstored hfaithful htracks htracks' hvisited)
    (iterates_of_run hrun)
  -- A label would still be around the construct, but none is left.
  obtain ⟨-, q, hq, hknown⟩ := hcovered hi
  obtain ⟨-, hcomplete, -⟩ := standing_of_run hparse hc hrun
  rw [htracks.program_eq] at hi
  obtain ⟨d, hd, rfl⟩ := Ast.Part.exists_of_mem hi
  obtain ⟨e, he, rfl, -⟩ := htracks.exists_of_ancestor hd hq
  rw [hcomplete.not_label (kind_of_part htracks.toRooted he).1] at hknown
  cases hknown

/-- Where no label of a log statement is around a node, there is no block of one either. -/
theorem lastingScope_eq_of_plain (ht : t.Rooted a) {x : Ast NodeId} (hx : x.Part a)
    (hplain : ∀ j ∈ t.ancestors x.note, Purity.isKnownLabel c.known (t.kind j) = false) :
    ∀ j ∈ t.ancestors x.note, lastingScope c.known t j = t.opensScope j := by
  intro j hj
  have hblock : isLabelBlock c.known t j = false := by
    rw [Bool.eq_false_iff]
    intro hblock
    obtain ⟨-, p, hparent, hlabel⟩ := exists_label_of_isLabelBlock hblock
    obtain ⟨d, hd, rfl, -⟩ := ht.exists_of_ancestor hx hj
    have hp : p ∈ t.ancestors d.note := by
      rw [ht.ancestors_of_parent hd hparent]
      exact List.mem_cons_self
    rw [hplain p ((ht.suffix_of_ancestor hx hj).subset (List.mem_cons_of_mem _ hp))] at hlabel
    cases hlabel
  rw [lastingScope, hplain j hj, hblock, Bool.or_false, Bool.not_false, Bool.and_true]

end Passes

/-- With the built-in labels, under any strip policy and environment: the innermost scope that a
declaration has when a pass over its source succeeds, among the scopes of the source, is the
innermost one that it had there, not counting blocks of labels of log statements. For a declaration
of variables or of a function this is the innermost one without exception. -/
theorem declaration_scope_eq {text : String} {t : Tree} (hparse : Program.parse .source text = .ok t)
    {c : ExpansionContext} (hc : c.table = LabelTable.defaults) {session : Session}
    (hrun : run c t = .ok session) {i : NodeId} (hdeclaration : (t.kind i).isDeclaration = true)
    (hreachable : session.tree.Reachable i) :
    (session.tree.ancestors i).find? t.opensScope
        = (t.ancestors i).find? (lastingScope c.known t) ∧
      ((t.kind i).isClass = false →
        (session.tree.ancestors i).find? t.opensScope = (t.ancestors i).find? t.opensScope) := by
  obtain ⟨⟨a, htracks⟩, hcomplete, hstanding⟩ := standing_of_run hparse hc hrun
  obtain ⟨d, hd, rfl⟩ := htracks.toRooted.exists_part hreachable
  have hmem := (kind_of_part htracks.toRooted hd).1
  have hstored : d.note.index < t.size := t.index_lt_of_kind_ne fun hempty => by
    rw [hempty] at hdeclaration
    cases hdeclaration
  have hstands := hstanding.stands d.note hstored (Kind.isStatement_of_isDeclaration hdeclaration) hmem
  have hlasting : ∀ j ∈ session.tree.ancestors d.note,
      t.opensScope j = lastingScope c.known t j := by
    intro j hj
    obtain ⟨e, he, rfl, -⟩ := htracks.exists_of_ancestor hd hj
    exact (hstanding.lastingScope_eq hcomplete htracks.toRooted (kind_of_part htracks.toRooted he).1).symm
  have hscope : (session.tree.ancestors d.note).find? t.opensScope
      = (t.ancestors d.note).find? (lastingScope c.known t) :=
    calc (session.tree.ancestors d.note).find? t.opensScope
        = (session.tree.ancestors d.note).find? (lastingScope c.known t) := List.find?_congr hlasting
      _ = ((session.tree.ancestors d.note).filter (lastingScope c.known t)).head? :=
        List.head?_filter.symm
      _ = ((t.ancestors d.note).filter (lastingScope c.known t)).head? := by rw [hstands.scopes_eq]
      _ = (t.ancestors d.note).find? (lastingScope c.known t) := List.head?_filter
  refine ⟨hscope, fun hclass => ?_⟩
  have hplain := not_below_label hparse hc hrun
    (Purity.construct?_of_isDeclaration hdeclaration hclass) hmem
  obtain ⟨d₀, hd₀, hnote⟩ := Ast.Part.exists_of_mem hstands.source
  rw [← hnote] at hplain
  rw [hscope, ← hnote]
  exact List.find?_congr (lastingScope_eq_of_plain (source_parse hparse).rooted hd₀ hplain)

/-- The declarations that are left, whether each is of a class, and the innermost scope of the source
around it before and after the pass. -/
def scopesOf (t : Tree) (session : Session) :
    List (NodeId × Bool × Option NodeId × Option NodeId) :=
  (session.tree.program.notes.filter fun i => (t.kind i).isDeclaration).map fun i =>
    (i, (t.kind i).isClass, (t.ancestors i).find? t.opensScope,
      (session.tree.ancestors i).find? t.opensScope)

theorem declaration_of_mem_scopesOf {text : String} {t : Tree} {session : Session} {i : NodeId}
    {isClass : Bool} {before after : Option NodeId} (hparse : Program.parse .source text = .ok t)
    (hrun : run plainContext t = .ok session) (h : (i, isClass, before, after) ∈ scopesOf t session) :
    (t.kind i).isDeclaration = true ∧ session.tree.Reachable i ∧ (t.kind i).isClass = isClass ∧
      (t.ancestors i).find? t.opensScope = before ∧
      (session.tree.ancestors i).find? t.opensScope = after := by
  obtain ⟨⟨a, htracks⟩, -⟩ := standing_of_run hparse rfl hrun
  obtain ⟨j, hj, heq⟩ := List.mem_map.1 h
  obtain ⟨hmem, hdeclaration⟩ := List.mem_filter.1 hj
  simp only [Prod.mk.injEq] at heq
  obtain ⟨rfl, hrest⟩ := heq
  rw [htracks.program_eq, htracks.toHeld.mem_notes_iff, htracks.root_eq, Tree.below_root_iff] at hmem
  exact ⟨hdeclaration, hmem, hrest⟩

/-- A class in the block of a label, and a variable after the label. -/
theorem declaration_scope_eq_beside_label :
    ∃ (t : Tree) (session : Session) (i j : NodeId),
      Program.parse .source "debug:{class A{}}var y" = .ok t ∧ run plainContext t = .ok session ∧
      ((t.kind i).isDeclaration = true ∧ session.tree.Reachable i ∧
        (session.tree.ancestors i).find? t.opensScope
          = (t.ancestors i).find? (lastingScope plainContext.known t)) ∧
      (t.kind j).isDeclaration = true ∧ session.tree.Reachable j ∧ (t.kind j).isClass = false ∧
        (session.tree.ancestors j).find? t.opensScope = (t.ancestors j).find? t.opensScope := by
  have hseen : observe plainContext scopesOf "debug:{class A{}}var y"
      = some [(⟨2⟩, true, some ⟨3⟩, some ⟨0⟩), (⟨6⟩, false, some ⟨0⟩, some ⟨0⟩)] := by decide +kernel
  obtain ⟨t, session, hparse, hrun, hscopes⟩ := exists_of_observe hseen
  obtain ⟨hdeclared, hreachable, -⟩ := declaration_of_mem_scopesOf (i := ⟨2⟩) hparse hrun
    (hscopes ▸ List.mem_cons_self)
  obtain ⟨hdeclared', hreachable', hclass', -⟩ := declaration_of_mem_scopesOf (i := ⟨6⟩) hparse hrun
    (hscopes ▸ List.mem_cons_of_mem _ List.mem_cons_self)
  exact ⟨t, session, ⟨2⟩, ⟨6⟩, hparse, hrun,
    ⟨hdeclared, hreachable, (declaration_scope_eq hparse rfl hrun hdeclared hreachable).1⟩,
    hdeclared', hreachable', hclass',
    (declaration_scope_eq hparse rfl hrun hdeclared' hreachable').2 hclass'⟩

/-- A class that is declared in the block of a label comes to stand in the program. -/
theorem class_leaves_block :
    ∃ (t : Tree) (session : Session) (i : NodeId),
      Program.parse .source "debug:{class A{}x}" = .ok t ∧ run plainContext t = .ok session ∧
      (t.kind i).isDeclaration = true ∧ session.tree.Reachable i ∧
      (session.tree.ancestors i).find? t.opensScope ≠ (t.ancestors i).find? t.opensScope := by
  have hseen : observe plainContext scopesOf "debug:{class A{}x}"
      = some [(⟨2⟩, true, some ⟨5⟩, some ⟨0⟩)] := by decide +kernel
  obtain ⟨t, session, hparse, hrun, hscopes⟩ := exists_of_observe hseen
  obtain ⟨hdeclared, hreachable, -, hbefore, hafter⟩ := declaration_of_mem_scopesOf hparse hrun
    (hscopes ▸ List.mem_cons_self)
  refine ⟨t, session, ⟨2⟩, hparse, hrun, hdeclared, hreachable, ?_⟩
  rw [hbefore, hafter]
  decide

end Expansion

end LogLabel
