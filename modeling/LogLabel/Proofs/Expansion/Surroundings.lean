import LogLabel.Proofs.Expansion.Visit

set_option autoImplicit false

/-!
# The surroundings of a label

The metadata of a label are collected from its ancestors in the middle of the pass, when
labels and blocks around it are gone and new blocks have come in. This module says when they
are those of the parsed tree all the same, and that edits of the pass keep it so.

* `Rung`: what an ancestor of a label contributes to the metadata. Blocks, class bodies and
  the labels of log statements contribute nothing.
* `Expansion.Agrees`: a node has the same rungs around it as in the source, and no label of a
  log statement is left there. Then its path, its depth and its nearest scope are those of the
  source (`Expansion.Agrees.path_eq`, `Expansion.Agrees.indent_eq`, `Expansion.Agrees.scope_eq`).
* `Expansion.Agrees.apart`, `Expansion.Agrees.part`, `Expansion.Agrees.placed`: edits
  elsewhere, going to a part, and taking the place of a label keep the agreement.
-/

namespace LogLabel

open Program (Ast Kind NodeId Span Tree)
open Program.Tree (Held Rooted Apart Placed Grows)

/-- What an ancestor of a label contributes to its metadata. -/
inductive Rung where
  | scope (name : String)
  | program
  | level
deriving DecidableEq

namespace Rung

/-- The name of a scope. -/
def name? : Rung → Option String
  | .scope name => some name
  | _ => none

/-- Whether a rung is a level of nesting. -/
def isLevel : Rung → Bool
  | .level => true
  | _ => false

variable {α β : Type} (known : String → Bool)

/-- The rung that a layer is. -/
def ofKind? (line : Nat) (k : Kind α) : Option Rung :=
  match Expansion.Structural.scopeName? line k with
  | some name => some (.scope name)
  | none =>
      if k.isProgram then some .program
      else if k.isBlock || k.isClassBody || Purity.isKnownLabel known k then none
      else some .level

theorem ofKind?_outline (line : Nat) (k : Kind α) :
    ofKind? known line k.outline = ofKind? known line k := by
  rw [ofKind?, Tree.scopeName?_outline, ofKind?]
  cases k <;> rfl

/-- The rung that a node of a tree is, with the node. -/
def at? (t : Tree) (i : NodeId) : Option (NodeId × Rung) :=
  (ofKind? known (t.lineOf i) (t.kind i)).map (Prod.mk i)

/-- The rungs around a node, from the nearest outward. -/
def around (t : Tree) (i : NodeId) : List (NodeId × Rung) := (t.ancestors i).filterMap (at? known t)

variable {known}

theorem at?_eq {t t' : Tree} {i : NodeId} (hline : t'.lineOf i = t.lineOf i)
    (hkind : (t'.kind i).outline = (t.kind i).outline) : at? known t' i = at? known t i := by
  rw [at?, at?, hline, ← ofKind?_outline, hkind, ofKind?_outline]

theorem at?_of_block {t : Tree} {i : NodeId} (h : (t.kind i).isBlock = true) :
    at? known t i = none := by
  rw [at?, ofKind?]
  cases hk : t.kind i with
  | block body => rfl
  | _ => rw [hk] at h; cases h

theorem at?_of_label {t : Tree} {i : NodeId} (h : Purity.isKnownLabel known (t.kind i) = true) :
    at? known t i = none := by
  rw [at?, ofKind?]
  cases hk : t.kind i with
  | labeled label body =>
      rw [hk] at h
      simp only [Expansion.Structural.scopeName?, h, Bool.or_true, if_true]
      rfl
  | _ => rw [hk] at h; cases h

/-! ## Metadata from rungs -/

variable (known)

/-- The names of scopes are those of the rungs. -/
theorem filterMap_scopeName? (t : Tree) (l : List NodeId) :
    l.filterMap (Metadata.scopeName? t)
      = (l.filterMap (at? known t)).filterMap fun rung => rung.2.name? := by
  rw [List.filterMap_filterMap]
  refine List.filterMap_congr fun i _ => ?_
  rw [Tree.scopeName?_eq, at?, ofKind?]
  cases Expansion.Structural.scopeName? (t.lineOf i) (t.kind i) with
  | some name => rfl
  | none =>
      simp only
      split
      · rfl
      · split <;> rfl

/-- The levels below the nearest scope are those of the rungs. -/
theorem countP_levels (t : Tree) (l : List NodeId) :
    (l.takeWhile fun i => !Metadata.isScope t i).countP
        (fun i => Metadata.isLevel t i && !Purity.isKnownLabel known (t.kind i))
      = ((l.filterMap (at? known t)).takeWhile fun rung => rung.2.isLevel).length := by
  induction l with
  | nil => rfl
  | cons i l ih =>
      have hscope : Metadata.isScope t i
          = ((Expansion.Structural.scopeName? (t.lineOf i) (t.kind i)).isSome
            || (t.kind i).isProgram) := by
        rw [Metadata.isScope, Tree.scopeName?_eq]
      rw [List.takeWhile_cons, List.filterMap_cons, hscope, at?, ofKind?]
      cases Expansion.Structural.scopeName? (t.lineOf i) (t.kind i) with
      | some name => simp [isLevel]
      | none =>
          cases (t.kind i).isProgram with
          | true => simp [isLevel]
          | false =>
              -- A level is counted on both sides, and any other node on neither.
              have hlevel : Metadata.isLevel t i
                  = (!(t.kind i).isBlock && !(t.kind i).isClassBody) := rfl
              simp only [Option.isSome_none, Bool.or_false, Bool.not_false, if_true, List.countP_cons,
                ih, hlevel, Bool.false_eq_true, if_false]
              cases (t.kind i).isBlock <;> cases (t.kind i).isClassBody <;>
                cases Purity.isKnownLabel known (t.kind i) <;> simp [isLevel]

/-- A scope is a rung. -/
theorem exists_at?_of_isScope {t : Tree} {i : NodeId} (h : Metadata.isScope t i = true) :
    ∃ rung : Rung, at? known t i = some (i, rung) := by
  rw [Metadata.isScope, Tree.scopeName?_eq] at h
  rw [at?, ofKind?]
  cases hname : Expansion.Structural.scopeName? (t.lineOf i) (t.kind i) with
  | some name => exact ⟨.scope name, rfl⟩
  | none =>
      rw [hname, Option.isSome_none, Bool.false_or] at h
      exact ⟨.program, by simp [h]⟩

/-- The nearest scope is that of the nearest rung that is no level. -/
theorem find?_isScope (t : Tree) (l : List NodeId) :
    l.find? (Metadata.isScope t)
      = ((l.filterMap (at? known t)).find? fun rung => !rung.2.isLevel).map Prod.fst := by
  induction l with
  | nil => rfl
  | cons i l ih =>
      rw [List.find?_cons, List.filterMap_cons, Metadata.isScope, Tree.scopeName?_eq, at?, ofKind?, ih]
      cases Expansion.Structural.scopeName? (t.lineOf i) (t.kind i) with
      | some name => simp [isLevel]
      | none =>
          cases (t.kind i).isProgram with
          | true => simp [isLevel]
          | false =>
              cases (t.kind i).isBlock || (t.kind i).isClassBody || Purity.isKnownLabel known (t.kind i) <;>
                simp [isLevel]

end Rung

namespace Expansion

/-! ## Agreeing surroundings -/

/-- The node `i` has the same rungs around it in `t` as in the source `t₀`, and no label of a log
statement is left around it. -/
structure Agrees (known : String → Bool) (t₀ t : Tree) (i : NodeId) : Prop where
  rungs_eq : Rung.around known t i = Rung.around known t₀ i
  plain : ∀ j ∈ t.ancestors i, Purity.isKnownLabel known (t.kind j) = false

theorem isKnownLabel_outline {α : Type} (known : String → Bool) (k : Kind α) :
    Purity.isKnownLabel known k.outline = Purity.isKnownLabel known k := by
  cases k <;> rfl

section Agrees

variable {known : String → Bool} {t₀ t t' : Tree} {i : NodeId} {a a' x y r : Ast NodeId}

/-- The scopes around a node whose surroundings agree. -/
theorem Agrees.path_eq (h : Agrees known t₀ t i) :
    (t.ancestors i).filterMap (Metadata.scopeName? t)
      = (t₀.ancestors i).filterMap (Metadata.scopeName? t₀) := by
  rw [Rung.filterMap_scopeName? known, Rung.filterMap_scopeName? known]
  exact congrArg _ h.rungs_eq

/-- The depth of a node whose surroundings agree. -/
theorem Agrees.indent_eq (h : Agrees known t₀ t i) :
    ((t.ancestors i).takeWhile fun j => !Metadata.isScope t j).countP (Metadata.isLevel t)
      = ((t₀.ancestors i).takeWhile fun j => !Metadata.isScope t₀ j).countP
        fun j => Metadata.isLevel t₀ j && !Purity.isKnownLabel known (t₀.kind j) := by
  -- No label is left around the node, so that labels are not counted in the session either.
  have hplain : ((t.ancestors i).takeWhile fun j => !Metadata.isScope t j).countP (Metadata.isLevel t)
      = ((t.ancestors i).takeWhile fun j => !Metadata.isScope t j).countP
        fun j => Metadata.isLevel t j && !Purity.isKnownLabel known (t.kind j) := by
    refine List.countP_congr fun j hj => ?_
    rw [h.plain j ((List.takeWhile_sublist _).subset hj), Bool.not_false, Bool.and_true]
  rw [hplain, Rung.countP_levels, Rung.countP_levels]
  exact congrArg (fun rungs : List (NodeId × Rung) =>
    (rungs.takeWhile fun rung => rung.2.isLevel).length) h.rungs_eq

/-- The nearest scope around a node whose surroundings agree. -/
theorem Agrees.scope_eq (h : Agrees known t₀ t i) :
    (t.ancestors i).find? (Metadata.isScope t) = (t₀.ancestors i).find? (Metadata.isScope t₀) := by
  rw [Rung.find?_isScope known, Rung.find?_isScope known]
  exact congrArg (fun rungs : List (NodeId × Rung) =>
    (rungs.find? fun rung => !rung.2.isLevel).map Prod.fst) h.rungs_eq

/-- A scope around a node in the source is still around it. -/
theorem Agrees.mem_ancestors (h : Agrees known t₀ t i) {j : NodeId} (hj : j ∈ t₀.ancestors i)
    (hscope : Metadata.isScope t₀ j = true) : j ∈ t.ancestors i := by
  obtain ⟨rung, hrung⟩ := Rung.exists_at?_of_isScope known hscope
  have hmem : (j, rung) ∈ Rung.around known t i := by
    rw [h.rungs_eq]
    exact List.mem_filterMap.2 ⟨j, hj, hrung⟩
  obtain ⟨i', hi', hat⟩ := List.mem_filterMap.1 hmem
  obtain ⟨_, -, hpair⟩ := Option.map_eq_some_iff.1 hat
  obtain ⟨rfl, -⟩ := Prod.mk.inj hpair
  exact hi'

/-- An edit does not change the rungs outside of it. -/
theorem rungs_same_of_apart (known : String → Bool) {l : List NodeId} (h : Apart t t' y)
    (hstored : ∀ j ∈ l, j.index < t.size) (hout : ∀ j ∈ l, j ∉ y.notes) :
    ∀ j ∈ l, Rung.at? known t' j = Rung.at? known t j ∧
      Purity.isKnownLabel known (t'.kind j) = Purity.isKnownLabel known (t.kind j) := by
  intro j hj
  have houtline := h.outline_eq j (hstored j hj) (hout j hj)
  refine ⟨Rung.at?_eq (h.lineOf_eq (hstored j hj)) houtline, ?_⟩
  rw [← isKnownLabel_outline, houtline, isKnownLabel_outline]

/-- An edit of another program does not change what is around a part. -/
theorem Agrees.apart (h : Agrees known t₀ t x.note) (hapart : Apart t t' y) (ht : t.Rooted a)
    (hx : x.Part a) (hy : y.Part a) (hxy : x.note ∉ y.notes) : Agrees known t₀ t' x.note := by
  have hsame := rungs_same_of_apart known hapart (ht.chain hx).stored fun j hj =>
    ht.ancestor_not_mem hx hy hxy j (List.mem_cons_of_mem _ hj)
  have hancestors := hapart.ancestors_eq ht hx hy hxy
  refine ⟨?_, fun j hj => ?_⟩
  · rw [← h.rungs_eq, Rung.around, Rung.around, hancestors]
    exact List.filterMap_congr fun j hj => (hsame j hj).1
  · rw [hancestors] at hj
    rw [(hsame j hj).2, h.plain j hj]

/-- What is around a part of a program that has become of the source. -/
theorem Agrees.part {a₀ x₀ b b₀ : Ast NodeId} (h : Agrees known t₀ t x.note) (hgrows : Grows t₀ t)
    (ht₀ : t₀.Rooted a₀) (hx₀ : x₀.Part a₀) (hb₀ : b₀ ∈ x₀.kind.children) (ht : t.Rooted a)
    (hx : x.Part a) (hb : b ∈ x.kind.children) (hnote : x.note = x₀.note) (hbnote : b.note = b₀.note)
    (houtline : x.kind.outline = x₀.kind.outline)
    (hlabel : Purity.isKnownLabel known x.kind = false) : Agrees known t₀ t b.note := by
  have hx₀held := ht₀.toHeld.of_part hx₀
  have hkind := (ht.toHeld.of_part hx).holds.kind_eq
  have hancestors : t.ancestors b.note = x.note :: t.ancestors x.note := ht.ancestors_part hx hb
  have hancestors₀ : t₀.ancestors b.note = x.note :: t₀.ancestors x.note := by
    rw [hbnote, hnote]
    exact ht₀.ancestors_part hx₀ hb₀
  have hrung : Rung.at? known t x.note = Rung.at? known t₀ x.note := by
    refine Rung.at?_eq (hgrows.lineOf_eq ?_) ?_
    · rw [hnote]
      exact hx₀held.holds.note_stored
    · rw [hkind, Kind.outline_map, houtline, hnote, hx₀held.holds.kind_eq, Kind.outline_map]
  -- Both trees have one more ancestor here than above the part, and it is the same rung in both.
  refine ⟨?_, fun j hj => ?_⟩
  · rw [Rung.around, Rung.around, hancestors, hancestors₀, List.filterMap_cons, List.filterMap_cons,
      hrung]
    have hrest : (t.ancestors x.note).filterMap (Rung.at? known t)
        = (t₀.ancestors x.note).filterMap (Rung.at? known t₀) := h.rungs_eq
    rw [hrest]
  · rw [hancestors] at hj
    rcases List.mem_cons.1 hj with rfl | hj
    · rw [hkind, isKnownLabel_map, hlabel]
    · exact h.plain j hj

/-- What is around a program that takes the place of another one. -/
theorem Agrees.placed (h : Agrees known t₀ t x.note) (hplaced : Placed t t' x r)
    (hapart : Apart t t' x) (ht : t.Rooted a) (hx : x.Part a) (ht' : t'.Rooted a') (hr : r.Part a')
    (hsource : Rung.around known t₀ r.note = Rung.around known t₀ x.note) :
    Agrees known t₀ t' r.note := by
  -- The new ancestors are blocks, which are no rungs, and the old ones are outside of the edit.
  obtain ⟨new, hancestors, hblocks⟩ := hplaced.exists_ancestors hapart ht hx ht' hr
  have hnew : new.filterMap (Rung.at? known t') = [] :=
    List.filterMap_eq_nil_iff.2 fun g hg => Rung.at?_of_block (hblocks g hg).2
  have hold := rungs_same_of_apart known hapart (ht.chain hx).stored
    (ht.ancestor_not_mem_self hx)
  refine ⟨?_, fun j hj => ?_⟩
  · rw [Rung.around, hancestors, List.filterMap_append, hnew, List.nil_append, hsource, ← h.rungs_eq]
    exact List.filterMap_congr fun j hj => (hold j hj).1
  · rw [hancestors] at hj
    rcases List.mem_append.1 hj with hj | hj
    · cases hk : t'.kind j with
      | block body => rfl
      | _ =>
          have hblock := (hblocks j hj).2
          rw [hk] at hblock
          cases hblock
    · rw [(hold j hj).2, h.plain j hj]

/-- The ancestors of what is unwrapped from the body of a label: the statements of a block have the block
and the label before those of the label, and any other body stands directly below the label. -/
theorem ancestors_unwrapped {body r : Ast NodeId} {p : NodeId} {label : String} (ht : t.Rooted a)
    (hlabel : (Ast.node p (.labeled label body)).Part a) (hr : r ∈ body.unwrapped) :
    body.kind.isBlock = true ∧ t.ancestors r.note = body.note :: p :: t.ancestors p ∨
      (body.kind.isBlock = false ∧ r = body) ∧ t.ancestors r.note = p :: t.ancestors p := by
  have hbodyMem : body ∈ (Ast.node p (.labeled label body)).kind.children := List.mem_singleton.2 rfl
  have hbody : t.ancestors body.note = p :: t.ancestors p := ht.ancestors_part hlabel hbodyMem
  unfold Ast.unwrapped at hr
  split at hr
  · next ss hk =>
      have hbodyPart := (Ast.Part.of_mem hbodyMem).trans hlabel
      refine Or.inl ⟨by rw [hk]; rfl, ?_⟩
      rw [ht.ancestors_part hbodyPart (by rw [hk]; exact hr), hbody]
  · exact absurd hr List.not_mem_nil
  · next hblock _ =>
      obtain rfl := List.mem_singleton.1 hr
      refine Or.inr ⟨⟨?_, rfl⟩, hbody⟩
      cases hk : r.kind with
      | block ss => exact absurd hk (hblock ss)
      | _ => rfl

/-- In the source a label and its block contribute nothing to what is around a statement. -/
theorem around_unwrapped {a₀ body r₀ : Ast NodeId} {p : NodeId} {label : String} (ht₀ : t₀.Rooted a₀)
    (hlabel : (Ast.node p (.labeled label body)).Part a₀) (hknown : known label = true)
    (hr₀ : r₀ ∈ body.unwrapped) : Rung.around known t₀ r₀.note = Rung.around known t₀ p := by
  have hkind : t₀.kind p = .labeled label body.note := (ht₀.toHeld.of_part hlabel).holds.kind_eq
  have hp : Rung.at? known t₀ p = none := Rung.at?_of_label (by rw [hkind]; exact hknown)
  rcases ancestors_unwrapped ht₀ hlabel hr₀ with ⟨hblock, hancestors⟩ | ⟨-, hancestors⟩
  · have hbody : (t₀.kind body.note).isBlock = true := by
      have hpart := (Ast.Part.of_mem (List.mem_singleton.2 rfl)).trans hlabel
      rw [(ht₀.toHeld.of_part hpart).holds.kind_eq, Kind.isBlock_map, hblock]
    rw [Rung.around, hancestors, List.filterMap_cons, Rung.at?_of_block hbody, List.filterMap_cons, hp]
    rfl
  · rw [Rung.around, hancestors, List.filterMap_cons, hp]
    rfl

end Agrees

end Expansion

end LogLabel
