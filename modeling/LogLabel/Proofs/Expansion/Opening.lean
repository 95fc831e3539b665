import LogLabel.Proofs.Expansion.Covered
import LogLabel.Proofs.Expansion.Decisions
import LogLabel.Proofs.Expansion.Edits

set_option autoImplicit false

/-!
# The first log statement of a scope

The statement list of a function changes while the labels in it are processed one after the
other, and the flags of each are read off the list as it then is. This module says what the
flags are all the same, for the table of the built-in labels.

* `Expansion.Opening c t scope before first`: in the source the function starts with the log
  statement `first`, which is kept; only statements with other labels stand before it.
* `Expansion.Front`: what the source has at an opening that is below no label of a log statement.
* `Expansion.Stage`, `Expansion.Opened`: the invariant of the pass. Until `first` is visited the
  list is as in the source up to it; from then on a statement made in the pass stands there.
* `Expansion.start_flags_of_source`: `first` starts the run of log statements of the scope, and
  every other label of the scope follows a start.
-/

namespace LogLabel

open Program (Ast Kind NodeId Span Tree)
open Program.Tree (Grows)

/-! ## Statement lists -/

namespace Program

/-- The label and the statement of a labeled statement. -/
def Kind.labeled? {α : Type} : Kind α → Option (String × α)
  | .labeled label body => some (label, body)
  | _ => none

theorem Kind.labeled?_eq_some_iff {α : Type} {k : Kind α} {label : String} {body : α} :
    k.labeled? = some (label, body) ↔ k = .labeled label body := by
  cases k <;> simp [labeled?]

theorem Kind.functionBody?_map {α β : Type} (f : α → β) (k : Kind α) :
    (k.map f).functionBody? = k.functionBody?.map f := by
  cases k <;> rfl

section FunctionBody

variable {α : Type} {k : Kind α} {body : α}

theorem Kind.mem_children_of_functionBody? (h : k.functionBody? = some body) :
    body ∈ k.children := by
  cases k <;> first | (obtain rfl := Option.some.inj h; simp [Kind.children]) | cases h

theorem Kind.isList_of_functionBody? (h : k.functionBody? = some body) : k.isList = false := by
  cases k <;> first | rfl | cases h

theorem Kind.isProgram_of_functionBody? (h : k.functionBody? = some body) :
    k.isProgram = false := by
  cases k <;> first | rfl | cases h

end FunctionBody

section Statements

variable {t : Tree} {scope block : NodeId}

/-- The statements of a function or a method are those of its block. -/
theorem Tree.statements_of_functionBody? (hscope : (t.kind scope).functionBody? = some block) :
    t.statements scope = match t.kind block with
      | .block body => body
      | _ => [] := by
  unfold Tree.statements
  cases hk : t.kind scope <;> rw [hk] at hscope <;>
    first | (obtain rfl := Option.some.inj hscope; rfl) | cases hscope

theorem Tree.statements_of_block {body : List NodeId}
    (hscope : (t.kind scope).functionBody? = some block) (hblock : t.kind block = .block body) :
    t.statements scope = body := by
  rw [Tree.statements_of_functionBody? hscope, hblock]

/-- A function or a method with statements has a block. -/
theorem Tree.block_of_statements (hscope : (t.kind scope).functionBody? = some block)
    (h : t.statements scope ≠ []) : t.kind block = .block (t.statements scope) := by
  rw [Tree.statements_of_functionBody? hscope] at h ⊢
  cases hb : t.kind block with
  | block body => rfl
  | _ => exact absurd (by rw [hb]) h

end Statements

end Program

namespace Metadata

section StartFlags

variable {t : Tree} {known : String → Bool} {handled : List NodeId} {label id : NodeId}
  {before rest : List NodeId}

/-- Statements with other labels do not end the search for the start of a run. -/
theorem startFlags_append (h : ∀ i ∈ before, i ≠ label ∧ i ∉ handled ∧
      ∃ name body, t.kind i = .labeled name body ∧ known name = false) :
    startFlags t known handled label (before ++ rest) = startFlags t known handled label rest := by
  induction before with
  | nil => rfl
  | cons i before ih =>
      obtain ⟨hne, hhandled, name, body, hkind, hname⟩ := h i List.mem_cons_self
      rw [List.cons_append, startFlags, if_neg hne, if_neg hhandled, hkind]
      simp only [hname, Bool.false_eq_true, if_false]
      exact ih fun j hj => h j (List.mem_cons_of_mem _ hj)

theorem startFlags_self : startFlags t known handled label (label :: rest) = (false, true) := by
  rw [startFlags, if_pos rfl]

/-- A statement made in the pass, or a label of another log statement, has started the run. -/
theorem startFlags_started (hne : id ≠ label)
    (h : id ∈ handled ∨ Purity.isKnownLabel known (t.kind id) = true) :
    startFlags t known handled label (id :: rest) = (true, false) := by
  rw [startFlags, if_neg hne]
  split
  · rfl
  · next hhandled =>
      have hknown := h.resolve_left hhandled
      cases hk : t.kind id with
      | labeled name body =>
          rw [hk] at hknown
          simp only
          exact if_pos hknown
      | _ => rw [hk] at hknown; cases hknown

end StartFlags

end Metadata

namespace Expansion

/-! ## Openings in the source -/

/-- The function or method `scope` of the source starts with the log statement `first`, which is
kept and logs an expression first; the statements `before` have other labels. -/
structure Opening (c : ExpansionContext) (t : Tree) (scope : NodeId) (before : List NodeId)
    (first : NodeId) : Prop where
  reachable : t.Reachable scope
  isFunction : (t.kind scope).functionBody?.isSome = true
  statements : before ++ [first] <+: t.statements scope
  others : ∀ i ∈ before, ∃ name body, t.kind i = .labeled name body ∧ c.known name = false
  kept : ∃ label body, t.kind first = .labeled label body ∧ c.known label = true ∧
    stripsInSource c t label first = false ∧ startsWithExpression (t.reading body) = true

/-- The block of a scope with what is around it, and the statements before its first log statement.
None of these nodes may change in a pass. -/
abbrev fixedNodes (t : Tree) (block : NodeId) (before : List NodeId) : List NodeId :=
  before ++ block :: t.ancestors block

/-- An opening below no label of a log statement, with its block and the program of its first log
statement. -/
structure Front (c : ExpansionContext) (t : Tree) (scope block : NodeId) (before : List NodeId)
    (first : Ast NodeId) : Prop where
  scope_mem : scope ∈ t.ancestors block
  stored : ∀ i ∈ fixedNodes t block before, i.index < t.size
  unlabeled : ∀ i ∈ fixedNodes t block before, Purity.isKnownLabel c.known (t.kind i) = false
  first_stored : first.note.index < t.size
  kept : ∃ label body, first = .node first.note (.labeled label body) ∧ c.known label = true ∧
    stripsInSource c t label first.note = false ∧ startsWithExpression body = true

/-! ## The invariant of the pass -/

/-- What stands behind the statements with other labels: the label `first`, untouched in a program
to visit, or a statement made in the pass, when the label is gone. -/
inductive Stage (first : Ast NodeId) (ps : List (Ast NodeId)) (session : Session) : NodeId → Prop
  | awaiting {y : Ast NodeId} (hy : y ∈ ps) (hpart : first.Part y)
      (hfresh : ∀ i ∈ first.notes, i ∉ session.handled) : Stage first ps session first.note
  | started {head : NodeId} (hmade : head ∈ session.handled)
      (hgone : ∀ y ∈ ps, first.note ∉ y.notes) : Stage first ps session head

/-- The statements of a scope up to its first log statement, in the course of the pass: what is
around them and before the log statement is as in the source. -/
structure Opened (t₀ : Tree) (scope block : NodeId) (before : List NodeId) (first : Ast NodeId)
    (ps : List (Ast NodeId)) (session : Session) : Prop where
  body : (session.tree.kind scope).functionBody? = some block
  ancestors_eq : session.tree.ancestors block = t₀.ancestors block
  same : ∀ i ∈ fixedNodes t₀ block before, i ∉ session.handled ∧
    (session.tree.kind i).outline = (t₀.kind i).outline
  statements : ∃ head after, session.tree.kind block = .block (before ++ head :: after) ∧
    Stage first ps session head

section Invariant

variable {c : ExpansionContext} {t₀ : Tree} {session session' : Session} {ps rs : List (Ast NodeId)}
  {a x first : Ast NodeId} {scope block head : NodeId} {before after statements : List NodeId}

/-- A visit of something else than the first log statement keeps the stage. -/
theorem Stage.step (h : Stage first (x :: ps) session head)
    (htracks : Tracks session.tree (x :: ps) a)
    (hfirst : first.note.index < session.tree.size)
    (hnext : head = first.note → first.note ∉ session.handled → first.Part x →
      ∃ r ∈ rs, first.Part r)
    (hsub : session.handled ⊆ session'.handled)
    (hnew : ∀ i ∈ session'.handled, i ∈ session.handled ∨ session.tree.size ≤ i.index)
    (horigin : ∀ i ∈ rs.flatMap Ast.notes, i ∈ x.notes ∨ session.tree.size ≤ i.index) :
    Stage first (rs ++ ps) session' head := by
  cases h with
  | @awaiting y hy hpart hfresh =>
      have hheld := htracks.toHeld.of_part (hpart.trans (htracks.parts y hy))
      have hfresh' : ∀ i ∈ first.notes, i ∉ session'.handled := fun i hi hmem =>
        (hnew i hmem).elim (hfresh i hi) fun hge => Nat.not_lt.2 hge (hheld.holds.stored i hi)
      rcases List.mem_cons.1 hy with rfl | hy
      · obtain ⟨r, hr, hpart⟩ := hnext rfl (hfresh _ first.note_mem_notes) hpart
        exact .awaiting (List.mem_append_left _ hr) hpart hfresh'
      · exact .awaiting (List.mem_append_right _ hy) hpart hfresh'
  | started hmade hgone =>
      refine .started (hsub hmade) fun y hy hmem => ?_
      rcases List.mem_append.1 hy with hy | hy
      · rcases horigin _ (List.mem_flatMap.2 ⟨y, hy, hmem⟩) with hmem | hge
        · exact hgone x List.mem_cons_self hmem
        · exact Nat.not_lt.2 hge hfirst
      · exact hgone y (List.mem_cons_of_mem _ hy) hmem

/-! ### Nodes that must not change -/

/-- As long as the scope is in the program, its block is a part of it. -/
theorem Opened.exists_block (h : Opened t₀ scope block before first ps session)
    (ht : session.tree.Rooted a) (hscope : scope ∈ session.tree.program.notes) :
    ∃ d : Ast NodeId, d.Part a ∧ d.note = block := by
  rw [ht.program_eq] at hscope
  obtain ⟨d, hd, rfl⟩ := Ast.Part.exists_of_mem hscope
  have hbody := h.body
  rw [(ht.toHeld.of_part hd).holds.kind_eq, Kind.functionBody?_map, Option.map_eq_some_iff] at hbody
  obtain ⟨b, hb, hnote⟩ := hbody
  exact ⟨b, (Ast.Part.of_mem (Kind.mem_children_of_functionBody? hb)).trans hd, hnote⟩

/-- The statements of the block. -/
theorem Opened.exists_statement (h : Opened t₀ scope block before first ps session)
    (ht : session.tree.Rooted a) (hscope : scope ∈ session.tree.program.notes)
    (hkind : session.tree.kind block = .block statements) {i : NodeId} (hi : i ∈ statements) :
    ∃ d : Ast NodeId, d.Part a ∧ d.note = i ∧ session.tree.parent i = some block ∧
      session.tree.ancestors i = block :: t₀.ancestors block := by
  obtain ⟨b, hb, rfl⟩ := h.exists_block ht hscope
  have hheld := ht.toHeld.of_part hb
  have hmem : i ∈ (b.kind.map Ast.note).children := by
    rw [← hheld.holds.kind_eq, hkind]
    exact hi
  rw [Kind.children_map, List.mem_map] at hmem
  obtain ⟨d, hd, rfl⟩ := hmem
  refine ⟨d, (Ast.Part.of_mem hd).trans hb, rfl, hheld.holds.parent_eq hd, ?_⟩
  rw [ht.ancestors_part hb hd, h.ancestors_eq]

/-- A program to visit that is not around the statements has none of what is before them and around
them. -/
theorem Opened.not_mem (h : Opened t₀ scope block before first ps session)
    (ht : session.tree.Rooted a) (hscope : scope ∈ session.tree.program.notes) (hx : x.Part a)
    (hout : x.note ∉ fixedNodes t₀ block before) :
    ∀ i ∈ fixedNodes t₀ block before, i ∉ x.notes := by
  obtain ⟨head, after, hkind, -⟩ := h.statements
  -- What is around such a node is among these nodes too.
  have hpart : ∀ i ∈ fixedNodes t₀ block before, ∃ d : Ast NodeId, d.Part a ∧ d.note = i ∧
      session.tree.ancestors i ⊆ fixedNodes t₀ block before := by
    intro i hi
    obtain ⟨b, hb, rfl⟩ := h.exists_block ht hscope
    rcases List.mem_append.1 hi with hi | hi
    · obtain ⟨d, hd, hnote, -, hancestors⟩ :=
        h.exists_statement ht hscope hkind (List.mem_append_left _ hi)
      exact ⟨d, hd, hnote, hancestors ▸ List.subset_append_right _ _⟩
    · have hancestors := h.ancestors_eq
      rcases List.mem_cons.1 hi with rfl | hi
      · refine ⟨b, hb, rfl, ?_⟩
        rw [hancestors]
        exact fun j hj => List.mem_append_right _ (List.mem_cons_of_mem _ hj)
      · rw [← hancestors] at hi
        rw [fixedNodes, ← hancestors]
        obtain ⟨d, hd, hnote, -⟩ := ht.exists_of_ancestor hb hi
        refine ⟨d, hd, hnote, fun j hj => List.mem_append_right _ (List.mem_cons_of_mem _ ?_)⟩
        exact (ht.suffix_of_ancestor hb hi).subset (List.mem_cons_of_mem _ hj)
  intro i hi hmem
  obtain ⟨d, hd, rfl, hancestors⟩ := hpart i hi
  by_cases hnote : x.note = d.note
  · exact hout (hnote ▸ hi)
  · exact hout (hancestors (ht.mem_ancestors hd hx hmem hnote))

/-- Such a program has no statement of the block either, unless it is the statement. -/
theorem Opened.statement_not_mem (h : Opened t₀ scope block before first ps session)
    (ht : session.tree.Rooted a) (hscope : scope ∈ session.tree.program.notes) (hx : x.Part a)
    (hout : x.note ∉ fixedNodes t₀ block before)
    (hkind : session.tree.kind block = .block statements) {i : NodeId} (hi : i ∈ statements)
    (hne : x.note ≠ i) : i ∉ x.notes := by
  intro hmem
  obtain ⟨d, hd, rfl, -, hancestors⟩ := h.exists_statement ht hscope hkind hi
  have hancestor := ht.mem_ancestors hd hx hmem hne
  rw [hancestors] at hancestor
  exact hout (List.mem_append_right _ hancestor)

/-! ### Visits -/

/-- The block after an edit of one of its statements behind the first log statement, or of a program
elsewhere. -/
theorem Opened.block_edited (h : Opened t₀ scope block before first ps session)
    (ht : session.tree.Rooted a) (hscope : scope ∈ session.tree.program.notes) (hx : x.Part a)
    (hout : x.note ∉ fixedNodes t₀ block before)
    (hspliced : session.tree.Spliced session'.tree x rs)
    (hkind : session.tree.kind block = .block (before ++ head :: after)) (hne : x.note ≠ head) :
    ∃ after', session'.tree.kind block = .block (before ++ head :: after') := by
  obtain ⟨b, hb, rfl⟩ := h.exists_block ht hscope
  by_cases hparent : session.tree.parent x.note = some b.note
  · -- A statement of the block that is neither before the head nor the head stands behind it.
    obtain ⟨k, hlayer, hxk⟩ := ht.exists_of_parent hx hparent
    have hchildren : session.tree.kind b.note = k.map Ast.note :=
      (ht.toHeld.of_part hlayer).holds.kind_eq
    have hmem : x.note ∈ before ++ head :: after := by
      have hmem : x.note ∈ (k.map Ast.note).children := by
        rw [Kind.children_map]
        exact List.mem_map.2 ⟨x, hxk, rfl⟩
      rwa [← hchildren, hkind] at hmem
    rcases List.mem_append.1 hmem with hmem | hmem
    · exact absurd (List.mem_append_left _ hmem) hout
    · obtain ⟨front, back, rfl⟩ := List.append_of_mem ((List.mem_cons.1 hmem).resolve_left hne)
      have hblock :=
        hspliced.block_eq b.note (before ++ head :: front) back hparent (by simp [hkind])
      exact ⟨front ++ rs.map Ast.note ++ back, by simp [hblock]⟩
  · refine ⟨after, ?_⟩
    rw [hspliced.kind_eq _ (ht.toHeld.of_part hb).holds.note_stored ?_ hparent, hkind]
    exact h.not_mem ht hscope hx hout _ (List.mem_append_right _ List.mem_cons_self)

/-- An edit of a program that is not around the statements. -/
theorem Opened.edit (hfront : Front c t₀ scope block before first) (hgrows : Grows t₀ session.tree)
    (h : Opened t₀ scope block before first ps session) (ht : session.tree.Rooted a)
    (hscope : scope ∈ session.tree.program.notes) (hx : x.Part a)
    (hout : x.note ∉ fixedNodes t₀ block before) (hedited : Edited session session' x rs)
    {ps' : List (Ast NodeId)}
    (hstatements : ∃ head after, session'.tree.kind block = .block (before ++ head :: after) ∧
      Stage first ps' session' head) : Opened t₀ scope block before first ps' session' := by
  have hnot := h.not_mem ht hscope hx hout
  have hblock := hnot block (List.mem_append_right _ List.mem_cons_self)
  have hstored : ∀ i ∈ fixedNodes t₀ block before, i.index < session.tree.size := fun i hi =>
    Nat.lt_of_lt_of_le (hfront.stored i hi) hgrows.size_le
  have hscopeMem : scope ∈ fixedNodes t₀ block before :=
    List.mem_append_right _ (List.mem_cons_of_mem _ hfront.scope_mem)
  refine ⟨?_, ?_, fun i hi => ⟨fun hmem => ?_, ?_⟩, hstatements⟩
  · by_cases hslot : session.tree.parent x.note = some scope
    · -- The program is in another slot of the scope than the block.
      obtain ⟨one, hkind⟩ :=
        hedited.spliced.slot_eq scope hslot (Kind.isList_of_functionBody? h.body)
      rw [hkind, Kind.functionBody?_map, h.body, Option.map_some, if_neg]
      rintro rfl
      exact hblock x.note_mem_notes
    · rw [hedited.spliced.kind_eq scope (hstored _ hscopeMem) (hnot _ hscopeMem) hslot, h.body]
  · obtain ⟨b, hb, rfl⟩ := h.exists_block ht hscope
    rw [hedited.apart.ancestors_eq ht hb hx hblock, h.ancestors_eq]
  · exact (hedited.handled_origin i hmem).elim (h.same i hi).1 fun hge =>
      Nat.not_lt.2 hge (hstored i hi)
  · rw [hedited.apart.outline_eq i (hstored i hi) (hnot i hi), (h.same i hi).2]

/-- An edit of a label keeps the statements up to the first log statement. -/
theorem Opened.edited (hfront : Front c t₀ scope block before first)
    (hgrows : Grows t₀ session.tree)
    (h : Opened t₀ scope block before first (x :: ps) session)
    (htracks : Tracks session.tree (x :: ps) a) (hscope : scope ∈ session.tree.program.notes)
    (hhandled : x.note ∉ session.handled) (hlabel : Purity.isKnownLabel c.known x.kind = true)
    (hedited : Edited session session' x rs)
    (hfirst : x = first → (∀ i ∈ first.notes, i ∉ session.handled) →
      ∃ m more, rs = m :: more ∧ m.note ∈ session'.handled) :
    Opened t₀ scope block before first (rs ++ ps) session' := by
  have ht := htracks.toRooted
  have hx := htracks.parts x List.mem_cons_self
  have hout : x.note ∉ fixedNodes t₀ block before := fun hmem => by
    have hkind := (h.same x.note hmem).2
    have hunlabeled := hfront.unlabeled x.note hmem
    rw [← isKnownLabel_outline, ← hkind, isKnownLabel_outline, (ht.toHeld.of_part hx).holds.kind_eq,
      isKnownLabel_map, hlabel] at hunlabeled
    cases hunlabeled
  have hstored : first.note.index < session.tree.size :=
    Nat.lt_of_lt_of_le hfront.first_stored hgrows.size_le
  have horigin : ∀ i ∈ rs.flatMap Ast.notes, i ∈ x.notes ∨ session.tree.size ≤ i.index :=
    fun i hi => (hedited.origin i hi).imp_left Ast.mem_notes_of_inner
  refine h.edit hfront hgrows ht hscope hx hout hedited ?_
  obtain ⟨head, after, hkind, hstage⟩ := h.statements
  have hhead : head ∈ before ++ head :: after := by simp
  by_cases hne : x.note = head
  · obtain ⟨-, -, -, hparent, -⟩ := h.exists_statement ht hscope hkind hhead
    cases hstage with
    | started hmade => exact absurd (hne ▸ hmade) hhandled
    | @awaiting y hy hpart hfresh =>
        obtain rfl : x = first :=
          ht.toHeld.part_unique hx (hpart.trans (htracks.parts y hy)) hne
        obtain ⟨m, more, rfl, hmade⟩ := hfirst rfl hfresh
        have hkind' := hedited.spliced.block_eq block before after hparent hkind
        refine ⟨m.note, more.map Ast.note ++ after, by simp [hkind'], .started hmade ?_⟩
        -- The label is gone: what comes in is made of what was inside of it.
        intro y hy hmem
        rcases List.mem_append.1 hy with hy | hy
        · rcases hedited.origin _ (List.mem_flatMap.2 ⟨y, hy, hmem⟩) with hinner | hge
          · exact (ht.toHeld.of_part hx).note_not_mem_inner hinner
          · exact Nat.not_lt.2 hge hstored
        · exact htracks.apart_head hy hmem x.note_mem_notes
  · obtain ⟨after', hkind'⟩ := h.block_edited ht hscope hx hout hedited.spliced hkind hne
    refine ⟨head, after', hkind', hstage.step htracks hstored (fun heq _ hpart => ?_)
      hedited.handled_subset hedited.handled_origin horigin⟩
    have hmem := hpart.notes_subset first.note_mem_notes
    exact absurd (heq ▸ hmem) (h.statement_not_mem ht hscope hx hout hkind hhead hne)

/-- One visit keeps the invariant. -/
theorem Opened.visit (htable : c.table = LabelTable.defaults)
    (hfront : Front c t₀ scope block before first) (hfaithful : Faithful c t₀ (x :: ps) session)
    (h : Opened t₀ scope block before first (x :: ps) session)
    (htracks : Tracks session.tree (x :: ps) a) (hscope : scope ∈ session.tree.program.notes)
    (hvisited : Visited c session x rs session') :
    Opened t₀ scope block before first (rs ++ ps) session' := by
  have ht := htracks.toRooted
  have hx := htracks.parts x List.mem_cons_self
  have hstored : first.note.index < session.tree.size :=
    Nat.lt_of_lt_of_le hfront.first_stored hfaithful.grows.size_le
  obtain ⟨head, after, hkind, hstage⟩ := h.statements
  obtain ⟨label₀, body₀, hfirst, hknown₀, hkept, hstart⟩ := hfront.kept
  have hplain : c.table.Plain := htable ▸ LabelTable.defaults_plain
  have hedited := hvisited.edited htable
  cases hvisited with
  | passed hhandled =>
      -- No statement that was made is around the scope or is its first log statement.
      have hout : x.note ∉ fixedNodes t₀ block before := fun hmem => (h.same _ hmem).1 hhandled
      refine ⟨h.body, h.ancestors_eq, h.same, head, after, hkind, hstage.step htracks hstored
        (fun heq hfresh hpart => ?_) (List.Subset.refl _) (fun i hi => Or.inl hi) (by simp)⟩
      have hne : x.note ≠ first.note := fun he => hfresh (he ▸ hhandled)
      exact absurd (hpart.notes_subset first.note_mem_notes)
        (h.statement_not_mem ht hscope hx hout hkind (by simp [heq]) hne)
  | entered hhandled hlabel =>
      refine ⟨h.body, h.ancestors_eq, h.same, head, after, hkind, hstage.step htracks hstored
        (fun _ _ hpart => ?_) (List.Subset.refl _) (fun i hi => Or.inl hi)
        fun i hi => Or.inl (Ast.mem_notes_of_inner hi)⟩
      cases hpart with
      | self =>
          rw [hfirst, Ast.kind_node, Purity.isKnownLabel, hknown₀] at hlabel
          cases hlabel
      | inside hc hpart => exact ⟨_, hc, hpart⟩
  | stripped hhandled hknown hstrip =>
      refine h.edited hfront hfaithful.grows htracks hscope hhandled hknown
        (hedited hhandled hknown) fun heq _ => ?_
      -- The first log statement is not stripped.
      have hdecision := hfaithful.shouldStrip_eq hplain.tame hhandled rfl hknown
      subst heq
      obtain ⟨rfl, -⟩ := Kind.labeled.inj (Ast.node.inj hfirst).2
      rw [Ast.note_node] at hdecision hkept
      rw [hstrip, hkept] at hdecision
      cases hdecision
  | @expanded p label body s pairs _ hhandled hs hstrip hpure hpairs hmade hnew =>
      have hknown := known_of_get? c hs
      refine h.edited hfront hfaithful.grows htracks hscope hhandled hknown
        (hedited hhandled hknown) fun heq hfresh => ?_
      subst heq
      obtain ⟨rfl, rfl⟩ := Kind.labeled.inj (Ast.node.inj hfirst).2
      have hfresh' : ∀ i ∈ body.notes, i ∉ session.handled := fun i hi =>
        hfresh i (Ast.notes_subset_of_mem (List.mem_singleton.2 rfl) hi)
      obtain ⟨pair, hpair, more, hunwrapped⟩ :=
        exists_first_made htable hs hx ht hfresh' hpairs hmade hstart
      refine ⟨pair.2, more, hunwrapped, ?_⟩
      rw [hnew]
      exact List.mem_append_left _ (List.mem_reverse.2 (List.mem_map.2 ⟨pair, hpair, rfl⟩))

end Invariant

/-! ## The opening of a scope in the source -/

section Source

variable {c : ExpansionContext} {t : Tree} {scope first : NodeId} {before : List NodeId}

/-- The block of an opening, and the program of its first log statement. -/
theorem Opening.exists_parts (h : Opening c t scope before first) (hsource : Source t) :
    ∃ (block : NodeId) (after : List NodeId) (x : Ast NodeId), x.Part t.program ∧ x.note = first ∧
      (t.kind scope).functionBody? = some block ∧
      t.kind block = .block (before ++ first :: after) ∧
      t.ancestors block = scope :: t.ancestors scope ∧
      t.ancestors first = block :: t.ancestors block := by
  obtain ⟨d, hd, rfl⟩ := hsource.rooted.exists_part h.reachable
  obtain ⟨block, hbody⟩ := Option.isSome_iff_exists.1 h.isFunction
  obtain ⟨after, hstatements⟩ := h.statements
  have hkind := Tree.block_of_statements hbody (by rw [← hstatements]; simp)
  rw [← hstatements, List.append_assoc, List.singleton_append] at hkind
  have hscope := hbody
  rw [(hsource.rooted.toHeld.of_part hd).holds.kind_eq, Kind.functionBody?_map,
    Option.map_eq_some_iff] at hscope
  obtain ⟨b, hb, rfl⟩ := hscope
  have hbd := Kind.mem_children_of_functionBody? hb
  have hbpart := (Ast.Part.of_mem hbd).trans hd
  have hmem : first ∈ (b.kind.map Ast.note).children := by
    rw [← (hsource.rooted.toHeld.of_part hbpart).holds.kind_eq, hkind]
    simp [Kind.children]
  rw [Kind.children_map, List.mem_map] at hmem
  obtain ⟨x, hx, rfl⟩ := hmem
  exact ⟨b.note, after, x, (Ast.Part.of_mem hx).trans hbpart, rfl, hbody, hkind,
    hsource.rooted.ancestors_part hd hbd, hsource.rooted.ancestors_part hbpart hx⟩

/-- An opening that is below no label of a log statement. -/
theorem Opening.front (h : Opening c t scope before first) (hsource : Source t) {block : NodeId}
    {after : List NodeId} {x : Ast NodeId} (hx : x.Part t.program) (hnote : x.note = first)
    (hbody : (t.kind scope).functionBody? = some block)
    (hkind : t.kind block = .block (before ++ first :: after))
    (hancestors : t.ancestors block = scope :: t.ancestors scope)
    (huncovered : ∀ j ∈ t.ancestors scope, Purity.isKnownLabel c.known (t.kind j) = false) :
    Front c t scope block before x := by
  have hempty : t.kind scope ≠ .empty := fun he => by
    rw [he] at hbody
    cases hbody
  have hscope : Purity.isKnownLabel c.known (t.kind scope) = false := by
    rw [Bool.eq_false_iff]
    exact fun hlabel =>
      Purity.construct?_of_functionBody? hbody (Purity.construct?_of_isKnownLabel hlabel)
  obtain ⟨label, b, hlabel, hknown, hkept, hstart⟩ := h.kept
  have hheld := hsource.rooted.toHeld.of_part hx
  refine ⟨hancestors ▸ List.mem_cons_self, fun i hi => ?_, fun i hi => ?_,
    hheld.holds.note_stored, ?_⟩
  · rw [fixedNodes, hancestors, List.mem_append, List.mem_cons, List.mem_cons] at hi
    rcases hi with hi | rfl | rfl | hi
    · obtain ⟨name, body, hother, -⟩ := h.others i hi
      exact t.index_lt_of_kind_ne (by rw [hother]; nofun)
    · exact t.index_lt_of_kind_ne (by rw [hkind]; nofun)
    · exact t.index_lt_of_kind_ne hempty
    · obtain ⟨d, hd, rfl⟩ := hsource.rooted.exists_part h.reachable
      exact (hsource.rooted.chain hd).stored i hi
  · rw [fixedNodes, hancestors, List.mem_append, List.mem_cons, List.mem_cons] at hi
    rcases hi with hi | rfl | rfl | hi
    · obtain ⟨name, body, hother, hname⟩ := h.others i hi
      rw [hother]
      exact hname
    · rw [hkind]
      rfl
    · exact hscope
    · exact huncovered i hi
  · subst hnote
    obtain ⟨body, hfirst, rfl⟩ := hheld.exists_label hlabel
    have hbodyHeld := hheld.part (c := body) (by rw [hfirst]; exact List.mem_singleton.2 rfl)
    rw [hbodyHeld.reading_eq] at hstart
    exact ⟨label, body, hfirst, hknown, hkept, hstart⟩

end Source

/-! ## The flags of the labels -/

/-- The label `id` is processed when it is visited, with the given start flags. -/
def ProcessedWith (c : ExpansionContext) (session : Session) (id : NodeId) (flags : Bool × Bool) :
    Prop :=
  ∃ (label : String) (body : NodeId) (s : Synthesizer),
    session.tree.kind id = .labeled label body ∧ c.table.get? label = some s ∧
      step c id session = process c id label body s session ∧
      let m := Metadata.collect session.tree id c.file c.known session.handled
      (m.hasStartMessage, m.isStartMessage) = flags

section Flags

variable {c : ExpansionContext} {t : Tree} {session : Session} {ps : List (Ast NodeId)}
  {a x first : Ast NodeId} {scope block : NodeId} {before : List NodeId}

/-- The flags of a label in a function or a method are read off its statements. -/
theorem flags_of_scope {id : NodeId}
    (hscope : (session.tree.ancestors id).find? (Metadata.isScope session.tree) = some scope)
    (hbody : (session.tree.kind scope).functionBody? = some block) :
    let m := Metadata.collect session.tree id c.file c.known session.handled
    (m.hasStartMessage, m.isStartMessage) =
      Metadata.startFlags session.tree c.known session.handled id
        (session.tree.statements scope) := by
  simp only [Metadata.collect, hscope, Kind.isProgram_of_functionBody? hbody, Bool.false_eq_true,
    if_false]

/-- The flags of a label that is visited in an opened scope. -/
theorem Opened.startFlags_eq (hfront : Front c t scope block before first)
    (hothers : ∀ i ∈ before, ∃ name body, t.kind i = .labeled name body ∧ c.known name = false)
    (h : Opened t scope block before first (x :: ps) session)
    (htracks : Tracks session.tree (x :: ps) a) (hhandled : x.note ∉ session.handled)
    (hlabel : Purity.isKnownLabel c.known (t.kind x.note) = true) :
    Metadata.startFlags session.tree c.known session.handled x.note (session.tree.statements scope)
      = if x.note = first.note then (false, true) else (true, false) := by
  obtain ⟨head, after, hkind, hstage⟩ := h.statements
  rw [Tree.statements_of_block h.body hkind, Metadata.startFlags_append]
  · cases hstage with
    | @awaiting y hy hpart hfresh =>
        -- The first log statement is still there: it is the label, or it is before the label.
        by_cases hx : x.note = first.note
        · rw [if_pos hx, hx, Metadata.startFlags_self]
        · have hlabelled : Purity.isKnownLabel c.known (session.tree.kind first.note) = true := by
            obtain ⟨label, body, hfirst, hknown, -⟩ := hfront.kept
            have hheld := htracks.toHeld.of_part (hpart.trans (htracks.parts y hy))
            rw [hheld.holds.kind_eq, isKnownLabel_map, hfirst]
            exact hknown
          rw [if_neg hx, Metadata.startFlags_started (Ne.symm hx) (Or.inr hlabelled)]
    | started hmade hgone =>
        have hx : x.note ≠ first.note := fun he =>
          hgone x List.mem_cons_self (he ▸ x.note_mem_notes)
        have hhead : head ≠ x.note := fun he => hhandled (he ▸ hmade)
        rw [if_neg hx, Metadata.startFlags_started hhead (Or.inl hmade)]
  · intro i hi
    obtain ⟨hunmade, houtline⟩ := h.same i (List.mem_append_left _ hi)
    obtain ⟨name, body, hother, hname⟩ := hothers i hi
    refine ⟨?_, hunmade, ?_⟩
    · rintro rfl
      rw [hother, Purity.isKnownLabel, hname] at hlabel
      cases hlabel
    · rw [hother] at houtline
      cases hk : session.tree.kind i with
      | labeled name' body' =>
          rw [hk] at houtline
          obtain ⟨rfl, -⟩ := Kind.labeled.inj houtline
          exact ⟨name', body', rfl, hname⟩
      | _ => rw [hk] at houtline; cases houtline

end Flags

/-! ## The pass over a source -/

section Passes

variable {text : String} {t : Tree} {c : ExpansionContext} {scope first : NodeId}
  {before : List NodeId}

/-- Whenever a label of the source in an opened scope is visited, its flags say whether it is the
first log statement of the scope. -/
theorem Opening.processedWith (h : Opening c t scope before first)
    (hparse : Program.parse .source text = .ok t) (htable : c.table = LabelTable.defaults)
    {id : NodeId} {rest : List NodeId} {session : Session}
    (hrun : Relation.ReflTransGen (Iterates c) ([t.root], { tree := t }) (id :: rest, session))
    (hlabel : Purity.isKnownLabel c.known (t.kind id) = true)
    (hscope : (t.ancestors id).find? (Metadata.isScope t) = some scope) :
    ProcessedWith c session id (if id = first then (false, true) else (true, false)) := by
  have hsource := source_parse hparse
  have hbuilt : Options.buildTable none [] = .ok c.table := by
    rw [htable, Options.buildTable_none]
  have htame : c.table.Tame := (htable ▸ LabelTable.defaults_plain : c.table.Plain).tame
  obtain ⟨block, after, y, hy, rfl, hbody, hkind, hancestors, -⟩ := h.exists_parts hsource
  have hfront := h.front hsource hy rfl hbody hkind hancestors
    (not_covered_of_visited hparse hbuilt htame hrun hlabel (List.mem_of_find?_eq_some hscope)
      hbody)
  have hstored : scope.index < t.size :=
    hfront.stored scope (List.mem_append_right _ (List.mem_cons_of_mem _ hfront.scope_mem))
  obtain ⟨x, ps, a, rfl, htracks, hfaithful, hopened⟩ :=
    exists_faithful_and hparse hbuilt
      (fun ps session => scope ∈ session.tree.program.notes →
        Opened t scope block before y ps session)
      (fun _ => ⟨hbody, rfl, fun i _ => ⟨List.not_mem_nil, rfl⟩, y.note, after, hkind,
        .awaiting (List.mem_singleton.2 rfl) hy fun i _ => List.not_mem_nil⟩)
      (fun hfaithful htracks _ hvisited hopened hmem =>
        have hmem := hvisited.mem_program htable htracks
          (Nat.lt_of_lt_of_le hstored hfaithful.grows.size_le) hmem
        (hopened hmem).visit htable hfront hfaithful htracks hmem hvisited) hrun
  cases hname : t.kind x.note with
  | labeled label b =>
      rw [hname] at hlabel
      obtain ⟨hhandled, ⟨body, hnow⟩, -, hagrees⟩ :=
        hfaithful.label_of_head hsource htracks hname hlabel
      obtain ⟨s, hs⟩ := Option.isSome_iff_exists.1 hlabel
      -- The scope of the label is still the one that it has in the source.
      have hnearest := hagrees.scope_eq.trans hscope
      obtain ⟨d, hd, rfl, -⟩ := htracks.exists_of_ancestor (htracks.parts x List.mem_cons_self)
        (List.mem_of_find?_eq_some hnearest)
      have hopened := hopened (kind_of_part htracks.toRooted hd).1
      refine ⟨label, body, s, hnow, hs, step_label hhandled hnow hs, ?_⟩
      refine (flags_of_scope hnearest hopened.body).trans ?_
      exact hopened.startFlags_eq hfront h.others htracks hhandled (hname ▸ hlabel)
  | _ => rw [hname] at hlabel; cases hlabel

/-- The flags of the labels of a function or a method that starts with a log statement, for the
table of the built-in labels. The first one is processed as the start of a run, whatever stands
before and behind it; every other label whose nearest scope it is is processed as one that follows a
start. If the pass succeeds and strips no label around the first one, it is processed. -/
theorem start_flags_of_source (hparse : Program.parse .source text = .ok t)
    (htable : c.table = LabelTable.defaults) (h : Opening c t scope before first) :
    (∀ rest session,
      Relation.ReflTransGen (Iterates c) ([t.root], { tree := t }) (first :: rest, session) →
        ProcessedWith c session first (false, true)) ∧
    (∀ id rest session,
      Relation.ReflTransGen (Iterates c) ([t.root], { tree := t }) (id :: rest, session) →
        Purity.isKnownLabel c.known (t.kind id) = true →
        (t.ancestors id).find? (Metadata.isScope t) = some scope → id ≠ first →
        ProcessedWith c session id (true, false)) ∧
    ((∀ i ∈ t.ancestors first, ∀ label body, t.kind i = .labeled label body →
        c.known label = true → stripsInSource c t label i = false) →
      ∀ session, run c t = .ok session → Keeps c t first) := by
  have hsource := source_parse hparse
  obtain ⟨block, after, x, hx, rfl, hbody, hkind, hancestors, hfirst⟩ := h.exists_parts hsource
  obtain ⟨label, b, hlabel, hknown, hkept, -⟩ := h.kept
  refine ⟨fun rest session hrun => ?_, fun id rest session hrun hid hscope hne => ?_, ?_⟩
  · have hscope : (t.ancestors x.note).find? (Metadata.isScope t) = some scope := by
      have hblock : Metadata.isScope t block = false := by
        rw [Metadata.isScope, Metadata.scopeName?, hkind]
        rfl
      rw [hfirst, hancestors, List.find?_cons, hblock, List.find?_cons,
        Metadata.isScope_of_functionBody? hbody]
    have hflags := h.processedWith hparse htable hrun (by rw [hlabel]; exact hknown) hscope
    rwa [if_pos rfl] at hflags
  · have hflags := h.processedWith hparse htable hrun hid hscope
    rwa [if_neg hne] at hflags
  · intro houter session hrun
    have hbuilt : Options.buildTable none [] = .ok c.table := by
      rw [htable, Options.buildTable_none]
    refine keeps_of_mem_due hparse hbuilt (htable ▸ LabelTable.defaults_plain) hrun
      (mem_due_of_part hx ?_ ?_)
    · obtain ⟨body, hfirst, -⟩ := (hsource.rooted.toHeld.of_part hx).exists_label hlabel
      rw [hfirst, due_of_kept hknown hkept]
      exact List.mem_cons_self
    · intro e he hbelow label body hname hlabel
      obtain ⟨d, hd, hxd⟩ := hbelow
      have hmem : e.note ∈ t.ancestors x.note :=
        (hsource.rooted.suffix_of_part he hd hxd).subset List.mem_cons_self
      refine houter e.note hmem label body.note ?_ hlabel
      rw [(hsource.rooted.toHeld.of_part he).holds.kind_eq, hname]
      rfl

end Passes

/-- A function that starts with a label of another name, below which a log statement stands: this
one is visited before the first log statement of the function. -/
theorem start_flags_of_source_below :
    ∃ (t : Tree) (scope first id : NodeId) (before rest : List NodeId) (session session' : Session),
      Program.parse .source "function f(){x:info:a;debug:b}" = .ok t ∧
      Opening plainContext t scope before first ∧ id ≠ first ∧
      Relation.ReflTransGen (Iterates plainContext) ([t.root], { tree := t })
        (id :: first :: rest, session) ∧
      ProcessedWith plainContext session id (true, false) ∧
      Relation.ReflTransGen (Iterates plainContext) ([t.root], { tree := t })
        (first :: rest, session') ∧
      ProcessedWith plainContext session' first (false, true) := by
  have hseen : ((Program.parse .source "function f(){x:info:a;debug:b}").toOption.bind fun t =>
      (stateAfter plainContext 4 ([t.root], { tree := t })).bind fun st =>
        (stateAfter plainContext 6 ([t.root], { tree := t })).map fun st' => decide
          (((t.kind t.root).children = [⟨9⟩] ∧ (t.kind ⟨9⟩).functionBody?.isSome = true ∧
              t.statements ⟨9⟩ = [⟨4⟩, ⟨7⟩]) ∧
            ((t.kind ⟨4⟩).labeled? = some ("x", ⟨3⟩) ∧ (t.kind ⟨7⟩).labeled? = some ("debug", ⟨6⟩) ∧
              startsWithExpression (t.reading ⟨6⟩) = true) ∧
            (Purity.isKnownLabel plainContext.known (t.kind ⟨3⟩) = true ∧
              (t.ancestors ⟨3⟩).find? (Metadata.isScope t) = some ⟨9⟩) ∧
            st.1 = [⟨3⟩, ⟨7⟩] ∧ st'.1 = [⟨7⟩])) = some true := by
    decide +kernel
  obtain ⟨t, hparse, hseen⟩ := Option.bind_eq_some_iff.1 hseen
  obtain ⟨⟨pending, session⟩, hstate, hseen⟩ := Option.bind_eq_some_iff.1 hseen
  obtain ⟨⟨pending', session'⟩, hstate', hseen⟩ := Option.map_eq_some_iff.1 hseen
  obtain ⟨⟨hroot, hfunction, hstatements⟩, ⟨hother, hlabel, hstart⟩, ⟨hknown, hscope⟩, rfl, rfl⟩ :=
    of_decide_eq_true hseen
  rw [Kind.labeled?_eq_some_iff] at hother hlabel
  have hparse := eq_ok_of_toOption hparse
  have hrun := iterates_of_stateAfter hstate
  have hrun' := iterates_of_stateAfter hstate'
  have hopening : Opening plainContext t ⟨9⟩ [⟨4⟩] ⟨7⟩ :=
    { reachable := .part .root (by rw [hroot]; exact List.mem_singleton.2 rfl)
      isFunction := hfunction
      statements := by rw [hstatements]; exact List.prefix_rfl
      others := fun i hi => by
        obtain rfl := List.mem_singleton.1 hi
        exact ⟨_, _, hother, by decide +kernel⟩
      kept := ⟨_, _, hlabel, by decide +kernel, rfl, hstart⟩ }
  obtain ⟨hfirst, hrest, -⟩ := start_flags_of_source hparse rfl hopening
  exact ⟨t, ⟨9⟩, ⟨7⟩, ⟨3⟩, [⟨4⟩], [], session, session', hparse, hopening, by decide, hrun,
    hrest _ _ _ hrun hknown hscope (by decide), hrun', hfirst _ _ hrun'⟩

end Expansion

end LogLabel
