import LogLabel.Expansion
import LogLabel.Proofs.Program.Revision
import LogLabel.Proofs.Synthesizer

set_option autoImplicit false

/-!
# Expanded statements

Turning expression statements of a held program into log statements is a revision of the
program: each statement gives way to the statement that is made for it.

* `Ast.logged` are the logged expressions of an expression.
* `Ast.graftAll` puts programs in the places of several parts.
* `Expansion.expandStatements_revised`: expanding statements that share no node succeeds,
  and replaces each of them by a program made of new nodes and of its logged expressions.
-/

namespace LogLabel

open Program (Ast Kind NodeId Span Tree)
open Program.Tree (Held Revised Stored)

namespace Program.Ast

/-- The logged expressions of an expression: the items of a sequence, or the expression itself. -/
def logged {ι : Type} (x : Ast ι) : List (Ast ι) :=
  match x.kind with
  | .sequence es => es
  | _ => [x]

theorem logged_part {ι : Type} {x c : Ast ι} (hc : c ∈ x.logged) : c.Part x := by
  unfold logged at hc
  split at hc
  · next es hk => exact .of_mem (by rw [hk]; exact hc)
  · obtain rfl := List.mem_singleton.1 hc
    exact .self

theorem logged_nodup {ι : Type} {x : Ast ι} (h : x.notes.Nodup) : (x.logged.flatMap notes).Nodup := by
  unfold logged
  split
  · next es hk =>
      rw [notes_eq, hk, List.nodup_cons] at h
      exact h.2
  · simpa using h

theorem logged_mapNotes {ι κ : Type} (f : ι → κ) (x : Ast ι) :
    (x.mapNotes f).logged = x.logged.map (mapNotes f) := by
  cases x with
  | node i k => cases k <;> simp [logged, Kind.map]

/-- The program with several parts replaced one after the other. -/
def graftAll (a : Ast NodeId) (pairs : List (Ast NodeId × Ast NodeId)) : Ast NodeId :=
  pairs.foldl (fun a p => a.graft p.1.note p.2) a

@[simp] theorem graftAll_nil (a : Ast NodeId) : a.graftAll [] = a := rfl

@[simp] theorem graftAll_cons (a : Ast NodeId) (p : Ast NodeId × Ast NodeId)
    (pairs : List (Ast NodeId × Ast NodeId)) :
    a.graftAll (p :: pairs) = (a.graft p.1.note p.2).graftAll pairs := rfl

end Program.Ast

/-- When a part of a held program gives way to another one, the parts apart from it are still there. -/
theorem Program.Tree.Revised.part_graft {t t' : Tree} {a d e m : Ast NodeId}
    (hr : Revised t t' a (a.graft e.note m)) (h : t.Held a) (he : e.Part a) (hd : d.Part a)
    (hne : d ≠ a) (happart : ∀ i ∈ d.notes, i ∉ e.notes) :
    d.Part (a.graft e.note m) ∧ d ≠ a.graft e.note m := by
  refine ⟨he.graft h.nodup hd (fun hmem => ?_) fun hde => ?_, fun heq => hne ?_⟩
  · exact happart _ hmem e.note_mem_notes
  · exact absurd (hde.notes_subset d.note_mem_notes) (happart _ d.note_mem_notes)
  · exact h.part_unique hd .self (by rw [heq, hr.note_eq])

namespace Expansion

theorem contentOf_eq {t : Tree} {x : Ast NodeId} (h : t.Holds x) :
    contentOf t x.note = x.logged.map Ast.note := by
  cases x with
  | node i k =>
      have hkind : t.kind i = k.map Ast.note := h.kind_eq
      rw [contentOf, Ast.note_node, hkind]
      cases k <;> rfl

/-- The log statement that a built-in label makes of an expression. -/
def builtinStatement {ι : Type} (level : Level) (values : Bool) (logFunction : String)
    (file : SourceName) (line : Nat) (path : List String) (x : Ast ι) (s : ι) : Ast ι :=
  .node s (.expression
    (Synthesizer.builtinCall level values logFunction file line path x.logged s))

variable {c : ExpansionContext} {s : Synthesizer} {m : Metadata}

/-- What an expanded statement `made` that takes the place of `e` is made of: new nodes and nodes inside
of `e`. Without addresses it is what the synthesizer writes for the expression of `e`. -/
structure Made (c : ExpansionContext) (s : Synthesizer) (m : Metadata) (t t' : Tree)
    (e made : Ast NodeId) : Prop where
  origin : ∀ i ∈ made.notes, i ∈ e.inner ∨ t.size ≤ i.index
  stored : ∀ i ∈ made.notes, i.index < t'.size
  nodup : made.notes.Nodup
  written : ∀ x, e.kind = .expression x → ∃ y,
    s.written c.logFunction m (x.mapNotes t.span).logged (t.span e.note) = some y ∧
      made.mapNotes t'.span = y.asStatement ∧
      (y.kind.isStatement = false → t.size ≤ made.note.index)

/-- A statement that was made stays made when more is stored. -/
theorem Made.grows {t t₁ t₂ : Tree} {e made : Ast NodeId} (h : Made c s m t t₁ e made)
    (hgrows : Tree.Grows t₁ t₂) : Made c s m t t₂ e made where
  origin := h.origin
  stored := fun i hi => Nat.lt_of_lt_of_le (h.stored i hi) hgrows.size_le
  nodup := h.nodup
  written := by
    intro x hx
    obtain ⟨y, hy, hspans, hnew⟩ := h.written x hx
    refine ⟨y, hy, ?_, hnew⟩
    rw [← hspans]
    exact Ast.mapNotes_congr made fun i hi => hgrows.span_eq i (h.stored i hi)

/-- The statement that a built-in label makes. -/
theorem Made.builtin {t t' : Tree} {e made x : Ast NodeId} {level : Level} {values : Bool}
    (h : Made c (.builtin level values) m t t' e made) (hx : e.kind = .expression x) :
    t.size ≤ made.note.index ∧ made.mapNotes t'.span
      = builtinStatement level values c.logFunction ⟨m.filename, m.filepath⟩ m.line m.parentPath
        (x.mapNotes t.span) (t.span e.note) := by
  obtain ⟨y, hy, hspans, hnew⟩ := h.written x hx
  obtain rfl := Option.some.inj hy
  exact ⟨hnew rfl, hspans⟩

/-- Expanding one expression statement of a held program puts a made statement in its place. -/
theorem expandStatement_revised (hs : ∀ make, s ≠ .native make) {session : Session}
    {a e x : Ast NodeId} (h : session.tree.Held a) (he : e.Part a) (hne : e ≠ a)
    (hx : e.kind = .expression x) :
    ∃ (made : Ast NodeId) (t' : Tree),
      expandStatement c s m e.note session = .ok
        { tree := t', handled := made.note :: session.handled,
          stats := { session.stats with calls := session.stats.calls + 1 } } ∧
      Revised session.tree t' a (a.graft e.note made) ∧ Made c s m session.tree t' e made := by
  obtain ⟨t, handled, stats⟩ := session
  simp only at h ⊢
  have heheld := h.of_part he
  have hxe : x ∈ e.kind.children := by rw [hx]; exact List.mem_singleton.2 rfl
  have hxheld := heheld.part hxe
  have hkind : t.kind e.note = .expression x.note := by
    rw [heheld.holds.kind_eq, hx]
    rfl
  -- The logged expressions are inside of the statement.
  have hinner : ∀ i ∈ x.logged.flatMap Ast.notes, i ∈ e.inner := by
    intro i hi
    obtain ⟨d, hd, hi⟩ := List.mem_flatMap.1 hi
    exact List.mem_flatMap.2 ⟨x, hxe, (Ast.logged_part hd).notes_subset hi⟩
  have htops : ∀ i ∈ x.logged.map Ast.note, i ∈ e.inner := by
    intro i hi
    obtain ⟨d, hd, rfl⟩ := List.mem_map.1 hi
    exact hinner _ (List.mem_flatMap.2 ⟨d, hd, d.note_mem_notes⟩)
  have hcontent : (LogSite.mk c.logFunction (contentOf t x.note) m (t.span e.note)).content
      = x.logged.map Ast.note := contentOf_eq hxheld.holds
  obtain ⟨b, t₁, y, hy, hb, hstored⟩ := Synthesizer.synthesize_stored hs hcontent
    (fun d hd => hxheld.of_part (Ast.logged_part hd)) (Ast.logged_nodup hxheld.nodup)
  obtain ⟨made, t₂, hmade, hstored', hnew⟩ := ensureStatement_stored hstored
  have hheld : t₂.Held made := ⟨hstored'.holds made (by simp), by simpa using hstored'.nodup⟩
  have horigin : ∀ i ∈ made.notes, i ∈ e.inner ∨ t.size ≤ i.index := by
    intro i hi
    rcases hstored'.origin i (by simpa using hi) with hge | hmem
    · exact Or.inr hge
    · exact Or.inl (hinner i hmem)
  obtain ⟨t', hok, hgrows, hrevised⟩ :=
    Tree.replace_revised h he hne hstored'.growth htops hheld horigin
  have hstoredMade : ∀ i ∈ made.notes, i.index < t'.size := fun i hi =>
    Nat.lt_of_lt_of_le (hheld.holds.stored i hi) hgrows.size_le
  refine ⟨made, t', ?_, hrevised, horigin, hstoredMade, hheld.nodup, ?_⟩
  · simp only [expandStatement, hkind, hb, hmade, hok, edit]
  · intro x' hx'
    obtain rfl : x = x' := Kind.expression.inj (hx.symm.trans hx')
    refine ⟨y, ?_, ?_, hnew⟩
    · rwa [Ast.logged_mapNotes]
    · rw [hgrows.mapNotes_span hheld.holds]
      exact List.singleton_inj.1 hstored'.spans

/-- Expanding several expression statements that share no node. -/
theorem expandStatements_revised (hs : ∀ make, s ≠ .native make) :
    ∀ (es : List (Ast NodeId)) (a : Ast NodeId) (session : Session), session.tree.Held a →
      (∀ e ∈ es, e.Part a ∧ e ≠ a ∧ ∃ x, e.kind = .expression x) → (es.flatMap Ast.notes).Nodup →
      ∃ (pairs : List (Ast NodeId × Ast NodeId)) (t' : Tree), pairs.map Prod.fst = es ∧
        expandStatements c s m (es.map Ast.note) session = .ok
          { tree := t', handled := (pairs.map fun p => p.2.note).reverse ++ session.handled,
            stats := { session.stats with calls := session.stats.calls + es.length } } ∧
        Revised session.tree t' a (a.graftAll pairs) ∧
        ((pairs.map Prod.snd).flatMap Ast.notes).Nodup ∧
        ∀ p ∈ pairs, Made c s m session.tree t' p.1 p.2 := by
  intro es
  induction es with
  | nil =>
      intro a session h _ _
      exact ⟨[], session.tree, rfl, rfl, .refl h, by simp, by simp⟩
  | cons e es ih =>
      intro a session h hes hnodup
      obtain ⟨he, hne, x, hx⟩ := hes e List.mem_cons_self
      obtain ⟨made, t₁, hok, hrevised, hmade⟩ := expandStatement_revised (c := c) (m := m) hs h he hne hx
      rw [List.flatMap_cons, List.nodup_append] at hnodup
      obtain ⟨-, hnodup, hdisjoint⟩ := hnodup
      have happart : ∀ d ∈ es, ∀ i ∈ d.notes, i ∉ e.notes := fun d hd i hi hi' =>
        hdisjoint i hi' i (List.mem_flatMap.2 ⟨d, hd, hi⟩) rfl
      have hrest : ∀ d ∈ es, d.Part (a.graft e.note made) ∧ d ≠ a.graft e.note made ∧
          ∃ x, d.kind = .expression x := by
        intro d hd
        obtain ⟨hda, hdne, hdx⟩ := hes d (List.mem_cons_of_mem _ hd)
        obtain ⟨hpart, hne'⟩ := hrevised.part_graft h he hda hdne (happart d hd)
        exact ⟨hpart, hne', hdx⟩
      obtain ⟨pairs, t', hpairs, hok', hrevised', hnodup', hmade'⟩ := ih (a.graft e.note made)
        { tree := t₁, handled := made.note :: session.handled,
          stats := { session.stats with calls := session.stats.calls + 1 } }
        hrevised.held hrest hnodup
      have hmadePart : made.Part (a.graft e.note made) := he.graft_self h.nodup
      have hmadeHeld := hrevised.held.of_part hmadePart
      have hpair : ∀ p ∈ pairs, p.1 ∈ es := fun p hp => hpairs ▸ List.mem_map.2 ⟨p, hp, rfl⟩
      refine ⟨(e, made) :: pairs, t', by simp [hpairs], ?_, hrevised.trans hrevised', ?_, ?_⟩
      · rw [List.map_cons, expandStatements, hok]
        simp only [hok', List.map_cons, List.reverse_cons, List.append_assoc, List.singleton_append,
          List.length_cons, Except.ok.injEq, Session.mk.injEq, Stats.mk.injEq, true_and]
        omega
      · -- What was made first was stored before the rest was made.
        rw [List.map_cons, List.flatMap_cons, List.nodup_append]
        refine ⟨hmadeHeld.nodup, hnodup', ?_⟩
        rintro i hi _ hj rfl
        obtain ⟨_, hmem, hj⟩ := List.mem_flatMap.1 hj
        obtain ⟨p, hp, rfl⟩ := List.mem_map.1 hmem
        have hstored := (h.of_part (hes p.1 (List.mem_cons_of_mem _ (hpair p hp))).1).holds.stored
        rcases (hmade' p hp).origin i hj with hip | hge
        · have hip := Ast.mem_notes_of_inner hip
          rcases hmade.origin i hi with hie | hge
          · exact happart p.1 (hpair p hp) i hip (Ast.mem_notes_of_inner hie)
          · exact Nat.not_lt.2 hge (hstored i hip)
        · exact Nat.not_lt.2 hge (hmadeHeld.holds.stored i hi)
      · intro p hp
        rcases List.mem_cons.1 hp with rfl | hp
        · exact hmade.grows hrevised'.toGrows
        · have hpheld := h.of_part (hes p.1 (List.mem_cons_of_mem _ (hpair p hp))).1
          refine ⟨fun i hi => ?_, (hmade' p hp).stored, (hmade' p hp).nodup, fun x hx => ?_⟩
          · exact ((hmade' p hp).origin i hi).imp_right (Nat.le_trans hrevised.size_le)
          · obtain ⟨y, hy, hspans, hnew⟩ := (hmade' p hp).written x hx
            have hxheld := hpheld.part (c := x) (by rw [hx]; exact List.mem_singleton.2 rfl)
            rw [hrevised.mapNotes_span hxheld.holds, hrevised.span_eq _ hpheld.holds.note_stored] at hy
            exact ⟨y, hy, hspans, fun hy => Nat.le_trans hrevised.size_le (hnew hy)⟩

end Expansion

end LogLabel
