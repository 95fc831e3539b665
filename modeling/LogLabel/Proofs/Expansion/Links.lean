import LogLabel.Proofs.Expansion.Bounded
import LogLabel.Proofs.Expansion.Visit
import LogLabel.Proofs.Program.Linked
import Mathlib.Logic.Relation

set_option autoImplicit false

/-!
# Links during an expansion

Parents are stored in the nodes besides the parts. This module shows that the two agree in a parsed
tree and after every visit of the pass.

* `Expansion.Tracks t ps a`: the invariant of the pass. The tree holds the program `a`, and
  the nodes still to visit are parts of it that share no node.
* `Expansion.step_tracks`: one visit keeps the invariant and has one of the outcomes that
  `Expansion.Visited` lists, or it fails for a side effect.
* `Expansion.links_agree`: the links agree after parsing and after every visit.
-/

namespace LogLabel

open Program (Ast Kind NodeId Span Tree)

namespace Expansion

open Program.Tree (Held Replaced Revised Rooted WellLinked)

/-! ## The invariant of the pass -/

/-- The tree holds the program `a`, and the programs `ps` to visit are parts of it that share no
node. -/
structure Tracks (t : Tree) (ps : List (Ast NodeId)) (a : Ast NodeId) : Prop extends Rooted t a where
  isProgram : a.kind.isProgram = true
  parts : ∀ x ∈ ps, x.Part a
  apart : (ps.flatMap Ast.notes).Nodup

section Steps

variable {t t' : Tree} {ps rs : List (Ast NodeId)} {a x : Ast NodeId} {q : NodeId}
  {k k' : Kind (Ast NodeId)}

theorem Tracks.apart_head (h : Tracks t (x :: ps) a) {y : Ast NodeId} (hy : y ∈ ps) {i : NodeId}
    (hi : i ∈ y.notes) : i ∉ x.notes := by
  have hnodup := h.apart
  rw [List.flatMap_cons, List.nodup_append] at hnodup
  exact fun hx => hnodup.2.2 i hx i (List.mem_flatMap.2 ⟨y, hy, hi⟩) rfl

/-- Parts of one of the programs to visit are visited in its place. -/
theorem Tracks.descend (h : Tracks t (x :: ps) a) (hrs : ∀ r ∈ rs, r.Part x)
    (hnodup : (rs.flatMap Ast.notes).Nodup) : Tracks t (rs ++ ps) a := by
  refine ⟨h.toRooted, h.isProgram, fun y hy => ?_, ?_⟩
  · rcases List.mem_append.1 hy with hy | hy
    · exact (hrs y hy).trans (h.parts x List.mem_cons_self)
    · exact h.parts y (List.mem_cons_of_mem _ hy)
  · have hapart := h.apart
    rw [List.flatMap_cons, List.nodup_append] at hapart
    rw [List.flatMap_append, List.nodup_append]
    refine ⟨hnodup, hapart.2.1, ?_⟩
    rintro i hi _ hj rfl
    obtain ⟨r, hr, hi⟩ := List.mem_flatMap.1 hi
    exact hapart.2.2 i ((hrs r hr).notes_subset hi) i hj rfl

/-- A revision of the layer that has the first program to visit, in which other programs take its
place. -/
theorem Tracks.revise {before stand after : List (Ast NodeId)} (h : Tracks t (x :: ps) a)
    (hlayer : (Ast.node q k).Part a) (hk : k.children = before ++ x :: after)
    (hk' : k'.children = before ++ stand ++ after)
    (hrevised : Revised t t' (.node q k) (.node q k')) (hrs : ∀ r ∈ rs, r.Part (.node q k'))
    (hnodup : (rs.flatMap Ast.notes).Nodup)
    (horigin : ∀ i ∈ rs.flatMap Ast.notes, i ∈ x.notes ∨ t.size ≤ i.index) :
    Tracks t' (rs ++ ps) (a.graft q (.node q k')) := by
  have hwhole := hrevised.graft hlayer h.toHeld
  rw [Ast.note_node] at hwhole
  have hxlayer : x.Part (.node q k) := .of_mem (by simp [hk])
  have hself : (Ast.node q k').Part (a.graft q (.node q k')) := hlayer.graft_self h.nodup
  refine ⟨⟨hwhole.held, ?_, ?_⟩, hwhole.isProgram_eq.trans h.isProgram, fun y hy => ?_, ?_⟩
  · rw [hwhole.note_eq, h.root_eq, hwhole.root_eq]
  · rw [hwhole.root_eq, ← h.root_eq, hwhole.top, h.root_eq, h.root_parent]
  · rcases List.mem_append.1 hy with hy | hy
    · exact (hrs y hy).trans hself
    · have hya := h.parts y (List.mem_cons_of_mem _ hy)
      -- The layer has the first program, so it is not inside of another one.
      have hq : q ∉ y.notes := by
        intro hmem
        obtain ⟨b, hb, hbq⟩ := Ast.Part.exists_of_mem hmem
        have hbl : b = .node q k := h.toHeld.part_unique (hb.trans hya) hlayer hbq
        exact h.apart_head hy ((hxlayer.trans (hbl ▸ hb)).notes_subset x.note_mem_notes)
          x.note_mem_notes
      refine hlayer.graft h.nodup hya hq fun hyl => ?_
      cases hyl with
      | self => exact absurd (by simp) hq
      | @inside _ d hd hyd =>
          rw [Ast.kind_node, hk, List.mem_append, List.mem_cons] at hd
          rcases hd with hd | rfl | hd
          · exact .inside (c := d) (by simp [hk', hd]) hyd
          · exact absurd (hyd.notes_subset y.note_mem_notes) (h.apart_head hy y.note_mem_notes)
          · exact .inside (c := d) (by simp [hk', hd]) hyd
  · have hapart := h.apart
    rw [List.flatMap_cons, List.nodup_append] at hapart
    rw [List.flatMap_append, List.nodup_append]
    refine ⟨hnodup, hapart.2.1, ?_⟩
    rintro i hi _ hj rfl
    rcases horigin i hi with hi | hi
    · exact hapart.2.2 i hi i hj rfl
    · obtain ⟨y, hy, hiy⟩ := List.mem_flatMap.1 hj
      have hyheld := h.toHeld.of_part (h.parts y (List.mem_cons_of_mem _ hy))
      exact Nat.not_lt.2 hi (hyheld.holds.stored i hiy)

/-- The replacements of a part are parts of the layer that has them. -/
theorem part_of_stand {r : Ast NodeId} {before after : List (Ast NodeId)}
    (hchildren : k'.children = before ++ (if k.isList then rs else [t.gathered rs]) ++ after)
    (hr : r ∈ rs) : r.Part (.node q k') := by
  cases hlist : k.isList with
  | true =>
      refine .of_mem ?_
      rw [Ast.kind_node, hchildren, hlist]
      simp [hr]
  | false =>
      have hone : r.Part (t.gathered rs) := by
        match rs, hr with
        | [r'], hr =>
            obtain rfl := List.mem_singleton.1 hr
            exact .self
        | r' :: r'' :: rs, hr => exact .of_mem hr
      refine .inside (c := t.gathered rs) ?_ hone
      rw [Ast.kind_node, hchildren, hlist]
      simp

variable {c : ExpansionContext} {session : Session}

/-- A label is processed inside of the layer that has it. -/
theorem process_tracks {p : NodeId} {label : String} {body : Ast NodeId} {s : Synthesizer}
    (hs : ∀ make, s ≠ .native make) (hhandled : p ∉ session.handled)
    (hlabel : c.table.get? label = some s)
    (h : Tracks session.tree (.node p (.labeled label body) :: ps) a) :
    (∃ (rs : List (Ast NodeId)) (a' : Ast NodeId) (session' : Session),
      process c p label body.note s session = .ok (rs.map Ast.note, session') ∧
        Tracks session'.tree (rs ++ ps) a' ∧
        Visited c session (.node p (.labeled label body)) rs session') ∨
    ∃ (d : Diagnostic) (session' : Session),
      process c p label body.note s session = .error (d, session') ∧ d.category = .purity ∧
        session'.tree = session.tree ∧ Refused c (.node p (.labeled label body)) := by
  have hx := h.parts _ List.mem_cons_self
  have hne : Ast.node p (.labeled label body) ≠ a := by
    rintro rfl
    exact absurd h.isProgram (by simp [Kind.isProgram])
  -- A label is no root, so there is a layer above it, which is what the edit changes.
  obtain ⟨q, k, hlayer, hck⟩ := hx.eq_or_parent.resolve_left hne
  have hheld := h.toHeld.of_part hlayer
  obtain ⟨before, after, hk⟩ := List.append_of_mem hck
  have hbodyMem : body ∈ (Ast.node p (.labeled label body)).kind.children := List.mem_singleton.2 rfl
  cases hstrip : shouldStrip c.strip c.environment label (metadataOf c session p) with
  | true =>
      obtain ⟨t', hok, hreplaced⟩ := process_stripped (s := s) hheld hck hstrip
      have hrevised := hreplaced.revised hheld hck (.refl [] _) (by simp) (by simp)
      have hchildren := Tree.children_swap_of_nodup hheld.nodup hk [] (session.tree.gathered [])
      have htracks' : Tracks t' ([] ++ ps) _ :=
        h.revise hlayer hk hchildren hrevised (by simp) (by simp) (by simp)
      exact Or.inl ⟨[], _, _, hok, htracks',
        .stripped hhandled (known_of_get? c hlabel) hstrip rfl (hrevised.apart hheld hk hchildren)
          (h.toRooted.leaves hlayer hk (Nat.le_refl _) hchildren htracks'.toRooted)
          (hrevised.spliced hheld hk hchildren)⟩
  | false =>
      cases hviolation : (Purity.violations c.known body).head? with
      | some violation =>
          obtain ⟨i, construct⟩ := violation
          have hbody := (hheld.part hck).part hbodyMem
          refine Or.inr ⟨_, _, process_impure hbody hstrip hviolation, rfl, rfl, p, label, body, rfl, ?_⟩
          intro hpure
          rw [hpure] at hviolation
          cases hviolation
      | none =>
          obtain ⟨pairs, t₁, t₂, k', hpairs, hok, -, hmade, hun⟩ :=
            process_pure hs hheld hk hstrip hviolation
          have hbody' := hun.label.held.part (c := body.graftAll pairs) (List.mem_singleton.2 rfl)
          have htracks' := h.revise hlayer hk hun.children hun.layer
            (fun r hr => part_of_stand hun.children hr) (Ast.unwrapped_nodup hbody'.nodup)
            fun i hi => hun.label.origin i (Ast.mem_notes_of_inner (Ast.mem_inner_of_unwrapped hi))
          exact Or.inl ⟨(body.graftAll pairs).unwrapped, _, _, hok, htracks',
            visited_expanded hheld hk hhandled hlabel hstrip (List.head?_eq_none_iff.1 hviolation)
              hpairs hmade hun
              (h.toRooted.leaves hlayer hk hun.label.size_le hun.children htracks'.toRooted)⟩

/-- One visit keeps the invariant, or fails for a side effect and leaves the tree as it is. -/
theorem step_tracks (hc : ∀ label s, c.table.get? label = some s → ∀ make, s ≠ .native make)
    (h : Tracks session.tree (x :: ps) a) :
    (∃ (rs : List (Ast NodeId)) (a' : Ast NodeId) (session' : Session),
      step c x.note session = .ok (rs.map Ast.note, session') ∧
        Tracks session'.tree (rs ++ ps) a' ∧ Visited c session x rs session') ∨
    ∃ (d : Diagnostic) (session' : Session), step c x.note session = .error (d, session') ∧
      d.category = .purity ∧ session'.tree = session.tree ∧ Refused c x := by
  have hxheld := h.toHeld.of_part (h.parts x List.mem_cons_self)
  by_cases hhandled : x.note ∈ session.handled
  · exact Or.inl ⟨[], a, session, step_handled hhandled, h.descend (by simp) (by simp),
      .passed hhandled⟩
  cases hlabel : Purity.isKnownLabel c.known x.kind with
  | false =>
      have hnodup := hxheld.nodup
      rw [Ast.notes_eq, List.nodup_cons] at hnodup
      refine Or.inl ⟨x.kind.children, a, session, ?_, h.descend (fun r hr => .of_mem hr) hnodup.2,
        .entered hhandled hlabel⟩
      have hkind : Purity.isKnownLabel c.known (session.tree.kind x.note) = false := by
        rw [hxheld.holds.kind_eq, isKnownLabel_map, hlabel]
      rw [step_other hhandled hkind, hxheld.holds.kind_eq, Kind.children_map]
  | true =>
      obtain ⟨p, label, body, rfl⟩ : ∃ p label body, x = .node p (.labeled label body) := by
        cases x with
        | node p kx => cases kx <;> first | exact ⟨_, _, _, rfl⟩ | cases hlabel
      obtain ⟨s, hs⟩ := Option.isSome_iff_exists.1 hlabel
      have hkind : session.tree.kind p = .labeled label body.note := hxheld.holds.kind_eq
      rw [Ast.note_node] at hhandled ⊢
      rw [step_label hhandled hkind hs]
      exact process_tracks (hc label s hs) hhandled hs h

end Steps

/-! ## Tables that were built -/

/-- No synthesizer of a table is a native function. -/
def NoNative (table : LabelTable) : Prop := table.Only fun s => ∀ make, s ≠ .native make

/-- What a template or a name of a built-in label stands for is a compiled template or a built-in
synthesizer. -/
theorem exists_of_synthesizerOf {label : String} {template : Option String} {s : Synthesizer}
    (h : Options.synthesizerOf label template = .ok s) :
    (∃ level values, s = .builtin level values) ∨
      ∃ source form, Template.compile label source = .ok form ∧ s = .template form := by
  unfold Options.synthesizerOf at h
  cases template with
  | none =>
      cases hb : Synthesizer.builtin? label with
      | none => simp only [hb] at h; cases h
      | some s' =>
          simp only [hb, Except.ok.injEq] at h
          obtain ⟨level, -, hlevel⟩ := Option.map_eq_some_iff.1 hb
          exact Or.inl ⟨level, _, h.symm.trans hlevel.symm⟩
  | some source =>
      cases hcompile : Template.compile label source with
      | error d => simp only [hcompile] at h; cases h
      | ok form =>
          simp only [hcompile] at h
          exact Or.inr ⟨source, form, hcompile, (Except.ok.inj h).symm⟩

/-- What holds of the built-in synthesizers and of every compiled template holds of all synthesizers of
a table that was built of them. -/
theorem only_of_buildTable {P : Synthesizer → Prop}
    (hbuiltin : ∀ level values, P (.builtin level values))
    (htemplate : ∀ label source form, Template.compile label source = .ok form → P (.template form))
    {templates : Option (NameMap (Option String))} {table : LabelTable}
    (h : Options.buildTable templates [] = .ok table) : table.Only P := by
  have hadd : ∀ (es : List (String × Option String)) (start table : LabelTable), start.Only P →
      Options.addTemplates start es = .ok table → table.Only P := by
    intro es
    induction es with
    | nil =>
        intro start table hstart h
        obtain rfl := Except.ok.inj h
        exact hstart
    | cons e es ih =>
        intro start table hstart h
        obtain ⟨label, template⟩ := e
        rw [Options.addTemplates] at h
        cases hs : Options.synthesizerOf label template with
        | error d => rw [hs] at h; cases h
        | ok s =>
            rw [hs] at h
            refine ih _ _ (hstart.insert ?_) h
            rcases exists_of_synthesizerOf hs with ⟨level, values, rfl⟩ | ⟨source, form, hform, rfl⟩
            · exact hbuiltin level values
            · exact htemplate label source form hform
  have hnone : ∀ table : LabelTable, Options.addNatives table [] = table := fun _ => rfl
  cases templates with
  | none =>
      simp only [Options.buildTable, Except.map, hnone, Except.ok.injEq] at h
      rw [← h]
      refine LabelTable.defaults_builtin.imp ?_
      rintro s ⟨level, values, rfl⟩
      exact hbuiltin level values
  | some m =>
      cases hm : Options.addTemplates NameMap.empty m.entries with
      | error d =>
          simp only [Options.buildTable, hm] at h
          cases h
      | ok base =>
          simp only [Options.buildTable, hm, Except.map, hnone, Except.ok.injEq] at h
          rw [← h]
          exact hadd _ _ _ LabelTable.only_empty hm

/-- A table of built-in labels and compiled templates has no native function. -/
theorem noNative_of_buildTable {templates : Option (NameMap (Option String))} {table : LabelTable}
    (h : Options.buildTable templates [] = .ok table) : NoNative table :=
  only_of_buildTable (fun _ _ _ h => by cases h) (fun _ _ _ _ _ h => by cases h) h

/-! ## Whole passes -/

/-- One iteration of the pass: the first node is visited and gives way to the nodes to visit in its
place. -/
inductive Iterates (c : ExpansionContext) :
    List NodeId × Session → List NodeId × Session → Prop
  | visit {id : NodeId} {pending next : List NodeId} {session session' : Session}
      (h : step c id session = .ok (next, session')) :
      Iterates c (id :: pending, session) (next ++ pending, session')

/-- The states that iterations lead to are the states the pass goes through. -/
theorem visitAll_of_iterates {c : ExpansionContext} {st st' : List NodeId × Session}
    (h : Relation.ReflTransGen (Iterates c) st st') :
    visitAll c st.1 st.2 = visitAll c st'.1 st'.2 := by
  induction h with
  | refl => rfl
  | tail _ hstep ih =>
      cases hstep with
      | visit hvisit => rw [ih, visitAll_of_step hvisit]

/-- Iterations lead to a state that has no further one. -/
def Halts (c : ExpansionContext) (st : List NodeId × Session) : Prop :=
  ∃ last, Relation.ReflTransGen (Iterates c) st last ∧ ∀ next, ¬ Iterates c last next

/-- A pass that comes to a result halts. -/
theorem ComesTo.halts {c : ExpansionContext} {pending : List NodeId} {session : Session}
    {result : Except (Diagnostic × Session) Session} (h : ComesTo c pending session result) :
    Halts c (pending, session) := by
  induction h with
  | done session =>
      refine ⟨([], session), .refl, ?_⟩
      rintro next ⟨⟩
  | failed herror =>
      refine ⟨_, .refl, ?_⟩
      rintro next ⟨hstep⟩
      rw [herror] at hstep
      cases hstep
  | visited hstep _ ih =>
      obtain ⟨last, hreached, hlast⟩ := ih
      exact ⟨last, .head (.visit hstep) hreached, hlast⟩

/-- A pass that halts comes to a result. -/
theorem Halts.exists_comesTo {c : ExpansionContext} {st : List NodeId × Session} (h : Halts c st) :
    ∃ result, ComesTo c st.1 st.2 result := by
  obtain ⟨last, hreached, hlast⟩ := h
  have hsame := visitAll_of_iterates hreached
  -- In the last state no node is left, or the visit of the first one fails.
  match last, hlast, hsame with
  | ([], session), _, hsame => exact ⟨_, comesTo_of_visitAll (hsame.trans (visitAll_nil c session))⟩
  | (id :: pending, session), hlast, hsame =>
      cases hstep : step c id session with
      | error e => exact ⟨_, comesTo_of_visitAll (hsame.trans (visitAll_of_error hstep))⟩
      | ok visited => exact absurd (.visit hstep) (hlast _)

/-- A pass over a tree has a result exactly when it halts. -/
theorem isSome_run?_iff {c : ExpansionContext} {t : Tree} :
    (run? c t).isSome = true ↔ Halts c ([t.root], { tree := t }) := by
  rw [Option.isSome_iff_exists]
  constructor
  · rintro ⟨result, h⟩
    exact (comesTo_of_visitAll h).halts
  · intro h
    obtain ⟨result, hresult⟩ := h.exists_comesTo
    exact ⟨result, hresult.visitAll_eq⟩

/-- The state after a number of visits. -/
def stateAfter (c : ExpansionContext) :
    Nat → List NodeId × Session → Option (List NodeId × Session)
  | 0, st => some st
  | n + 1, (id :: pending, session) =>
      match step c id session with
      | .ok (next, session') => stateAfter c n (next ++ pending, session')
      | .error _ => none
  | _ + 1, ([], _) => none

theorem iterates_of_stateAfter {c : ExpansionContext} {n : Nat} {st st' : List NodeId × Session}
    (h : stateAfter c n st = some st') : Relation.ReflTransGen (Iterates c) st st' := by
  induction n generalizing st with
  | zero =>
      obtain rfl := Option.some.inj h
      exact .refl
  | succ n ih =>
      match st, h with
      | (id :: pending, session), h =>
          rw [stateAfter] at h
          split at h
          · next next session' hvisit => exact .head (.visit hvisit) (ih h)
          · cases h

/-- The invariant of a state of the loop. -/
def Sound (st : List NodeId × Session) : Prop :=
  ∃ (ps : List (Ast NodeId)) (a : Ast NodeId), st.1 = ps.map Ast.note ∧ Tracks st.2.tree ps a

theorem Sound.wellLinked {st : List NodeId × Session} (h : Sound st) : st.2.tree.WellLinked := by
  obtain ⟨ps, a, -, htracks⟩ := h
  exact htracks.toRooted.wellLinked

section Passes

variable {c : ExpansionContext}

theorem Sound.step (hc : NoNative c.table) {id : NodeId} {pending : List NodeId} {session : Session}
    (h : Sound (id :: pending, session)) :
    (∃ (next : List NodeId) (session' : Session), Expansion.step c id session = .ok (next, session') ∧
      Sound (next ++ pending, session')) ∨
    ∃ (d : Diagnostic) (session' : Session), Expansion.step c id session = .error (d, session') ∧
      d.category = .purity ∧ session'.tree = session.tree := by
  obtain ⟨ps, a, hps, htracks⟩ := h
  match ps, hps, htracks with
  | x :: ps, hps, htracks =>
      simp only [List.map_cons, List.cons.injEq] at hps
      obtain ⟨rfl, rfl⟩ := hps
      rcases step_tracks (fun label s => hc.get?) htracks with
        ⟨rs, a', session', hok, hnext, -⟩ | ⟨d, session', herror, hcategory, htree, -⟩
      · exact Or.inl ⟨_, session', hok, rs ++ ps, a', by simp, hnext⟩
      · exact Or.inr ⟨d, session', herror, hcategory, htree⟩

theorem Sound.iterate (hc : NoNative c.table) {st st' : List NodeId × Session} (h : Sound st)
    (hstep : Iterates c st st') : Sound st' := by
  cases hstep with
  | visit hvisit =>
      rcases h.step hc with ⟨next, session', hok, hsound⟩ | ⟨d, session', herror, -⟩
      · rw [hok] at hvisit
        obtain ⟨rfl, rfl⟩ := Prod.mk.inj (Except.ok.inj hvisit)
        exact hsound
      · rw [herror] at hvisit
        cases hvisit

theorem Sound.iterates (hc : NoNative c.table) {st st' : List NodeId × Session} (h : Sound st)
    (hrun : Relation.ReflTransGen (Iterates c) st st') : Sound st' := by
  induction hrun with
  | refl => exact h
  | tail _ hstep ih => exact ih.iterate hc hstep

/-- The result of a pass from a state that satisfies the invariant: the links agree, and a failure is
one for a side effect. -/
theorem Sound.comesTo (hc : NoNative c.table) {pending : List NodeId} {session : Session}
    {result : Except (Diagnostic × Session) Session} (h : Sound (pending, session))
    (hpass : ComesTo c pending session result) :
    (∀ s, result = .ok s → s.tree.WellLinked) ∧
      ∀ d s, result = .error (d, s) → s.tree.WellLinked ∧ d.category = .purity := by
  induction hpass with
  | done session =>
      refine ⟨fun s hs => ?_, fun d s hs => by cases hs⟩
      obtain rfl := Except.ok.inj hs
      exact h.wellLinked
  | failed hstep =>
      rcases h.step hc with ⟨next, session', hok, -⟩ | ⟨d, session', herror, hcategory, htree⟩
      · rw [hok] at hstep
        cases hstep
      · rw [herror] at hstep
        obtain rfl := Except.error.inj hstep
        refine ⟨fun s hs => (by cases hs), fun d' s hs => ?_⟩
        obtain ⟨rfl, rfl⟩ := Prod.mk.inj (Except.error.inj hs)
        rw [htree]
        exact ⟨h.wellLinked, hcategory⟩
  | visited hstep _ ih => exact ih (h.iterate hc (.visit hstep))

end Passes

/-! ## Further invariants -/

/-- The programs to visit and the session satisfy `P` in a state of the loop. -/
def Tracked (P : List (Ast NodeId) → Session → Prop) (st : List NodeId × Session) : Prop :=
  ∃ (ps : List (Ast NodeId)) (a : Ast NodeId), st.1 = ps.map Ast.note ∧ Tracks st.2.tree ps a ∧ P ps st.2

/-- Every visit keeps `P`. -/
def Kept (c : ExpansionContext) (P : List (Ast NodeId) → Session → Prop) : Prop :=
  ∀ {x : Ast NodeId} {ps rs : List (Ast NodeId)} {a a' : Ast NodeId} {session session' : Session},
    Tracks session.tree (x :: ps) a → Tracks session'.tree (rs ++ ps) a' →
      Visited c session x rs session' → P (x :: ps) session → P (rs ++ ps) session'

section Tracked

variable {c : ExpansionContext} {P : List (Ast NodeId) → Session → Prop} {st st' : List NodeId × Session}

/-- An iteration visits the first program of a state. -/
theorem Iterates.exists_visited (hstep : Iterates c st st') (hc : NoNative c.table)
    {ps : List (Ast NodeId)} {a : Ast NodeId} (hps : st.1 = ps.map Ast.note)
    (htracks : Tracks st.2.tree ps a) :
    ∃ (x : Ast NodeId) (rest rs : List (Ast NodeId)) (a' : Ast NodeId), ps = x :: rest ∧
      st'.1 = (rs ++ rest).map Ast.note ∧ Tracks st'.2.tree (rs ++ rest) a' ∧
      Visited c st.2 x rs st'.2 := by
  cases hstep with
  | visit hvisit =>
      match ps, hps, htracks with
      | x :: ps, hps, htracks =>
          simp only [List.map_cons, List.cons.injEq] at hps
          obtain ⟨rfl, rfl⟩ := hps
          rcases step_tracks (fun label s => hc.get?) htracks with
            ⟨rs, a', session', hok, hnext, hvisited⟩ | ⟨d, session', herror, -⟩
          · -- A visit has one outcome, so it is the one that was taken.
            rw [hok] at hvisit
            obtain ⟨rfl, rfl⟩ := Prod.mk.inj (Except.ok.inj hvisit)
            exact ⟨x, ps, rs, a', rfl, by simp, hnext, hvisited⟩
          · rw [herror] at hvisit
            cases hvisit

theorem Tracked.iterate (hc : NoNative c.table) (hkept : Kept c P) (h : Tracked P st)
    (hstep : Iterates c st st') : Tracked P st' := by
  obtain ⟨ps, a, hps, htracks, hP⟩ := h
  obtain ⟨x, rest, rs, a', rfl, hps', htracks', hvisited⟩ := hstep.exists_visited hc hps htracks
  exact ⟨rs ++ rest, a', hps', htracks', hkept htracks htracks' hvisited hP⟩

/-- What every visit keeps holds in all states that iterations lead to. -/
theorem Tracked.iterates (hc : NoNative c.table) (hkept : Kept c P) (h : Tracked P st)
    (hrun : Relation.ReflTransGen (Iterates c) st st') : Tracked P st' := by
  induction hrun with
  | refl => exact h
  | tail _ hstep ih => exact ih.iterate hc hkept hstep

end Tracked

/-- The pass over a parsed tree starts with its root to visit. -/
theorem tracks_parse {mode : Program.Mode} {text : String} {t : Tree}
    (h : Program.parse mode text = .ok t) : Tracks t [t.program] t.program := by
  obtain ⟨body, a, -, hrooted, hspans⟩ := Program.parse_rooted h
  rw [hrooted.program_eq]
  refine ⟨hrooted, ?_, by simp [Ast.Part.self], by simpa using hrooted.nodup⟩
  have hkind := congrArg Ast.kind hspans
  rw [Ast.kind_mapNotes] at hkind
  cases hk : a.kind <;> rw [hk] at hkind <;> first | rfl | cases hkind

/-- A parsed tree satisfies the invariant with its root to visit. -/
theorem sound_parse {mode : Program.Mode} {text : String} {t : Tree}
    (h : Program.parse mode text = .ok t) : Sound ([t.root], { tree := t }) := by
  have htracks := tracks_parse h
  exact ⟨[t.program], t.program, by simp [htracks.root_eq], htracks⟩

/-- The links agree in a parsed tree and after every iteration of a pass over it, for any table of
built-in labels and compiled templates. So no edit of the pass ever fails: a visit fails for a side
effect only. -/
theorem links_agree {mode : Program.Mode} {text : String} {t : Tree}
    (hparse : Program.parse mode text = .ok t) {c : ExpansionContext}
    {templates : Option (NameMap (Option String))}
    (htable : Options.buildTable templates [] = .ok c.table) :
    t.WellLinked ∧
    (∀ pending session,
      Relation.ReflTransGen (Iterates c) ([t.root], { tree := t }) (pending, session) →
        session.tree.WellLinked ∧
        ∀ id rest, pending = id :: rest → ∀ d session', step c id session = .error (d, session') →
          d.category = .purity ∧ session'.tree.WellLinked) ∧
    (∀ session, run c t = .ok session → session.tree.WellLinked) ∧
    ∀ d session, run c t = .error (d, session) →
      session.tree.WellLinked ∧ (d.category = .purity ∨ d.cause = .unsettledExpansion) := by
  have hc := noNative_of_buildTable htable
  have hstart := sound_parse hparse
  refine ⟨hstart.wellLinked, fun pending session hrun => ?_, fun session hrun => ?_,
    fun d session hrun => ?_⟩
  · have hsound : Sound (pending, session) := hstart.iterates hc hrun
    refine ⟨hsound.wellLinked, ?_⟩
    rintro id rest rfl d session' herror
    rcases hsound.step hc with ⟨next, session'', hok, -⟩ | ⟨d', session'', herror', hcategory, htree⟩
    · rw [hok] at herror
      cases herror
    · rw [herror'] at herror
      obtain ⟨rfl, rfl⟩ := Prod.mk.inj (Except.error.inj herror)
      exact ⟨hcategory, htree ▸ hsound.wellLinked⟩
  · exact (hstart.comesTo hc (comesTo_of_visitAll (run_eq_ok_iff_run?.1 hrun))).1 session rfl
  · cases hpass : run? c t with
    | none =>
        -- The failure that stands in for a missing result leaves the tree as it was.
        rw [run, hpass, Option.getD_none] at hrun
        obtain ⟨rfl, rfl⟩ := Prod.mk.inj (Except.error.inj hrun)
        exact ⟨hstart.wellLinked, Or.inr rfl⟩
    | some result =>
        rw [run_of_run? hpass] at hrun
        obtain ⟨hlinked, hcategory⟩ := (hstart.comesTo hc (comesTo_of_visitAll hpass)).2 d session hrun
        exact ⟨hlinked, Or.inl hcategory⟩

/-- The links agree in a tree with a label, after the visit that expands the label, and at the end of
the pass. -/
theorem links_agree_label :
    ∃ (t : Tree) (pending : List NodeId) (session last : Session),
      Program.parse .source "info:a" = .ok t ∧ t.WellLinked ∧
      Relation.ReflTransGen (Iterates plainContext) ([t.root], { tree := t }) (pending, session) ∧
      session.stats = ⟨1, 0, 1⟩ ∧ session.tree.WellLinked ∧
      run plainContext t = .ok last ∧ last.tree.WellLinked := by
  have hseen : observe plainContext (fun t _ =>
      (stateAfter plainContext 2 ([t.root], { tree := t })).map fun st => st.2.stats) "info:a"
      = some (some ⟨1, 0, 1⟩) := by decide +kernel
  obtain ⟨t, last, hparse, hrun, hseen⟩ := exists_of_observe hseen
  obtain ⟨⟨pending, session⟩, hstate, hstats⟩ := Option.map_eq_some_iff.1 hseen
  have htable : Options.buildTable none [] = .ok plainContext.table := rfl
  obtain ⟨hlinked, hvisits, hlast, -⟩ := links_agree hparse htable
  have hreached := iterates_of_stateAfter hstate
  exact ⟨t, pending, session, last, hparse, hlinked, hreached, hstats,
    (hvisits pending session hreached).1, hrun, hlast last hrun⟩

end Expansion

end LogLabel
