import LogLabel.Proofs.Expansion.Links
import LogLabel.Proofs.Expansion.Pending
import LogLabel.Proofs.Expansion.Plain
import LogLabel.Proofs.Expansion.Success
import LogLabel.Proofs.Expansion.Surroundings

set_option autoImplicit false

/-!
# What is to visit

The invariant that relates a pass to the parsed tree, for any table of built-in labels and
compiled templates.

* `Expansion.Awaits`: a program to visit is a statement made in the pass, a program without
  labels of the source, or it has become of a program of the source whose surroundings agree.
* `Expansion.Faithful`: the invariant, kept by every visit (`Expansion.Faithful.visit`).
* `Expansion.metadata_of_source`: a label of the source that is visited is processed, with
  the metadata that it has in the source.
-/

namespace LogLabel

open Program (Ast Kind NodeId Span Tree)
open Program.Tree (Held Rooted Apart Placed Grows)

namespace Expansion

/-! ## The invariant -/

/-- No node of a program is a label of a log statement in the source. -/
def Unlabeled (known : String → Bool) (t₀ : Tree) (x : Ast NodeId) : Prop :=
  ∀ i ∈ x.notes, Purity.isKnownLabel known (t₀.kind i) = false

/-- A program that has no label of the source, and with a tame table no label of a log statement. -/
structure Inert (c : ExpansionContext) (t₀ : Tree) (x : Ast NodeId) : Prop where
  unlabeled : Unlabeled c.known t₀ x
  plain : c.table.Tame → x.Plain c.known

/-- A program to visit: a statement made in the pass, an inert program, or one that has become of a
program of the source, with surroundings that agree. -/
inductive Awaits (c : ExpansionContext) (t₀ : Tree) (session : Session) (x : Ast NodeId) : Prop
  | done (h : x.note ∈ session.handled)
  | inert (h : Inert c t₀ x)
  | source {x₀ : Ast NodeId} (hx₀ : x₀.Part t₀.program) (hnote : x.note = x₀.note)
      (h : Becomes session.handled (Inert c t₀) x₀ x)
      (hagrees : Agrees c.known t₀ session.tree x.note)

/-- The invariant of the pass with respect to the source `t₀`. -/
structure Faithful (c : ExpansionContext) (t₀ : Tree) (ps : List (Ast NodeId)) (session : Session) :
    Prop where
  grows : Grows t₀ session.tree
  handled : ∀ i ∈ session.handled, Purity.isKnownLabel c.known (t₀.kind i) = false
  pending : ∀ x ∈ ps, Awaits c t₀ session x

/-- A tree that was read: it is held from its root on, and sorted. -/
structure Source (t₀ : Tree) : Prop where
  rooted : t₀.Rooted t₀.program
  sorted : t₀.program.wellSorted false = true

section Invariant

variable {c : ExpansionContext} {t₀ : Tree} {session session' : Session} {ps rs : List (Ast NodeId)}
  {a a' x y : Ast NodeId} {known : String → Bool}

theorem Inert.part {r : Ast NodeId} (h : Inert c t₀ x) (hr : r.Part x) : Inert c t₀ r :=
  ⟨fun i hi => h.unlabeled i (hr.notes_subset hi), fun htame => (h.plain htame).part hr⟩

theorem isKnownLabel_of_new {t : Tree} (h : Grows t₀ t) {i : NodeId} (hi : t.size ≤ i.index) :
    Purity.isKnownLabel known (t₀.kind i) = false := by
  rw [Tree.kind, t₀.node?_eq_none (Nat.le_trans h.size_le hi)]
  rfl

/-- A label that is processed is a label of the source, or it is in an inert program. -/
theorem Awaits.of_label {p : NodeId} {label : String} {body : Ast NodeId}
    (h : Awaits c t₀ session (.node p (.labeled label body))) (hhandled : p ∉ session.handled) :
    Inert c t₀ (.node p (.labeled label body)) ∨
      ∃ body₀ : Ast NodeId, (Ast.node p (.labeled label body₀)).Part t₀.program ∧
        Becomes session.handled (Inert c t₀) body₀ body ∧ Agrees c.known t₀ session.tree p := by
  cases h with
  | done h => exact absurd h hhandled
  | inert h => exact Or.inl h
  | source hx₀ hnote h hagrees =>
      obtain ⟨body₀, rfl, hbody⟩ := h.exists_label hhandled
      exact Or.inr ⟨body₀, hx₀, hbody, hagrees⟩

/-- With a tame table no inert program is a label of a log statement. -/
theorem Inert.not_tame {p : NodeId} {label : String} {body : Ast NodeId}
    (h : Inert c t₀ (.node p (.labeled label body))) (hknown : c.known label = true) :
    ¬ c.table.Tame := by
  intro htame
  have hlabel : c.known label = false := h.plain htame _ .self
  rw [hknown] at hlabel
  cases hlabel

section Expanding

variable {p : NodeId} {label : String} {body : Ast NodeId} {s : Synthesizer}

/-- A statement that a label of the source expands is one of the source, and there is no label in the
expression that it logs. -/
theorem logged_of_source {body₀ e : Ast NodeId} (hsource : Source t₀)
    (hlabel : (Ast.node p (.labeled label body₀)).Part t₀.program)
    (hbody : Becomes session.handled (Inert c t₀) body₀ body)
    (hpure : Purity.violations c.known body = [])
    (he : e ∈ bodyRegion c.known session.handled body) :
    e.Part t₀.program ∧ ∃ y : Ast NodeId, e.kind = .expression y ∧ y.Plain c.known := by
  have hbody₀ : body₀.Part t₀.program := Ast.part_of_labeled hlabel
  obtain ⟨b, hsorted⟩ := Ast.wellSorted_part hbody₀ hsource.sorted
  obtain ⟨hepart, y, hey, hysorted, hyharmless⟩ := hbody.statement_part hsorted hpure he
  refine ⟨hepart.trans hbody₀, y, hey, ?_⟩
  exact .of_no_statement fun d hd => (Purity.harmless_part hd hysorted hyharmless).1

/-- There are no labels of the source in a made statement: it has new nodes, and nodes of an expression
that was searched. -/
theorem made_unlabeled {m : Metadata} {e made : Ast NodeId} (hsource : Source t₀)
    (hgrows : Grows t₀ session.tree) (hx : Awaits c t₀ session (.node p (.labeled label body)))
    (hhandled : p ∉ session.handled) (hpure : Purity.violations c.known body = [])
    (he : e ∈ bodyRegion c.known session.handled body)
    (hmade : Made c s m session.tree session'.tree e made) : Unlabeled c.known t₀ made := by
  intro i hi
  rcases hmade.origin i hi with hi | hi
  · -- A node that was there before is in the logged expression.
    rcases hx.of_label hhandled with h | ⟨body₀, hlabel, hbody, -⟩
    · have hebody : e.Part (.node p (.labeled label body)) :=
        .inside (List.mem_singleton.2 rfl) (bodyRegion_part he).1
      exact h.unlabeled i (hebody.notes_subset (Ast.mem_notes_of_inner hi))
    · obtain ⟨hepart, y, hey, hplain⟩ := logged_of_source hsource hlabel hbody hpure he
      rw [Ast.inner, hey, Kind.children, List.flatMap_singleton] at hi
      obtain ⟨d, hd, rfl⟩ := Ast.Part.exists_of_mem hi
      have hde : d.Part e := .inside (by rw [hey]; exact List.mem_singleton.2 rfl) hd
      rw [(hsource.rooted.toHeld.of_part (hde.trans hepart)).holds.kind_eq, isKnownLabel_map,
        hplain d hd]
  · exact isKnownLabel_of_new hgrows hi

/-- The statements of a made block are inert. -/
theorem made_inert {m : Metadata} {e made : Ast NodeId} (hsource : Source t₀)
    (hgrows : Grows t₀ session.tree) (hx : Awaits c t₀ session (.node p (.labeled label body)))
    (hhandled : p ∉ session.handled) (hs : c.table.get? label = some s)
    (hpure : Purity.violations c.known body = [])
    (he : e ∈ bodyRegion c.known session.handled body)
    (hmade : Made c s m session.tree session'.tree e made) (hblock : made.kind.isBlock = true) :
    Inert c t₀ made := by
  refine ⟨made_unlabeled hsource hgrows hx hhandled hpure he hmade, fun htame => ?_⟩
  rcases hx.of_label hhandled with h | ⟨body₀, hlabel, hbody, -⟩
  · exact absurd htame (h.not_tame (known_of_get? c hs))
  · obtain ⟨-, y, hey, hplain⟩ := logged_of_source hsource hlabel hbody hpure he
    exact hmade.plain_of_block htame hs hey hplain hblock

end Expanding

/-- A program that is not in the edited one is still to visit as it was. -/
theorem Awaits.apart (h : Awaits c t₀ session x) (hsub : session.handled ⊆ session'.handled)
    (hapart : Apart session.tree session'.tree y) (ht : session.tree.Rooted a) (hx : x.Part a)
    (hy : y.Part a) (hxy : x.note ∉ y.notes) : Awaits c t₀ session' x := by
  cases h with
  | done h => exact .done (hsub h)
  | inert h => exact .inert h
  | source hx₀ hnote h hagrees =>
      exact .source hx₀ hnote (h.mono hsub) (hagrees.apart hapart ht hx hy hxy)

/-- The parts of a node that is entered. -/
theorem Awaits.enter (hsource : Source t₀) (hgrows : Grows t₀ session.tree)
    (h : Awaits c t₀ session x) (hhandled : x.note ∉ session.handled)
    (hlabel : Purity.isKnownLabel c.known x.kind = false) (ht : session.tree.Rooted a)
    (hx : x.Part a) {r : Ast NodeId} (hr : r ∈ x.kind.children) : Awaits c t₀ session r := by
  cases h with
  | done h => exact absurd h hhandled
  | inert h => exact .inert (h.part (.of_mem hr))
  | @source x₀ hx₀ hnote h hagrees =>
      obtain ⟨f, rfl, hparts⟩ := h.exists_layer hhandled
      have hr' := hr
      rw [Ast.kind_node, Kind.children_map, List.mem_map] at hr'
      obtain ⟨r₀, hr₀, rfl⟩ := hr'
      rcases (hparts r₀ hr₀).note_eq with hdone | hrnote
      · exact .done hdone
      · refine .source ((Ast.Part.of_mem hr₀).trans hx₀) hrnote (hparts r₀ hr₀) ?_
        exact hagrees.part hgrows hsource.rooted hx₀ hr₀ ht hx hr hnote hrnote
          (Kind.outline_map f x₀.kind) hlabel

/-- The statements that take the place of an expanded label. -/
theorem Awaits.expand {p : NodeId} {label : String} {body : Ast NodeId} {s : Synthesizer}
    {pairs : List (Ast NodeId × Ast NodeId)} (hsource : Source t₀)
    (h : Awaits c t₀ session (.node p (.labeled label body))) (hhandled : p ∉ session.handled)
    (hs : c.table.get? label = some s)
    (hpairs : pairs.map Prod.fst = bodyRegion c.known session.handled body)
    (hunlabeled : ∀ pair ∈ pairs, Unlabeled c.known t₀ pair.2)
    (hinert : ∀ pair ∈ pairs, pair.2.kind.isBlock = true → Inert c t₀ pair.2)
    (hnew : session'.handled = (pairs.map fun pair => pair.2.note).reverse ++ session.handled)
    (hapart : Apart session.tree session'.tree (.node p (.labeled label body)))
    (ht : session.tree.Rooted a) (hx : (Ast.node p (.labeled label body)).Part a)
    (ht' : session'.tree.Rooted a') {r : Ast NodeId} (hra : r.Part a')
    (hr : r ∈ (body.subst (Ast.replacement pairs)).unwrapped)
    (hplaced : session.tree.Placed session'.tree (.node p (.labeled label body)) r) :
    Awaits c t₀ session' r := by
  have hbodyMem : body ∈ (Ast.node p (.labeled label body)).kind.children := List.mem_singleton.2 rfl
  rcases h.of_label hhandled with h | ⟨body₀, hlabel, hbody, hagrees⟩
  · -- What comes in for an inert label has no label of the source either.
    refine .inert ⟨fun i hi => ?_, fun htame => absurd htame (h.not_tame (known_of_get? c hs))⟩
    rcases Ast.mem_notes_subst body ((Ast.unwrapped_part hr).notes_subset hi) with hi | ⟨j, m, hm, hi⟩
    · exact h.unlabeled i (Ast.notes_subset_of_mem hbodyMem hi)
    · obtain ⟨pair, hpair, -, rfl⟩ := Ast.mem_of_replacement hm
      exact hunlabeled pair hpair i hi
  · -- The body has become of the body in the source, now with the made statements in it.
    have hsub : session.handled ⊆ session'.handled := by
      rw [hnew]
      exact List.subset_append_right _ _
    have hmade : ∀ j m, Ast.replacement pairs j = some m → m.note ∈ session'.handled ∧
        (m.kind.isBlock = true → ∀ r ∈ m.kind.children, Inert c t₀ r) := by
      intro j m hm
      obtain ⟨pair, hpair, -, rfl⟩ := Ast.mem_of_replacement hm
      refine ⟨?_, fun hblock r hr => (hinert pair hpair hblock).part (.of_mem hr)⟩
      rw [hnew]
      exact List.mem_append_left _ (List.mem_reverse.2 (List.mem_map.2 ⟨pair, hpair, rfl⟩))
    have hreplaces : Structural.Replaces (Ast.replacement pairs) body
        (bodyRegion c.known session.handled body) := by
      intro i _
      rw [Ast.replacement_isSome, hpairs]
    have hnodup := ((Ast.Part.of_mem hbodyMem).trans hx).nodup ht.nodup
    rcases (hbody.substBody hsub hnodup hreplaces hmade).unwrapped hr with
      hdone | hinert | ⟨r₀, hr₀, hrnote, hbecomes⟩
    · exact .done hdone
    · exact .inert hinert
    · have hpart := (Ast.unwrapped_part hr₀).trans (Ast.part_of_labeled hlabel)
      refine .source hpart hrnote hbecomes ?_
      refine hagrees.placed hplaced hapart ht hx ht' hra ?_
      rw [hrnote]
      exact around_unwrapped hsource.rooted hlabel (known_of_get? c hs) hr₀

/-- One visit keeps the invariant. -/
theorem Faithful.visit (hsource : Source t₀) (h : Faithful c t₀ (x :: ps) session)
    (htracks : Tracks session.tree (x :: ps) a) (htracks' : Tracks session'.tree (rs ++ ps) a')
    (hvisited : Visited c session x rs session') : Faithful c t₀ (rs ++ ps) session' := by
  have hx := htracks.parts x List.mem_cons_self
  have hfirst := h.pending x List.mem_cons_self
  have hrest : ∀ y ∈ ps, y.Part a ∧ y.note ∉ x.notes ∧ Awaits c t₀ session y := fun y hy =>
    ⟨htracks.parts y (List.mem_cons_of_mem _ hy), htracks.apart_head hy y.note_mem_notes,
      h.pending y (List.mem_cons_of_mem _ hy)⟩
  -- The other programs to visit are outside of what is edited, so only the first one matters.
  cases hvisited with
  | passed hhandled => exact ⟨h.grows, h.handled, fun y hy => (hrest y hy).2.2⟩
  | entered hhandled hlabel =>
      refine ⟨h.grows, h.handled, fun y hy => ?_⟩
      rcases List.mem_append.1 hy with hy | hy
      · exact hfirst.enter hsource h.grows hhandled hlabel htracks.toRooted hx hy
      · exact (hrest y hy).2.2
  | stripped hhandled hknown hstrip hsame hapart =>
      refine ⟨h.grows.trans hapart.toGrows, hsame ▸ h.handled, fun y hy => ?_⟩
      obtain ⟨hya, hyx, hawaits⟩ := hrest y hy
      exact hawaits.apart (hsame ▸ List.Subset.refl _) hapart htracks.toRooted hya hx hyx
  | @expanded p label body s pairs _ hhandled hs hstrip hpure hpairs hmade hnew hapart hplaced =>
      have hregion : ∀ pair ∈ pairs, pair.1 ∈ bodyRegion c.known session.handled body := by
        intro pair hpair
        rw [← hpairs]
        exact List.mem_map.2 ⟨pair, hpair, rfl⟩
      have hunlabeled : ∀ pair ∈ pairs, Unlabeled c.known t₀ pair.2 := fun pair hpair =>
        made_unlabeled hsource h.grows hfirst hhandled hpure (hregion pair hpair) (hmade pair hpair)
      have hinert : ∀ pair ∈ pairs, pair.2.kind.isBlock = true → Inert c t₀ pair.2 :=
        fun pair hpair =>
          made_inert hsource h.grows hfirst hhandled hs hpure (hregion pair hpair) (hmade pair hpair)
      refine ⟨h.grows.trans hapart.toGrows, fun i hi => ?_, fun y hy => ?_⟩
      · rw [hnew] at hi
        rcases List.mem_append.1 hi with hi | hi
        · obtain ⟨pair, hpair, rfl⟩ := List.mem_map.1 (List.mem_reverse.1 hi)
          exact hunlabeled pair hpair _ pair.2.note_mem_notes
        · exact h.handled i hi
      · rcases List.mem_append.1 hy with hy' | hy'
        · exact hfirst.expand hsource hhandled hs hpairs hunlabeled hinert hnew hapart
            htracks.toRooted hx htracks'.toRooted (htracks'.parts y hy) hy' (hplaced y hy')
        · obtain ⟨hya, hyx, hawaits⟩ := hrest y hy'
          refine hawaits.apart ?_ hapart htracks.toRooted hya hx hyx
          rw [hnew]
          exact List.subset_append_right _ _

end Invariant

/-! ## The pass over a source -/

theorem source_parse {mode : Program.Mode} {text : String} {t : Tree}
    (h : Program.parse mode text = .ok t) : Source t :=
  ⟨(tracks_parse h).toRooted, Program.parse_wellSorted h⟩

/-- The invariant holds before the first visit. -/
theorem faithful_start {c : ExpansionContext} {t : Tree} (h : Source t) :
    Faithful c t [t.program] { tree := t } := by
  refine ⟨.refl t, by simp, fun x hx => ?_⟩
  obtain rfl := List.mem_singleton.1 hx
  have hnone : t.ancestors t.program.note = [] := by
    refine Program.Tree.Chain.ancestors_eq (.root ?_) List.nodup_nil
    rw [h.rooted.root_eq, h.rooted.root_parent]
  refine .source .self rfl (.refl _ _ _) ⟨rfl, ?_⟩
  rw [hnone]
  exact fun j hj => absurd hj List.not_mem_nil

/-- What holds before the first visit and is kept by every visit holds, with the invariants, in every
state that a pass over a source goes through. -/
theorem tracked_faithful_and {mode : Program.Mode} {text : String} {t : Tree}
    (hparse : Program.parse mode text = .ok t) {c : ExpansionContext}
    {templates : Option (NameMap (Option String))}
    (htable : Options.buildTable templates [] = .ok c.table)
    (P : List (Ast NodeId) → Session → Prop) (hstart : P [t.program] { tree := t })
    (hvisit : ∀ {x : Ast NodeId} {ps rs : List (Ast NodeId)} {a a' : Ast NodeId}
      {session session' : Session}, Faithful c t (x :: ps) session → Tracks session.tree (x :: ps) a →
        Tracks session'.tree (rs ++ ps) a' → Visited c session x rs session' → P (x :: ps) session →
        P (rs ++ ps) session')
    {st : List NodeId × Session}
    (hrun : Relation.ReflTransGen (Iterates c) ([t.root], { tree := t }) st) :
    Tracked (fun ps session => Faithful c t ps session ∧ P ps session) st := by
  have hsource := source_parse hparse
  have htracked : Tracked (fun ps session => Faithful c t ps session ∧ P ps session)
      ([t.root], { tree := t }) :=
    ⟨[t.program], t.program, by simp [hsource.rooted.root_eq], tracks_parse hparse,
      faithful_start hsource, hstart⟩
  have hkept : Kept c fun ps session => Faithful c t ps session ∧ P ps session :=
    fun htracks htracks' hvisited h => ⟨h.1.visit hsource htracks htracks' hvisited,
      hvisit h.1 htracks htracks' hvisited h.2⟩
  exact htracked.iterates (noNative_of_buildTable htable) hkept hrun

/-- The same with the program that is visited next. -/
theorem exists_faithful_and {mode : Program.Mode} {text : String} {t : Tree}
    (hparse : Program.parse mode text = .ok t) {c : ExpansionContext}
    {templates : Option (NameMap (Option String))}
    (htable : Options.buildTable templates [] = .ok c.table)
    (P : List (Ast NodeId) → Session → Prop) (hstart : P [t.program] { tree := t })
    (hvisit : ∀ {x : Ast NodeId} {ps rs : List (Ast NodeId)} {a a' : Ast NodeId}
      {session session' : Session}, Faithful c t (x :: ps) session → Tracks session.tree (x :: ps) a →
        Tracks session'.tree (rs ++ ps) a' → Visited c session x rs session' → P (x :: ps) session →
        P (rs ++ ps) session')
    {id : NodeId} {rest : List NodeId} {session : Session}
    (hrun : Relation.ReflTransGen (Iterates c) ([t.root], { tree := t }) (id :: rest, session)) :
    ∃ (x : Ast NodeId) (ps : List (Ast NodeId)) (a : Ast NodeId), x.note = id ∧
      Tracks session.tree (x :: ps) a ∧ Faithful c t (x :: ps) session ∧ P (x :: ps) session := by
  obtain ⟨ps, a, hps, htracks, hfaithful, hP⟩ :=
    tracked_faithful_and hparse htable P hstart hvisit hrun
  match ps, hps, htracks, hfaithful, hP with
  | x :: ps, hps, htracks, hfaithful, hP =>
      exact ⟨x, ps, a, (List.cons.inj hps).1.symm, htracks, hfaithful, hP⟩

/-- The invariants hold in every state that a pass over a source goes through. -/
theorem exists_faithful {mode : Program.Mode} {text : String} {t : Tree}
    (hparse : Program.parse mode text = .ok t) {c : ExpansionContext}
    {templates : Option (NameMap (Option String))}
    (htable : Options.buildTable templates [] = .ok c.table) {id : NodeId} {rest : List NodeId}
    {session : Session}
    (hrun : Relation.ReflTransGen (Iterates c) ([t.root], { tree := t }) (id :: rest, session)) :
    ∃ (x : Ast NodeId) (ps : List (Ast NodeId)) (a : Ast NodeId), x.note = id ∧
      Tracks session.tree (x :: ps) a ∧ Faithful c t (x :: ps) session := by
  obtain ⟨x, ps, a, hnote, htracks, hfaithful, -⟩ :=
    exists_faithful_and hparse htable (fun _ _ => True) trivial (fun _ _ _ _ _ => trivial) hrun
  exact ⟨x, ps, a, hnote, htracks, hfaithful⟩

/-- A label of the source that is visited: it was not made in the pass, it is still a label, and what
is around it agrees with the source. -/
theorem Faithful.label_of_head {c : ExpansionContext} {t₀ : Tree} {session : Session}
    {x a : Ast NodeId} {ps : List (Ast NodeId)} (h : Faithful c t₀ (x :: ps) session)
    (hsource : Source t₀) (htracks : Tracks session.tree (x :: ps) a) {label : String} {b : NodeId}
    (hkind : t₀.kind x.note = .labeled label b) (hknown : c.known label = true) :
    x.note ∉ session.handled ∧ (∃ body, session.tree.kind x.note = .labeled label body) ∧
      x.note.index < t₀.size ∧ Agrees c.known t₀ session.tree x.note := by
  have hlabel : Purity.isKnownLabel c.known (t₀.kind x.note) = true := by
    rw [hkind]
    exact hknown
  have hhandled : x.note ∉ session.handled := by
    intro hmem
    rw [h.handled _ hmem] at hlabel
    exact Bool.false_ne_true hlabel
  -- A node that is done, or that no known label is in, is not this one; so it still awaits its
  -- visit, and what has become of it since is another body below the same label.
  cases h.pending x List.mem_cons_self with
  | done hdone => exact absurd hdone hhandled
  | inert hinert =>
      rw [hinert.unlabeled _ x.note_mem_notes] at hlabel
      exact absurd hlabel Bool.false_ne_true
  | @source x₀ hx₀ hnote hbecomes hagrees =>
      have hx₀held := hsource.rooted.toHeld.of_part hx₀
      have hkind' : session.tree.kind x.note = x.kind.map Ast.note :=
        (htracks.toHeld.of_part (htracks.parts x List.mem_cons_self)).holds.kind_eq
      obtain ⟨f, hx, -⟩ := hbecomes.exists_layer hhandled
      refine ⟨hhandled, ?_, hnote ▸ hx₀held.holds.note_stored, hagrees⟩
      rw [hnote, hx₀held.holds.kind_eq] at hkind
      rw [hkind', hx, Ast.kind_node]
      cases hk : x₀.kind with
      | labeled label₀ body₀ =>
          rw [hk] at hkind
          obtain ⟨rfl, -⟩ := Kind.labeled.inj hkind
          exact ⟨_, rfl⟩
      | _ => rw [hk] at hkind; cases hkind

/-- Whenever a labeled log statement of the source is visited, for any table of built-in labels and
compiled templates, it is processed with the metadata that the source has for it. Its line is that
of the label in the source, its path names all scopes around it in the source, outermost first, and
its depth counts the levels around it in the source, below the nearest scope, that are not labels
of log statements. -/
theorem metadata_of_source {text : String} {t : Tree} (hparse : Program.parse .source text = .ok t)
    {c : ExpansionContext} {templates : Option (NameMap (Option String))}
    (htable : Options.buildTable templates [] = .ok c.table) {id : NodeId} {rest : List NodeId}
    {session : Session}
    (hrun : Relation.ReflTransGen (Iterates c) ([t.root], { tree := t }) (id :: rest, session))
    {label : String} {b : NodeId} (hkind : t.kind id = .labeled label b)
    (hknown : c.known label = true) :
    ∃ (body : NodeId) (s : Synthesizer), c.table.get? label = some s ∧
      step c id session = process c id label body s session ∧
      let m := Metadata.collect session.tree id c.file c.known session.handled
      m.line = t.lineOf id ∧
      m.parentPath = ((t.ancestors id).filterMap (Metadata.scopeName? t)).reverse ∧
      m.indent = ((t.ancestors id).takeWhile fun i => !Metadata.isScope t i).countP
        fun i => Metadata.isLevel t i && !Purity.isKnownLabel c.known (t.kind i) := by
  have hsource := source_parse hparse
  obtain ⟨x, ps, a, rfl, htracks, hfaithful⟩ := exists_faithful hparse htable hrun
  obtain ⟨hhandled, ⟨body, hbody⟩, hstored, hagrees⟩ :=
    hfaithful.label_of_head hsource htracks hkind hknown
  obtain ⟨s, hs⟩ := Option.isSome_iff_exists.1 hknown
  refine ⟨body, s, hs, step_label hhandled hbody hs, hfaithful.grows.lineOf_eq hstored, ?_,
    hagrees.indent_eq⟩
  exact congrArg List.reverse hagrees.path_eq

/-- The depth of a label that is visited when the label around it is gone. -/
theorem metadata_of_source_nested :
    ∃ (t : Tree) (id : NodeId) (session : Session), Program.parse .source "debug:info:a" = .ok t ∧
      Relation.ReflTransGen (Iterates plainContext) ([t.root], { tree := t }) ([id], session) ∧
      (session.tree.ancestors id).length < (t.ancestors id).length ∧
      (Metadata.collect session.tree id ⟨"a.js", "/a.js"⟩ plainContext.known session.handled).indent
        = ((t.ancestors id).takeWhile fun i => !Metadata.isScope t i).countP
          fun i => Metadata.isLevel t i && !Purity.isKnownLabel plainContext.known (t.kind i) := by
  have hseen : ((Program.parse .source "debug:info:a").toOption.bind fun t =>
      (stateAfter plainContext 2 ([t.root], { tree := t })).map fun st =>
        st.1.map fun id => (Purity.isKnownLabel plainContext.known (t.kind id),
          (st.2.tree.ancestors id).length, (t.ancestors id).length))
      = some [(true, 1, 2)] := by decide +kernel
  obtain ⟨t, hparse, hseen⟩ := Option.bind_eq_some_iff.1 hseen
  obtain ⟨⟨pending, session⟩, hstate, hseen⟩ := Option.map_eq_some_iff.1 hseen
  obtain ⟨id, rfl, hid⟩ := List.map_eq_singleton_iff.1 hseen
  obtain ⟨hlabel, hnow, hsource⟩ : _ ∧ _ ∧ _ := by simpa only [Prod.mk.injEq] using hid
  have hrun := iterates_of_stateAfter hstate
  have hparse := eq_ok_of_toOption hparse
  refine ⟨t, id, session, hparse, hrun, by omega, ?_⟩
  cases hkind : t.kind id with
  | labeled label b =>
      rw [hkind] at hlabel
      have htable : Options.buildTable none [] = .ok plainContext.table := rfl
      obtain ⟨body, s, -, -, -, -, hindent⟩ := metadata_of_source hparse htable hrun hkind hlabel
      exact hindent
  | _ => rw [hkind] at hlabel; cases hlabel

end Expansion

end LogLabel
