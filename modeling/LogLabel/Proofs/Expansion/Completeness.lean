import LogLabel.Proofs.Expansion.Termination
import LogLabel.Proofs.Program.Reading

set_option autoImplicit false

/-!
# Nothing is left to expand

One pass over a source expands every label of a log statement that it can reach, and leaves
no template slot. The pass never looks at a statement again that it has made, so this needs
templates without labels of the table.

* `Ast.Settled known a`: no part of `a` is a label of a log statement or a template slot.
* `LabelTable.Plain`: no template of a table has a statement labeled with a name of the table.
  With such a table all made statements are settled (`Expansion.Made.settled`).
* `Expansion.Complete`: the invariant of the pass. Every label that is left in the program is in
  a program to visit, and there is none in a statement that was made.
* `Expansion.pass_settles`: when the pass succeeds, nothing is left, and a second pass over the
  same tree changes nothing.
-/

namespace LogLabel

open Program (Ast Draft Kind NodeId Span Tree)

/-! ## Settled programs -/

namespace Program.Kind

variable {α : Type}

theorem isPlaceholder_outline (k : Kind α) : k.outline.isPlaceholder = k.isPlaceholder := by
  cases k <;> rfl

end Program.Kind

/-- No part of a program is a template slot. -/
def Program.Ast.Slotless {ι : Type} (a : Ast ι) : Prop :=
  ∀ d : Ast ι, d.Part a → d.kind.isPlaceholder = false

namespace Program.Ast.Slotless

variable {ι κ : Type} {a b : Ast ι}

theorem part (h : a.Slotless) (hb : b.Part a) : b.Slotless := fun d hd => h d (hd.trans hb)

theorem node_iff {i : ι} {k : Kind (Ast ι)} :
    (Ast.node i k).Slotless ↔ k.isPlaceholder = false ∧ ∀ c ∈ k.children, c.Slotless := by
  constructor
  · intro h
    exact ⟨h _ .self, fun c hc => h.part (.of_mem hc)⟩
  · rintro ⟨hk, hparts⟩ d hd
    cases hd with
    | self => exact hk
    | inside hc hd => exact hparts _ hc d hd

theorem mapNotes_iff (f : ι → κ) (a : Ast ι) : (a.mapNotes f).Slotless ↔ a.Slotless := by
  induction a using Ast.induction with
  | node i k ih =>
      rw [Ast.mapNotes_node, node_iff, node_iff, Kind.isPlaceholder_map, Kind.children_map,
        List.forall_mem_map]
      exact and_congr_right fun _ => forall₂_congr ih

end Program.Ast.Slotless

/-- No part of a program is a label of a log statement or a template slot. -/
structure Program.Ast.Settled {ι : Type} (known : String → Bool) (a : Ast ι) : Prop where
  plain : a.Plain known
  slotless : a.Slotless

namespace Program.Ast.Settled

variable {ι κ : Type} {known : String → Bool} {a b : Ast ι}

theorem part (h : a.Settled known) (hb : b.Part a) : b.Settled known :=
  ⟨h.plain.part hb, h.slotless.part hb⟩

theorem node_iff {i : ι} {k : Kind (Ast ι)} :
    (Ast.node i k).Settled known ↔ (Purity.isKnownLabel known k = false ∧ k.isPlaceholder = false) ∧
      ∀ c ∈ k.children, c.Settled known := by
  constructor
  · intro h
    exact ⟨⟨h.plain _ .self, h.slotless _ .self⟩, fun c hc => h.part (.of_mem hc)⟩
  · rintro ⟨⟨hlabel, hslot⟩, hparts⟩
    exact ⟨Plain.node_iff.2 ⟨hlabel, fun c hc => (hparts c hc).plain⟩,
      Slotless.node_iff.2 ⟨hslot, fun c hc => (hparts c hc).slotless⟩⟩

theorem mapNotes_iff (f : ι → κ) (a : Ast ι) : (a.mapNotes f).Settled known ↔ a.Settled known := by
  constructor
  · intro h
    exact ⟨(Plain.mapNotes_iff f a).1 h.plain, (Slotless.mapNotes_iff f a).1 h.slotless⟩
  · intro h
    exact ⟨(Plain.mapNotes_iff f a).2 h.plain, (Slotless.mapNotes_iff f a).2 h.slotless⟩

end Program.Ast.Settled

/-- Where a part of a program stands in which some parts were replaced: it is in what was put in, or it
is a part of the program with replaced parts, below the same nodes. -/
theorem Program.Ast.at_subst {f : NodeId → Option (Ast NodeId)} {d : Ast NodeId} (a : Ast NodeId) :
    ∀ {bs : List (Ast NodeId)}, d.At (a.subst f) bs → (∃ j m, f j = some m ∧ d.Part m) ∨
      ∃ (d₀ : Ast NodeId) (bs₀ : List (Ast NodeId)), d₀.At a bs₀ ∧ bs.map note = bs₀.map note ∧
        d = d₀.subst f ∧ d = .node d₀.note (d₀.kind.map (subst f)) := by
  induction a using Ast.induction with
  | node i k ih =>
      intro bs h
      have hsubst := subst_node f i k
      cases hf : f i with
      | some m =>
          rw [hf] at hsubst
          rw [hsubst] at h
          exact Or.inl ⟨i, m, hf, h.part⟩
      | none =>
          rw [hf, Option.getD_none] at hsubst
          rw [hsubst] at h
          cases h with
          | here => exact Or.inr ⟨.node i k, [], .here, rfl, hsubst.symm, rfl⟩
          | inside hc hd =>
              rw [kind_node, Kind.children_map, List.mem_map] at hc
              obtain ⟨c, hc, rfl⟩ := hc
              rcases ih c hc hd with hmade | ⟨d₀, bs₀, hd₀, hbs, hkept⟩
              · exact Or.inl hmade
              · refine Or.inr ⟨d₀, _, .inside hc hd₀, ?_, hkept⟩
                rw [List.map_append, List.map_append, hbs]
                rfl

/-- A part of a program in which some parts were replaced: it is in what was put in, or it stands at
the address of a part of the program and is that part with replaced parts. -/
theorem Program.Ast.part_subst {f : NodeId → Option (Ast NodeId)} {d : Ast NodeId} (a : Ast NodeId)
    (h : d.Part (a.subst f)) : (∃ j m, f j = some m ∧ d.Part m) ∨
      ∃ d₀ : Ast NodeId, d₀.Part a ∧ d = d₀.subst f ∧ d = .node d₀.note (d₀.kind.map (subst f)) := by
  obtain ⟨bs, hbs⟩ := h.exists_at
  exact (at_subst a hbs).imp_right fun ⟨d₀, _, hd₀, _, hkept⟩ => ⟨d₀, hd₀.part, hkept⟩

/-- Putting plain programs into a plain one. -/
theorem Program.Ast.Plain.subst {known : String → Bool} {f : NodeId → Option (Ast NodeId)}
    {a : Ast NodeId} (h : a.Plain known) (hf : ∀ j m, f j = some m → m.Plain known) :
    (a.subst f).Plain known := by
  intro d hd
  rcases Ast.part_subst a hd with ⟨j, m, hm, hd⟩ | ⟨d₀, hd₀, -, rfl⟩
  · exact hf j m hm d hd
  · rw [Ast.kind_node, Expansion.isKnownLabel_map]
    exact h d₀ hd₀

/-! ## Settled statements of synthesizers -/

namespace Template

variable {known : String → Bool} {v : Values} {s : Span}

theorem SameForm.isPlaceholder_eq {α β : Type} {k : Kind α} {k' : Kind β} (h : SameForm k k') :
    k'.isPlaceholder = k.isPlaceholder := by
  cases h with
  | mapped f => exact Kind.isPlaceholder_map f k
  | _ => rfl

theorem slotValue_settled (hcontent : ∀ x ∈ v.content, x.Settled known)
    (hmetadata : v.metadata.Settled known) (name : String) : (slotValue v s name).Settled known := by
  unfold slotValue
  split
  · exact Ast.Settled.node_iff.2 ⟨⟨rfl, rfl⟩, by simp [Kind.children]⟩
  · exact hmetadata
  · exact Ast.Settled.node_iff.2 ⟨⟨rfl, rfl⟩, hcontent⟩
  · exact Ast.Settled.node_iff.2 ⟨⟨rfl, rfl⟩, by simp [Kind.children]⟩

/-- No slot of a template is left when it is filled. -/
theorem filled_settled (hcontent : ∀ x ∈ v.content, x.Settled known)
    (hmetadata : v.metadata.Settled known) {a : Ast Span} :
    a.Plain known → (filled v s a).Settled known := by
  induction a using Ast.induction with
  | node i k ih =>
      intro h
      obtain ⟨hk, hparts⟩ := Ast.Plain.node_iff.1 h
      cases hslot : k.isPlaceholder with
      | true =>
          cases k with
          | placeholder name => exact slotValue_settled hcontent hmetadata name
          | _ => cases hslot
      | false =>
          obtain ⟨k', heq, hform, hchildren⟩ := exists_of_filled (v := v) (s := s) (i := i) (k := k)
            (by rintro name rfl; cases hslot)
          rw [heq, Ast.Settled.node_iff, hform.isKnownLabel_eq, hform.isPlaceholder_eq]
          refine ⟨⟨hk, hslot⟩, fun c hc => ?_⟩
          rcases hchildren c hc with hc | ⟨d, hd, rfl⟩
          · exact hcontent c hc
          · exact ih d hd (hparts d hd)

/-- What is filled of a template is a part of its statement. -/
theorem body_part (form : Template) : form.body.Part form.statement := by
  unfold body
  split
  · next e he =>
      refine .of_mem ?_
      rw [he]
      exact List.mem_singleton.2 rfl
  · exact .self

end Template

/-- A synthesizer whose template, if it is one, has no statement labeled with a known name. -/
def Synthesizer.Plain (known : String → Bool) : Synthesizer → Prop
  | .template form => form.statement.Plain known
  | _ => True

/-- No template of a table has a statement labeled with a name of the table. -/
def LabelTable.Plain (table : LabelTable) : Prop := table.Only (Synthesizer.Plain table.contains)

instance (known : String → Bool) : DecidablePred (Synthesizer.Plain known)
  | .template form => inferInstanceAs (Decidable (form.statement.Plain known))
  | .builtin _ _ => .isTrue trivial
  | .native _ => .isTrue trivial

instance (table : LabelTable) : Decidable table.Plain :=
  inferInstanceAs (Decidable (∀ entry ∈ table.entries, Synthesizer.Plain table.contains entry.2))

theorem LabelTable.Plain.tame {table : LabelTable} (h : table.Plain) : table.Tame := by
  refine h.imp fun s hs => ?_
  cases s with
  | template form => exact fun _ => Ast.Plain.part hs form.body_part
  | builtin level values => trivial
  | native make => trivial

/-- Without templates and native synthesizers the table is the one of the built-in labels. -/
theorem Options.buildTable_none : buildTable none [] = .ok LabelTable.defaults := by
  rw [buildTable, Except.map, addNatives, List.foldl_nil]

/-- The table of the built-in labels has no templates. -/
theorem LabelTable.defaults_plain : LabelTable.defaults.Plain := by
  refine LabelTable.defaults_builtin.imp ?_
  rintro s ⟨level, values, rfl⟩
  trivial

namespace Synthesizer

variable {known : String → Bool}

theorem recordOf_settled (m : Metadata) (s : Span) : (recordOf m s).Settled known := by
  simp [recordOf, Program.Tree.recordEntry, Ast.Settled.node_iff, Kind.children, Program.Key.children,
    Purity.isKnownLabel, Kind.isPlaceholder]

theorem callAt_settled {level : Level} {values : Bool} {logFunction : String} {m : Metadata}
    {content : List (Ast Span)} {s : Span} (h : ∀ x ∈ content, x.Settled known) :
    (callAt level values logFunction m content s).Settled known := by
  simpa [callAt, builtinCall, Program.Tree.recordEntry, Ast.Settled.node_iff, Kind.children,
    Program.Key.children, Purity.isKnownLabel, Kind.isPlaceholder] using h

/-- What a synthesizer of a plain table writes for settled expressions is settled. -/
theorem written_settled {s : Synthesizer} (hs : s.Plain known) {logFunction : String} {m : Metadata}
    {content : List (Ast Span)} {span : Span} {y : Ast Span}
    (hcontent : ∀ x ∈ content, x.Settled known)
    (hy : s.written logFunction m content span = some y) : y.Settled known := by
  cases s with
  | builtin level values =>
      obtain rfl := Option.some.inj hy
      exact callAt_settled hcontent
  | template form =>
      obtain rfl := Option.some.inj hy
      exact Template.filled_settled hcontent (recordOf_settled m span) (hs.part form.body_part)
  | native make => cases hy

end Synthesizer

/-- A made statement is settled if the logged expression is. -/
theorem Expansion.Made.settled {c : ExpansionContext} {s : Synthesizer} {m : Metadata} {t t' : Tree}
    {e made x : Ast NodeId} (h : Made c s m t t' e made) (hs : s.Plain c.known)
    (hx : e.kind = .expression x) (hsettled : x.Settled c.known) : made.Settled c.known := by
  obtain ⟨y, hy, hspans, -⟩ := h.written x hx
  have hcontent : ∀ d ∈ (x.mapNotes t.span).logged, d.Settled c.known := fun d hd =>
    ((Ast.Settled.mapNotes_iff t.span x).2 hsettled).part (Ast.logged_part hd)
  have hwritten := Synthesizer.written_settled hs hcontent hy
  rw [← Ast.Settled.mapNotes_iff t'.span, hspans]
  unfold Ast.asStatement
  split
  · exact hwritten
  · exact Ast.Settled.node_iff.2 ⟨⟨rfl, rfl⟩, by simpa [Kind.children] using hwritten⟩

/-! ## Sources without slots -/

namespace Program.Ast.Slotless

/-- Joining operands along a tree of operators makes no slot. -/
theorem join (g : Program.Grouping (Ast Span)) (h : ∀ a ∈ g.leaves, a.Slotless) :
    (g.fold Draft.join).Slotless := by
  induction g with
  | leaf a => exact h a (List.mem_singleton.2 rfl)
  | branch op l r ihl ihr =>
      rw [Program.Grouping.fold, Draft.join, node_iff]
      have hl := ihl fun a ha => h a (List.mem_append_left _ ha)
      have hr := ihr fun a ha => h a (List.mem_append_right _ ha)
      exact ⟨rfl, by simpa [Kind.children] using ⟨hl, hr⟩⟩

/-- A draft without listed slots has none in its program. -/
theorem of_placeholders (d : Draft) : d.placeholders = [] → d.resolve.Slotless := by
  induction d using Draft.induction with
  | node s k ih =>
      intro h
      rw [Draft.placeholders_node] at h
      split at h
      · cases h
      · next hslot =>
          rw [List.flatMap_eq_nil_iff] at h
          rw [Draft.resolve_node, node_iff, Kind.isPlaceholder_map, Kind.children_map,
            List.forall_mem_map]
          exact ⟨Bool.eq_false_of_not_eq_true hslot, fun c hc => ih c hc (h c hc)⟩
  | chain s first rest ihfirst ihrest =>
      intro h
      rw [Draft.placeholders_chain, List.flatMap_eq_nil_iff, List.forall_mem_cons,
        List.forall_mem_map] at h
      rw [Draft.resolve_chain]
      refine join _ fun a ha => ?_
      have hmem := Program.Grouping.leaves_ofChain_subset _ _ ha
      rw [List.map_map] at hmem
      rcases List.mem_cons.1 hmem with rfl | hmem
      · exact ihfirst h.1
      · obtain ⟨link, hlink, rfl⟩ := List.mem_map.1 hmem
        exact ihrest link hlink (h.2 link hlink)

/-- A source has no template slots. -/
theorem of_parse {text : String} {t : Tree} (h : Program.parse .source text = .ok t) :
    t.program.Slotless := by
  obtain ⟨body, a, hdrafts, hrooted, hspans⟩ := Program.parse_rooted h
  have hnone := Program.placeholders_of_draftsIn hdrafts
  rw [hrooted.program_eq, ← mapNotes_iff t.span, hspans, node_iff]
  refine ⟨rfl, fun c hc => ?_⟩
  obtain ⟨d, hd, rfl⟩ := List.mem_map.1 hc
  exact of_placeholders d (List.flatMap_eq_nil_iff.1 hnone d hd)

end Program.Ast.Slotless

namespace Expansion

open Program.Tree (Held Rooted Apart Leaves)

/-! ## The invariant of the pass -/

/-- What is left of labels and slots: no node of the program is a slot, a label of a log statement is in
a program to visit, and there is none in a statement that was made. -/
structure Complete (c : ExpansionContext) (ps : List (Ast NodeId)) (session : Session) : Prop where
  slots : ∀ i ∈ session.tree.program.notes, (session.tree.kind i).isPlaceholder = false
  labels : ∀ i ∈ session.tree.program.notes,
    Purity.isKnownLabel c.known (session.tree.kind i) = true → ∃ x ∈ ps, i ∈ x.notes
  made : ∀ x ∈ ps, ∀ d : Ast NodeId, d.Part x → d.note ∈ session.handled → d.Plain c.known

section Invariant

variable {c : ExpansionContext} {t₀ : Tree} {session session' : Session} {ps rs : List (Ast NodeId)}
  {a a' x : Ast NodeId}

/-- The node of a part of a held program. -/
theorem kind_of_part {t : Tree} {d : Ast NodeId} (h : t.Rooted a) (hd : d.Part a) :
    d.note ∈ t.program.notes ∧ t.kind d.note = d.kind.map Ast.note := by
  rw [h.program_eq]
  exact ⟨hd.notes_subset d.note_mem_notes, (h.toHeld.of_part hd).holds.kind_eq⟩

/-- The layers of a part of the program. -/
theorem Complete.isPlaceholder_part (h : Complete c ps session) (ht : session.tree.Rooted a)
    {d : Ast NodeId} (hd : d.Part a) : d.kind.isPlaceholder = false := by
  obtain ⟨hmem, hkind⟩ := kind_of_part ht hd
  have hslot := h.slots _ hmem
  rwa [hkind, Kind.isPlaceholder_map] at hslot

/-- A node outside of an edited program is as it was, apart from its parts. -/
theorem same_of_apart (h : Complete c (x :: ps) session) (ht : session.tree.Rooted a)
    (hapart : Apart session.tree session'.tree x) {i : NodeId} (hi : i ∈ session.tree.program.notes)
    (hix : i ∉ x.notes) :
    (session'.tree.kind i).isPlaceholder = false ∧
      (Purity.isKnownLabel c.known (session'.tree.kind i) = true → ∃ y ∈ ps, i ∈ y.notes) := by
  have hstored : i.index < session.tree.size := by
    rw [ht.program_eq] at hi
    exact ht.holds.stored i hi
  have houtline := hapart.outline_eq i hstored hix
  constructor
  · rw [← Kind.isPlaceholder_outline, houtline, Kind.isPlaceholder_outline]
    exact h.slots i hi
  · intro hlabel
    rw [← isKnownLabel_outline, houtline, isKnownLabel_outline] at hlabel
    obtain ⟨y, hy, hiy⟩ := h.labels i hi hlabel
    rcases List.mem_cons.1 hy with rfl | hy
    · exact absurd hiy hix
    · exact ⟨y, hy, hiy⟩

/-- After an edit: what stands in the place of the edited program decides what is left. -/
theorem Complete.of_leaves (h : Complete c (x :: ps) session) (ht : session.tree.Rooted a)
    (hapart : Apart session.tree session'.tree x) (hleaves : session.tree.Leaves session'.tree x rs)
    (hrs : ∀ i ∈ rs.flatMap Ast.notes, (session'.tree.kind i).isPlaceholder = false)
    (hmade : ∀ y ∈ rs ++ ps, ∀ d : Ast NodeId, d.Part y → d.note ∈ session'.handled →
      d.Plain c.known) :
    Complete c (rs ++ ps) session' := by
  -- A block or an empty statement may stand in for what is gone; neither is a label or a slot.
  have hstand : ∀ i, (session'.tree.kind i).isBlock = true ∨ session'.tree.kind i = .empty →
      (session'.tree.kind i).isPlaceholder = false ∧
        Purity.isKnownLabel c.known (session'.tree.kind i) = false := by
    intro i hi
    cases hk : session'.tree.kind i with
    | block ss => exact ⟨rfl, rfl⟩
    | empty => exact ⟨rfl, rfl⟩
    | _ => simp [hk, Kind.isBlock] at hi
  refine ⟨fun i hi => ?_, fun i hi hlabel => ?_, hmade⟩
  · rcases hleaves i hi with hi | ⟨hi, hix⟩ | hi
    · exact hrs i hi
    · exact (same_of_apart h ht hapart hi hix).1
    · exact (hstand i hi.2).1
  · rcases hleaves i hi with hi | ⟨hi, hix⟩ | hi
    · obtain ⟨r, hr, hi⟩ := List.mem_flatMap.1 hi
      exact ⟨r, List.mem_append_left _ hr, hi⟩
    · obtain ⟨y, hy, hiy⟩ := (same_of_apart h ht hapart hi hix).2 hlabel
      exact ⟨y, List.mem_append_right _ hy, hiy⟩
    · rw [(hstand i hi.2).2] at hlabel
      cases hlabel

section Expanded

variable {p : NodeId} {label : String} {body e : Ast NodeId} {s : Synthesizer} {m : Metadata}
  {pairs : List (Ast NodeId × Ast NodeId)}

/-- The statements that a label expands are in the label, and log settled expressions. -/
theorem Complete.logged (h : Complete c (.node p (.labeled label body) :: ps) session)
    (hsource : Source t₀) (hplain : c.table.Plain)
    (hfaithful : Faithful c t₀ (.node p (.labeled label body) :: ps) session)
    (htracks : Tracks session.tree (.node p (.labeled label body) :: ps) a)
    (hhandled : p ∉ session.handled) (hs : c.table.get? label = some s)
    (hpure : Purity.violations c.known body = [])
    (he : e ∈ bodyRegion c.known session.handled body) :
    e.Part (.node p (.labeled label body)) ∧ ∃ y, e.kind = .expression y ∧ y.Settled c.known := by
  have hpart := (bodyRegion_part he).1
  obtain ⟨body₀, hlabel, hbecomes⟩ := (hfaithful.pending _ List.mem_cons_self).label_of_source
    hplain.tame hhandled hs
  obtain ⟨-, y, hy, hyplain⟩ := logged_of_source hsource hlabel hbecomes hpure he
  have hye : y.Part e := .of_mem (by rw [hy]; exact List.mem_singleton.2 rfl)
  have hbody := Ast.part_of_labeled (htracks.parts _ List.mem_cons_self)
  exact ⟨.inside (List.mem_singleton.2 rfl) hpart, y, hy, hyplain, fun d hd =>
    h.isPlaceholder_part htracks.toRooted (hd.trans (hye.trans (hpart.trans hbody)))⟩

/-- A part of the program that is marked as made after the expansion either was before, or it is a part
of a logged expression. -/
theorem handled_of_made (htracks : Tracks session.tree (x :: ps) a)
    (hlogged : ∀ pair ∈ pairs, pair.1.Part x ∧ ∃ y, pair.1.kind = .expression y ∧ y.Settled c.known)
    (hmade : ∀ pair ∈ pairs, Made c s m session.tree session'.tree pair.1 pair.2)
    (hnew : session'.handled = (pairs.map fun pair => pair.2.note).reverse ++ session.handled)
    {d : Ast NodeId} (hd : d.Part a) (hmem : d.note ∈ session'.handled) :
    d.note ∈ session.handled ∨ d.note ∈ x.notes ∧ d.Plain c.known := by
  have hheld := htracks.toHeld
  rw [hnew, List.mem_append, List.mem_reverse, List.mem_map] at hmem
  rcases hmem with ⟨pair, hpair, hnote⟩ | hmem
  · obtain ⟨hpart, y, hy, hsettled⟩ := hlogged pair hpair
    have hye : y.Part pair.1 := .of_mem (by rw [hy]; exact List.mem_singleton.2 rfl)
    -- The node of a made statement is one of the logged expression, which is settled, or a new one,
    -- which is not in the program yet.
    rcases (hmade pair hpair).origin _ (Ast.note_mem_notes _) with hinner | hge
    · refine Or.inr ⟨hpart.notes_subset (hnote ▸ Ast.mem_notes_of_inner hinner), ?_⟩
      rw [Ast.inner, hy, Kind.children, List.flatMap_singleton] at hinner
      obtain ⟨b, hb, hbnote⟩ := Ast.Part.exists_of_mem hinner
      have hba : b.Part a :=
        (hb.trans hye).trans (hpart.trans (htracks.parts x List.mem_cons_self))
      obtain rfl : b = d := hheld.part_unique hba hd (hbnote.trans hnote)
      exact hsettled.plain.part hb
    · rw [hnote] at hge
      exact absurd (hheld.of_part hd).holds.note_stored (Nat.not_lt.2 hge)
  · exact Or.inl hmem

/-- The parts of what takes the place of an expanded label are parts of made statements, or parts of the
body with replaced parts. -/
theorem part_unwrapped {r d : Ast NodeId} {f : NodeId → Option (Ast NodeId)}
    (hr : r ∈ (body.subst f).unwrapped) (hd : d.Part r) :
    (∃ j made, f j = some made ∧ d.Part made) ∨
      ∃ d₀ : Ast NodeId, d₀.Part (.node p (.labeled label body)) ∧ d = d₀.subst f ∧
        d = .node d₀.note (d₀.kind.map (Ast.subst f)) := by
  rcases Ast.part_subst body (hd.trans (Ast.unwrapped_part hr)) with hmade | ⟨d₀, hd₀, hkept⟩
  · exact Or.inl hmade
  · exact Or.inr ⟨d₀, .inside (List.mem_singleton.2 rfl) hd₀, hkept⟩

end Expanded

/-- One visit keeps the invariant. -/
theorem Complete.visit (hsource : Source t₀) (hplain : c.table.Plain)
    (hfaithful : Faithful c t₀ (x :: ps) session) (h : Complete c (x :: ps) session)
    (htracks : Tracks session.tree (x :: ps) a) (htracks' : Tracks session'.tree (rs ++ ps) a')
    (hvisited : Visited c session x rs session') : Complete c (rs ++ ps) session' := by
  have hx := htracks.parts x List.mem_cons_self
  have hrooted := htracks.toRooted
  cases hvisited with
  | passed hhandled =>
      -- There is no label in a statement that was made, so none is lost.
      refine ⟨h.slots, fun i hi hlabel => ?_, fun y hy => h.made y (List.mem_cons_of_mem _ hy)⟩
      obtain ⟨y, hy, hiy⟩ := h.labels i hi hlabel
      rcases List.mem_cons.1 hy with rfl | hy
      · obtain ⟨d, hd, rfl⟩ := Ast.Part.exists_of_mem hiy
        rw [(kind_of_part hrooted (hd.trans hx)).2, isKnownLabel_map,
          h.made y List.mem_cons_self y .self hhandled d hd] at hlabel
        cases hlabel
      · exact ⟨y, hy, hiy⟩
  | entered hhandled hlabel =>
      -- The node is no label itself, and each of its parts is visited next.
      refine ⟨h.slots, fun i hi hknown => ?_, fun y hy d hd => ?_⟩
      · obtain ⟨y, hy, hiy⟩ := h.labels i hi hknown
        rcases List.mem_cons.1 hy with rfl | hy
        · rw [Ast.notes_eq, List.mem_cons, List.mem_flatMap] at hiy
          rcases hiy with rfl | ⟨r, hr, hir⟩
          · rw [(kind_of_part hrooted hx).2, isKnownLabel_map, hlabel] at hknown
            cases hknown
          · exact ⟨r, List.mem_append_left _ hr, hir⟩
        · exact ⟨y, List.mem_append_right _ hy, hiy⟩
      · rcases List.mem_append.1 hy with hy | hy
        · exact h.made x List.mem_cons_self d (.inside hy hd)
        · exact h.made y (List.mem_cons_of_mem _ hy) d hd
  | stripped hhandled hknown hstrip hsame hapart hleaves =>
      -- All labels in the body go with it, and no statement is made.
      refine h.of_leaves hrooted hapart hleaves (by simp) fun y hy d hd hmem => ?_
      rw [hsame] at hmem
      exact h.made y (List.mem_cons_of_mem _ hy) d hd hmem
  | @expanded p label body s pairs _ hhandled hs hstrip hpure hpairs hmade hnew hapart hplaced hleaves =>
      have hlogged : ∀ pair ∈ pairs, pair.1.Part (.node p (.labeled label body)) ∧
          ∃ y, pair.1.kind = .expression y ∧ y.Settled c.known := by
        intro pair hpair
        refine h.logged hsource hplain hfaithful htracks hhandled hs hpure ?_
        rw [← hpairs]
        exact List.mem_map.2 ⟨pair, hpair, rfl⟩
      have hsettled : ∀ j made, Ast.replacement pairs j = some made → made.Settled c.known := by
        intro j made hm
        obtain ⟨pair, hpair, -, rfl⟩ := Ast.mem_of_replacement hm
        obtain ⟨-, y, hy, hysettled⟩ := hlogged pair hpair
        exact (hmade pair hpair).settled (hplain.get? hs) hy hysettled
      -- A statement in the rest of the body is not marked, unless it was before or was logged.
      have hmarked := fun d (hd : d.Part a) hmem =>
        handled_of_made (d := d) htracks hlogged hmade hnew hd hmem
      refine h.of_leaves hrooted hapart hleaves (fun i hi => ?_) fun y hy d hd hmem => ?_
      · obtain ⟨r, hr, hi⟩ := List.mem_flatMap.1 hi
        obtain ⟨d, hd, rfl⟩ := Ast.Part.exists_of_mem hi
        have hra := htracks'.parts r (List.mem_append_left _ hr)
        rw [(kind_of_part htracks'.toRooted (hd.trans hra)).2, Kind.isPlaceholder_map]
        rcases part_unwrapped hr hd with ⟨j, made, hm, hd⟩ | ⟨d₀, hd₀, -, rfl⟩
        · exact (hsettled j made hm).slotless d hd
        · rw [Ast.kind_node, Kind.isPlaceholder_map]
          exact h.isPlaceholder_part hrooted (hd₀.trans hx)
      · rcases List.mem_append.1 hy with hy | hy
        · rcases part_unwrapped hy hd with ⟨j, made, hm, hd⟩ | ⟨d₀, hd₀, heq, hnode⟩
          · exact (hsettled j made hm).plain.part hd
          · rw [heq]
            refine Ast.Plain.subst ?_ fun j made hm => (hsettled j made hm).plain
            rw [hnode, Ast.note_node] at hmem
            rcases hmarked d₀ (hd₀.trans hx) hmem with hmem | ⟨-, hd₀plain⟩
            · exact h.made _ List.mem_cons_self d₀ hd₀ hmem
            · exact hd₀plain
        · have hya := htracks.parts y (List.mem_cons_of_mem _ hy)
          rcases hmarked d (hd.trans hya) hmem with hmem | ⟨hinside, -⟩
          · exact h.made y (List.mem_cons_of_mem _ hy) d hd hmem
          · exact absurd hinside (htracks.apart_head hy (hd.notes_subset d.note_mem_notes))

end Invariant

/-! ## After the pass -/

section Passes

variable {c : ExpansionContext}

/-- A loop that succeeds has visited all nodes. -/
theorem iterates_of_loop {fuel : Nat} {pending : List NodeId} {session session' : Session}
    (h : loop c fuel pending session = .ok session') :
    Relation.ReflTransGen (Iterates c) (pending, session) ([], session') := by
  induction fuel generalizing pending session with
  | zero =>
      cases pending with
      | nil =>
          obtain rfl := Except.ok.inj h
          exact .refl
      | cons id pending => cases h
  | succ fuel ih =>
      cases pending with
      | nil =>
          obtain rfl := Except.ok.inj h
          exact .refl
      | cons id pending =>
          rw [loop] at h
          cases hvisit : step c id session with
          | error e => rw [hvisit] at h; cases h
          | ok next =>
              rw [hvisit] at h
              exact .head (.visit hvisit) (ih h)

/-- So has a pass that succeeds. -/
theorem iterates_of_run {t : Tree} {session : Session} (h : run c t = .ok session) :
    Relation.ReflTransGen (Iterates c) ([t.root], { tree := t }) ([], session) := by
  obtain ⟨fuel, hloop⟩ := run_eq_ok_iff.1 h
  exact iterates_of_loop hloop

/-- A pass over a program without labels of log statements visits every node once and changes
nothing. -/
theorem loop_of_no_label {t : Tree} {a : Ast NodeId}
    (hlabels : ∀ i ∈ t.program.notes, Purity.isKnownLabel c.known (t.kind i) = false) (fuel : Nat) :
    ∀ ps : List (Ast NodeId), Tracks t ps a → (ps.flatMap Ast.notes).length ≤ fuel →
      loop c fuel (ps.map Ast.note) { tree := t } = .ok { tree := t } := by
  induction fuel with
  | zero =>
      intro ps _ hle
      cases ps with
      | nil => rfl
      | cons x ps =>
          rw [List.flatMap_cons, Ast.notes_eq, List.cons_append, List.length_cons] at hle
          omega
  | succ fuel ih =>
      intro ps htracks hle
      cases ps with
      | nil => rfl
      | cons x ps =>
          have hx := htracks.parts x List.mem_cons_self
          obtain ⟨hmem, hkind⟩ := kind_of_part htracks.toRooted hx
          have hstep : step c x.note { tree := t }
              = .ok (x.kind.children.map Ast.note, { tree := t }) := by
            rw [step_other List.not_mem_nil (hlabels _ hmem), hkind, Kind.children_map]
          have hnodup := (htracks.toHeld.of_part hx).nodup
          rw [Ast.notes_eq, List.nodup_cons] at hnodup
          rw [List.map_cons, loop, hstep]
          simp only
          rw [← List.map_append]
          refine ih _ (htracks.descend (fun r hr => .of_mem hr) hnodup.2) ?_
          rw [List.flatMap_cons, Ast.notes_eq, List.cons_append, List.length_cons] at hle
          rw [List.flatMap_append]
          omega

end Passes

/-- Before the pass over a source the whole program is to visit, and nothing was made. -/
theorem complete_start {text : String} {t : Tree} (hparse : Program.parse .source text = .ok t)
    {c : ExpansionContext} : Complete c [t.program] { tree := t } := by
  refine ⟨fun i hi => ?_, fun i hi _ => ⟨t.program, List.mem_singleton.2 rfl, hi⟩,
    fun x _ d _ hmem => absurd hmem List.not_mem_nil⟩
  obtain ⟨d, hd, rfl⟩ := Ast.Part.exists_of_mem hi
  rw [(kind_of_part (tracks_parse hparse).toRooted hd).2, Kind.isPlaceholder_map]
  exact Ast.Slotless.of_parse hparse d hd

/-- When no template has a statement labeled with a name of the table, a pass over a source that
succeeds, under any bound on its visits, leaves no label of a log statement and no template slot in the
program. So a second pass over the tree finds no label and changes nothing. -/
theorem pass_settles {text : String} {t : Tree} (hparse : Program.parse .source text = .ok t)
    {c : ExpansionContext} {templates : Option (NameMap (Option String))}
    (htable : Options.buildTable templates [] = .ok c.table) (hplain : c.table.Plain) {fuel : Nat}
    {session : Session} (hloop : loop c fuel [t.root] { tree := t } = .ok session) :
    (∀ i, session.tree.Reachable i →
      Purity.isKnownLabel c.known (session.tree.kind i) = false ∧
        (session.tree.kind i).isPlaceholder = false) ∧
    run c session.tree = .ok { tree := session.tree } := by
  have hsource := source_parse hparse
  have htracks := tracks_parse hparse
  have hkept : Kept c fun ps session => Faithful c t ps session ∧ Complete c ps session :=
    fun htracks htracks' hvisited h =>
      ⟨h.1.visit hsource htracks htracks' hvisited,
        h.2.visit hsource hplain h.1 htracks htracks' hvisited⟩
  have htracked : Tracked (fun ps session => Faithful c t ps session ∧ Complete c ps session)
      ([t.root], { tree := t }) :=
    ⟨[t.program], t.program, by simp [htracks.root_eq], htracks, faithful_start hsource,
      complete_start hparse⟩
  obtain ⟨ps, a, hps, hlast, -, hcomplete⟩ :=
    htracked.iterates (noNative_of_buildTable htable) hkept (iterates_of_loop hloop)
  obtain rfl : ps = [] := List.map_eq_nil_iff.1 hps.symm
  have hlabels : ∀ i ∈ session.tree.program.notes,
      Purity.isKnownLabel c.known (session.tree.kind i) = false := by
    intro i hi
    rw [Bool.eq_false_iff]
    intro hlabel
    obtain ⟨x, hx, -⟩ := hcomplete.labels i hi hlabel
    exact absurd hx List.not_mem_nil
  constructor
  · intro i hi
    obtain ⟨b, hb, rfl⟩ := hlast.toRooted.exists_part hi
    have hmem := (kind_of_part hlast.toRooted hb).1
    exact ⟨hlabels _ hmem, hcomplete.slots _ hmem⟩
  · have hagain : Tracks session.tree [a] a :=
      ⟨hlast.toRooted, hlast.isProgram, by simp [Ast.Part.self], by simpa using hlast.nodup⟩
    have hlength : a.notes.length ≤ session.tree.size :=
      Tree.length_le_of_stored hlast.nodup hlast.holds.stored
    have hloop := loop_of_no_label hlabels session.tree.size [a] hagain (by
      rwa [List.flatMap_singleton])
    rw [List.map_singleton, hlast.root_eq] at hloop
    exact run_of_loop hloop

/-- The pass with a template over a label that stands around another statement. -/
theorem pass_settles_template :
    ∃ (c : ExpansionContext) (t : Tree) (session : Session),
      Options.buildTable (oneTemplate "note" "f(%%content%%)") [] = .ok c.table ∧ c.table.Plain ∧
      Program.parse .source "note:if(a)b" = .ok t ∧ run c t = .ok session ∧
      session.stats.calls = 1 ∧
      (∀ i, session.tree.Reachable i →
        Purity.isKnownLabel c.known (session.tree.kind i) = false ∧
          (session.tree.kind i).isPlaceholder = false) ∧
      run c session.tree = .ok { tree := session.tree } := by
  have hseen : ((Options.buildTable (oneTemplate "note" "f(%%content%%)") []).toOption.bind fun table =>
      (observe { plainContext with table := table } (fun _ session => session.stats.calls)
        "note:if(a)b").map fun calls => (decide table.Plain, calls)) = some (true, 1) := by
    decide +kernel
  obtain ⟨table, htable, hseen⟩ := Option.bind_eq_some_iff.1 hseen
  obtain ⟨calls, hseen, hboth⟩ := Option.map_eq_some_iff.1 hseen
  obtain ⟨hplain, rfl⟩ := Prod.mk.inj hboth
  obtain ⟨t, session, hparse, hrun, hcalls⟩ := exists_of_observe hseen
  have htable := eq_ok_of_toOption htable
  have hplain : table.Plain := of_decide_eq_true hplain
  obtain ⟨fuel, hloop⟩ := run_eq_ok_iff.1 hrun
  obtain ⟨hsettled, hagain⟩ := pass_settles hparse htable hplain hloop
  exact ⟨_, t, session, htable, hplain, hparse, hrun, hcalls, hsettled, hagain⟩

end Expansion

end LogLabel
