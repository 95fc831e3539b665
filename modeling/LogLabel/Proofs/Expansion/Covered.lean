import LogLabel.Proofs.Expansion.Completeness

set_option autoImplicit false

/-!
# Functions below labels

A function in the body of a label is a construct that the label refuses, and a label that is
stripped takes the function with it. So no label inside of such a function is ever visited.

* `Purity.exists_label_of_subst`: in the body of a label that is expanded, a construct stands
  below another label, and still does so after the expansion.
* `Expansion.Covered`: the invariant of the pass. As long as the construct is in the program,
  there is a label of a log statement around it.
* `Expansion.not_covered_of_visited`: a label that is visited has no construct around it with a
  label of a log statement around that.
-/

namespace LogLabel

open Program (Ast Kind NodeId Span Tree)
open Program.Tree (Rooted Apart)

/-- The parts of a body stand in what is unwrapped from it. -/
theorem Program.Ast.exists_unwrapped {ι : Type} {b d : Ast ι} (hd : d ∈ b.kind.children) :
    ∃ r ∈ b.unwrapped, d.Part r := by
  unfold unwrapped
  split
  · next ss hk =>
      rw [hk] at hd
      exact ⟨d, hd, .self⟩
  · next hk =>
      rw [hk] at hd
      exact absurd hd List.not_mem_nil
  · exact ⟨b, List.mem_singleton.2 rfl, .of_mem hd⟩

/-- The body of a function or a method. -/
def Program.Kind.functionBody? {α : Type} : Kind α → Option α
  | .function _ body => some body
  | .method _ _ body => some body
  | _ => none

/-- Functions and methods are scopes. -/
theorem Metadata.isScope_of_functionBody? {t : Tree} {i body : NodeId}
    (h : (t.kind i).functionBody? = some body) : Metadata.isScope t i = true := by
  rw [Metadata.isScope, Metadata.scopeName?]
  cases hk : t.kind i <;> rw [hk] at h <;> first | rfl | cases h

namespace Purity

/-- Functions and methods are forbidden below a label. -/
theorem construct?_of_functionBody? {α : Type} {k : Kind α} {body : α}
    (h : k.functionBody? = some body) : construct? k ≠ none := by
  cases k <;> first | exact Option.some_ne_none _ | cases h

theorem construct?_outline {α : Type} (k : Kind α) : construct? k.outline = construct? k := by
  cases k <;> rfl

theorem construct?_of_isKnownLabel {α : Type} {known : String → Bool} {k : Kind α}
    (h : isKnownLabel known k = true) : construct? k = none := by
  cases k <;> first | rfl | cases h

/-- A construct in a harmless program stands below a label of a log statement, also after other
parts were replaced. -/
theorem exists_label_of_subst {known : String → Bool} {f : NodeId → Option (Ast NodeId)}
    {i : NodeId}
    (hf : ∀ j m, f j = some m → i ∉ m.notes) (a : Ast NodeId) :
    harmless known a = true → (∀ d : Ast NodeId, d.Part a → d.note = i → construct? d.kind ≠ none) →
      i ∈ (a.subst f).notes →
      ∃ d : Ast NodeId, d.Part (a.subst f) ∧ isKnownLabel known d.kind = true ∧ i ∈ d.notes := by
  induction a using Ast.induction with
  | node p k ih =>
      intro h hi hmem
      have hsubst := Ast.subst_node f p k
      cases hp : f p with
      | some m =>
          rw [hsubst, hp] at hmem
          exact absurd hmem (hf p m hp)
      | none =>
          rw [hp, Option.getD_none] at hsubst
          rw [hsubst] at hmem ⊢
          rcases (harmless_node p k).1 h with hlabel | ⟨hconstruct, hparts⟩
          · exact ⟨_, .self, by rw [Ast.kind_node, Expansion.isKnownLabel_map, hlabel], hmem⟩
          · rw [Ast.notes_node, List.mem_cons, Kind.children_map, List.mem_flatMap] at hmem
            rcases hmem with rfl | ⟨_, hc, hmem⟩
            · exact absurd hconstruct (hi _ .self rfl)
            · obtain ⟨c, hck, rfl⟩ := List.mem_map.1 hc
              obtain ⟨d, hd, hlabel, hid⟩ :=
                ih c hck (hparts c hck) (fun d hd => hi d (.inside hck hd)) hmem
              refine ⟨d, .inside ?_ hd, hlabel, hid⟩
              rw [Ast.kind_node, Kind.children_map]
              exact hc

/-- The same for what takes the place of a label with a body that was checked. -/
theorem exists_label_of_unwrapped {known : String → Bool} {f : NodeId → Option (Ast NodeId)}
    {i : NodeId} {body : Ast NodeId} (hpure : violations known body = [])
    (hf : ∀ j m, f j = some m → i ∉ m.notes)
    (hi : ∀ d : Ast NodeId, d.Part body → d.note = i → construct? d.kind ≠ none)
    (hmem : i ∈ (body.subst f).notes) :
    ∃ r ∈ (body.subst f).unwrapped, ∃ d : Ast NodeId, d.Part r ∧
      isKnownLabel known d.kind = true ∧ i ∈ d.notes := by
  obtain ⟨hbody, hparts⟩ := (violations_eq_nil body).1 hpure
  obtain ⟨b, k⟩ := body
  have hsubst := Ast.subst_node f b k
  cases hb : f b with
  | some m =>
      rw [hsubst, hb] at hmem
      exact absurd hmem (hf b m hb)
  | none =>
      rw [hb, Option.getD_none] at hsubst
      rw [hsubst, Ast.notes_node, List.mem_cons, Kind.children_map, List.mem_flatMap] at hmem
      rcases hmem with rfl | ⟨_, hc, hmem⟩
      · exact absurd hbody (hi _ .self rfl)
      · obtain ⟨c, hck, rfl⟩ := List.mem_map.1 hc
        obtain ⟨d, hd, hlabel, hid⟩ := exists_label_of_subst hf c (hparts c hck)
          (fun d hd => hi d (.inside hck hd)) hmem
        have hchild : c.subst f ∈ ((Ast.node b k).subst f).kind.children := by
          rw [hsubst, Ast.kind_node, Kind.children_map]
          exact hc
        obtain ⟨r, hr, hcr⟩ := Ast.exists_unwrapped hchild
        exact ⟨r, hr, d, hd.trans hcr, hlabel, hid⟩

end Purity

namespace Expansion

/-! ## The invariant of the pass -/

/-- As long as the node `i` is in the program, it has the form that it has in the source, and a
label of a log statement stands around it. -/
def Covered (known : String → Bool) (t₀ : Tree) (i : NodeId) (t : Tree) : Prop :=
  i ∈ t.program.notes → (t.kind i).outline = (t₀.kind i).outline ∧
    ∃ j ∈ t.ancestors i, Purity.isKnownLabel known (t.kind j) = true

section Invariant

variable {c : ExpansionContext} {t₀ : Tree} {session session' : Session} {ps rs : List (Ast NodeId)}
  {a a' x : Ast NodeId} {i : NodeId}

/-- An edit of a program does not change what is around a node outside of it. -/
theorem Covered.outside {known : String → Bool} {t t' : Tree} (h : Covered known t₀ i t)
    (ht : t.Rooted a) (hx : x.Part a) (hapart : Apart t t' x) (hi : i ∈ t.program.notes)
    (hix : i ∉ x.notes) : (t'.kind i).outline = (t₀.kind i).outline ∧
      ∃ j ∈ t'.ancestors i, Purity.isKnownLabel known (t'.kind j) = true := by
  obtain ⟨houtline, j, hj, hlabel⟩ := h hi
  rw [ht.program_eq] at hi
  obtain ⟨d, hd, rfl⟩ := Ast.Part.exists_of_mem hi
  refine ⟨?_, j, ?_, ?_⟩
  · rw [hapart.outline_eq _ (ht.toHeld.of_part hd).holds.note_stored hix, houtline]
  · rwa [hapart.ancestors_eq ht hd hx hix]
  · have hout : ∀ j ∈ t.ancestors d.note, j ∉ x.notes := fun j hj =>
      ht.ancestor_not_mem hd hx hix j (List.mem_cons_of_mem _ hj)
    rw [(rungs_same_of_apart known hapart (ht.chain hd).stored hout j hj).2, hlabel]

/-- A construct in what takes the place of an expanded label. -/
theorem Covered.unwrapped {known : String → Bool} {t t' : Tree} {p : NodeId} {label : String}
    {body : Ast NodeId} {f : NodeId → Option (Ast NodeId)} (h : Covered known t₀ i t)
    (ht : t.Rooted a) (hx : (Ast.node p (.labeled label body)).Part a) (ht' : t'.Rooted a')
    (hparts : ∀ r ∈ (body.subst f).unwrapped, r.Part a')
    (hconstruct : Purity.construct? (t₀.kind i) ≠ none)
    (hpure : Purity.violations known body = []) (hf : ∀ j m, f j = some m → i ∉ m.notes)
    (hi : i ∈ (body.subst f).unwrapped.flatMap Ast.notes) :
    (t'.kind i).outline = (t₀.kind i).outline ∧
      ∃ j ∈ t'.ancestors i, Purity.isKnownLabel known (t'.kind j) = true := by
  obtain ⟨r, hr, hir⟩ := List.mem_flatMap.1 hi
  obtain ⟨d, hd, rfl⟩ := Ast.Part.exists_of_mem hir
  have hda : d.Part a' := hd.trans (hparts r hr)
  -- The construct was in the label before, in the form that it has in the source.
  rcases Ast.part_subst body (hd.trans (Ast.unwrapped_part hr)) with
    ⟨j, m, hm, hdm⟩ | ⟨d₀, hd₀, -, hkept⟩
  · exact absurd (hdm.notes_subset d.note_mem_notes) (hf j m hm)
  have hnote : d.note = d₀.note := by rw [hkept, Ast.note_node]
  have hform : ∀ e : Ast NodeId, e.Part a → e.note = d.note →
      e.kind.outline = (t₀.kind d.note).outline := by
    intro e he hnote
    obtain ⟨hmem, hkind⟩ := kind_of_part ht he
    rw [hnote] at hmem hkind
    rw [← (h hmem).1, hkind, Kind.outline_map]
  have houtline : d.kind.outline = (t₀.kind d.note).outline := by
    rw [← hform d₀ (hd₀.trans (Ast.part_of_labeled hx)) hnote.symm, hkept, Ast.kind_node,
      Kind.outline_map]
  have hstays : Purity.construct? d.kind ≠ none := by
    rwa [← Purity.construct?_outline, houtline, Purity.construct?_outline]
  refine ⟨?_, ?_⟩
  · rw [(ht'.toHeld.of_part hda).holds.kind_eq, Kind.outline_map, houtline]
  · obtain ⟨r', hr', e, he, hlabel, hmem⟩ := Purity.exists_label_of_unwrapped hpure hf
      (fun e he hnote => by
        rwa [← Purity.construct?_outline, hform e (he.trans (Ast.part_of_labeled hx)) hnote,
          Purity.construct?_outline])
      ((hd.trans (Ast.unwrapped_part hr)).notes_subset d.note_mem_notes)
    have hea : e.Part a' := he.trans (hparts r' hr')
    refine ⟨e.note, ht'.mem_ancestors hda hea hmem fun heq => hstays ?_, ?_⟩
    · -- The label is not the construct itself.
      rw [← ht'.toHeld.part_unique hea hda heq]
      exact Purity.construct?_of_isKnownLabel hlabel
    · rw [(ht'.toHeld.of_part hea).holds.kind_eq, isKnownLabel_map, hlabel]

/-- What a made statement has of the source is no statement and no construct that is refused: it is made
of new nodes and of the parts of an expression that was searched. -/
theorem Made.harmless_of_mem {p : NodeId} {label : String} {body e made : Ast NodeId}
    {s : Synthesizer} {m : Metadata} (hsource : Source t₀) (htame : c.table.Tame)
    (hstored : i.index < session.tree.size)
    (hx : Awaits c t₀ session (.node p (.labeled label body))) (hhandled : p ∉ session.handled)
    (hs : c.table.get? label = some s) (hpure : Purity.violations c.known body = [])
    (he : e ∈ bodyRegion c.known session.handled body)
    (hmade : Made c s m session.tree session'.tree e made) (hi : i ∈ made.notes) :
    (t₀.kind i).isStatement = false ∧ Purity.construct? (t₀.kind i) = none := by
  rcases hmade.origin i hi with hi | hi
  · obtain ⟨body₀, hlabel, hbecomes⟩ := hx.label_of_source htame hhandled hs
    have hbody₀ : body₀.Part t₀.program := Ast.part_of_labeled hlabel
    obtain ⟨b, hsorted⟩ := Ast.wellSorted_part hbody₀ hsource.sorted
    obtain ⟨hepart, y, hey, hysorted, hyharmless⟩ := hbecomes.statement_part hsorted hpure he
    rw [Ast.inner, hey, Kind.children, List.flatMap_singleton] at hi
    obtain ⟨d, hd, rfl⟩ := Ast.Part.exists_of_mem hi
    have hdpart : d.Part t₀.program :=
      (hd.trans (.of_mem (by rw [hey]; exact List.mem_singleton.2 rfl))).trans (hepart.trans hbody₀)
    rw [(hsource.rooted.toHeld.of_part hdpart).holds.kind_eq, Kind.isStatement_map,
      Structural.construct?_map]
    exact Purity.harmless_part hd hysorted hyharmless
  · exact absurd hstored (Nat.not_lt.2 hi)

/-- One visit keeps the invariant. -/
theorem Covered.visit (hsource : Source t₀) (htame : c.table.Tame)
    (hconstruct : Purity.construct? (t₀.kind i) ≠ none) (hstored : i.index < t₀.size)
    (hfaithful : Faithful c t₀ (x :: ps) session) (h : Covered c.known t₀ i session.tree)
    (htracks : Tracks session.tree (x :: ps) a) (htracks' : Tracks session'.tree (rs ++ ps) a')
    (hvisited : Visited c session x rs session') : Covered c.known t₀ i session'.tree := by
  have hx := htracks.parts x List.mem_cons_self
  have hold : i.index < session.tree.size := Nat.lt_of_lt_of_le hstored hfaithful.grows.size_le
  cases hvisited with
  | passed hhandled => exact h
  | entered hhandled hlabel => exact h
  | stripped hhandled hknown hstrip hsame hapart hleaves =>
      intro hi
      rcases hleaves i hi with hi | ⟨hi, hix⟩ | ⟨hi, -⟩
      · exact absurd hi List.not_mem_nil
      · exact h.outside htracks.toRooted hx hapart hi hix
      · exact absurd hold (Nat.not_lt.2 hi)
  | @expanded p label body s pairs _ hhandled hs hstrip hpure hpairs hmade hnew hapart hplaced
      hleaves =>
      intro hi
      rcases hleaves i hi with hi | ⟨hi, hix⟩ | ⟨hi, -⟩
      · have hout : ∀ j m, Ast.replacement pairs j = some m → i ∉ m.notes := by
          intro j m hm
          obtain ⟨pair, hpair, -, rfl⟩ := Ast.mem_of_replacement hm
          exact fun hi => hconstruct ((hmade pair hpair).harmless_of_mem hsource htame hold
            (hfaithful.pending _ List.mem_cons_self) hhandled hs hpure
            (hpairs ▸ List.mem_map.2 ⟨pair, hpair, rfl⟩) hi).2
        exact h.unwrapped htracks.toRooted hx htracks'.toRooted
          (fun r hr => htracks'.parts r (List.mem_append_left _ hr)) hconstruct hpure hout hi
      · exact h.outside htracks.toRooted hx hapart hi hix
      · exact absurd hold (Nat.not_lt.2 hi)

end Invariant

/-! ## The pass over a source -/

/-- A label of a log statement that is visited in a function is not below another one with the
function in it. -/
theorem not_covered_of_visited {text : String} {t : Tree}
    (hparse : Program.parse .source text = .ok t) {c : ExpansionContext}
    {templates : Option (NameMap (Option String))}
    (htable : Options.buildTable templates [] = .ok c.table) (htame : c.table.Tame) {id : NodeId}
    {rest : List NodeId} {session : Session}
    (hrun : Relation.ReflTransGen (Iterates c) ([t.root], { tree := t }) (id :: rest, session))
    (hlabel : Purity.isKnownLabel c.known (t.kind id) = true) {scope : NodeId}
    (hscope : scope ∈ t.ancestors id) {block : NodeId}
    (hfunction : (t.kind scope).functionBody? = some block) :
    ∀ j ∈ t.ancestors scope, Purity.isKnownLabel c.known (t.kind j) = false := by
  intro j hj
  rw [Bool.eq_false_iff]
  intro hcover
  have hsource := source_parse hparse
  have hconstruct := Purity.construct?_of_functionBody? hfunction
  have hstored : scope.index < t.size := t.index_lt_of_kind_ne fun hempty => by
    rw [hempty] at hfunction
    cases hfunction
  obtain ⟨x, ps, a, rfl, htracks, hfaithful, hcovered⟩ :=
    exists_faithful_and hparse htable (fun _ session => Covered c.known t scope session.tree)
      (fun _ => ⟨rfl, j, hj, hcover⟩)
      (fun hfaithful htracks htracks' hvisited h =>
        h.visit hsource htame hconstruct hstored hfaithful htracks htracks' hvisited) hrun
  cases hkind : t.kind x.note with
  | labeled label b =>
      rw [hkind] at hlabel
      obtain ⟨-, -, -, hagrees⟩ := hfaithful.label_of_head hsource htracks hkind hlabel
      have hx := htracks.parts x List.mem_cons_self
      -- The function is still around the label, and so is the label around the function.
      have hmem := hagrees.mem_ancestors hscope (Metadata.isScope_of_functionBody? hfunction)
      obtain ⟨d, hd, rfl, -⟩ := htracks.exists_of_ancestor hx hmem
      obtain ⟨-, j', hj', hknown⟩ := hcovered (kind_of_part htracks.toRooted hd).1
      have hplain := hagrees.plain j'
        ((htracks.suffix_of_ancestor hx hmem).subset (List.mem_cons_of_mem _ hj'))
      rw [hknown] at hplain
      cases hplain
  | _ => rw [hkind] at hlabel; cases hlabel

end Expansion

end LogLabel
