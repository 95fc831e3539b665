import LogLabel.Proofs.Expansion.Completeness

set_option autoImplicit false

/-!
# Which labels are kept

A label of a log statement is kept or stripped when it is visited, and it is visited only
when all labels around it were kept. With templates that have no labels of the table, the
decisions of a whole pass can be read off the source.

* `Expansion.Keeps c t id`: the pass over `t` visits the label `id` and does not strip it.
* `Expansion.due` lists the labels of a program that are kept when it is visited, by decisions
  with the metadata that the source has for its labels.
* `Expansion.due_visited`: a visit keeps at most the first due label, and the others stay due.
* `Expansion.mem_due_of_keeps`, `Expansion.keeps_of_mem_due`: a successful pass keeps the due
  labels of the source.
-/

namespace LogLabel.Expansion

open Program (Ast Kind NodeId Span Tree)

/-- The label `id` is kept when it is visited. -/
def KeptAt (c : ExpansionContext) (session : Session) (id : NodeId) : Prop :=
  id ∉ session.handled ∧ ∃ label body, session.tree.kind id = .labeled label body ∧
    c.known label = true ∧ shouldStrip c.strip c.environment label (metadataOf c session id) = false

/-- The pass over a tree visits the label `id` and keeps it. -/
def Keeps (c : ExpansionContext) (t : Tree) (id : NodeId) : Prop :=
  ∃ rest session, Relation.ReflTransGen (Iterates c) ([t.root], { tree := t }) (id :: rest, session) ∧
    KeptAt c session id

/-- Whether the source says that a label is stripped. -/
def stripsInSource (c : ExpansionContext) (t₀ : Tree) (label : String) (id : NodeId) : Bool :=
  shouldStrip c.strip c.environment label (metadataOf c { tree := t₀ } id)

/-- The labels of a node that are kept, given those of its parts: a label that is stripped goes with
all that are below it. -/
def dueStep (c : ExpansionContext) (t₀ : Tree) (id : NodeId) (k : Kind (List NodeId)) : List NodeId :=
  match k with
  | .labeled label below =>
      if c.known label then if stripsInSource c t₀ label id then [] else id :: below else below
  | k => k.children.flatten

/-- The labels of a program that are kept when it is visited, from left to right and from outside to
inside. -/
def due (c : ExpansionContext) (t₀ : Tree) : Ast NodeId → List NodeId := Ast.fold (dueStep c t₀)

section Due

variable {c : ExpansionContext} {t₀ : Tree}

theorem due_of_label {label : String} (hknown : c.known label = true) (p : NodeId)
    (body : Ast NodeId) :
    due c t₀ (.node p (.labeled label body))
      = if stripsInSource c t₀ label p then [] else p :: due c t₀ body := by
  rw [due, Ast.fold_node]
  exact if_pos hknown

theorem due_of_kept {label : String} {p : NodeId} (hknown : c.known label = true)
    (hkept : stripsInSource c t₀ label p = false) (body : Ast NodeId) :
    due c t₀ (.node p (.labeled label body)) = p :: due c t₀ body := by
  rw [due_of_label hknown, hkept, if_neg Bool.false_ne_true]

theorem due_of_not_label {i : NodeId} {k : Kind (Ast NodeId)}
    (hlabel : Purity.isKnownLabel c.known k = false) :
    due c t₀ (.node i k) = k.children.flatMap (due c t₀) := by
  rw [due, Ast.fold_node, List.flatMap_def, ← Kind.children_map]
  cases k with
  | labeled label body =>
      have hknown : c.known label = false := hlabel
      simp [dueStep, hknown, Kind.map, Kind.children]
  | _ => rfl

/-- There is nothing to keep in a program without labels of log statements. -/
theorem due_of_plain {a : Ast NodeId} : a.Plain c.known → due c t₀ a = [] := by
  induction a using Ast.induction with
  | node i k ih =>
      intro h
      obtain ⟨hlabel, hparts⟩ := Ast.Plain.node_iff.1 h
      rw [due_of_not_label hlabel, List.flatMap_eq_nil_iff]
      exact fun b hb => ih b hb (hparts b hb)

/-- Replacing parts without due labels by others without due labels. -/
theorem due_subst {g : NodeId → Option (Ast NodeId)} (a : Ast NodeId) :
    (∀ d : Ast NodeId, d.Part a → ∀ m, g d.note = some m → due c t₀ d = [] ∧ due c t₀ m = []) →
      due c t₀ (a.subst g) = due c t₀ a := by
  induction a using Ast.induction with
  | node i k ih =>
      intro h
      rw [Ast.subst_node]
      cases hg : g i with
      | some m =>
          obtain ⟨hold, hnew⟩ := h _ .self m hg
          rw [Option.getD_some, hold, hnew]
      | none =>
          have hparts : ∀ b ∈ k.children, due c t₀ (b.subst g) = due c t₀ b := fun b hb =>
            ih b hb fun d hd => h d (.inside hb hd)
          rw [Option.getD_none, due, Ast.fold_node, Ast.fold_node, Kind.map_map]
          exact congrArg (dueStep c t₀ i) (Kind.map_congr hparts)

/-- What takes the place of a label has the due labels of its body. -/
theorem due_unwrapped (a : Ast NodeId) : a.unwrapped.flatMap (due c t₀) = due c t₀ a := by
  obtain ⟨i, k⟩ := a
  cases k with
  | block ss => exact (due_of_not_label (k := .block ss) rfl).symm
  | empty => exact (due_of_not_label (k := .empty) rfl).symm
  | _ => exact List.flatMap_singleton _ _

/-- A label that is due in a part is due in the whole if no label around it is stripped. -/
theorem mem_due_of_part {a d : Ast NodeId} (hd : d.Part a)
    (hdue : d.note ∈ due c t₀ d)
    (hkept : ∀ e : Ast NodeId, e.Part a → (∃ b ∈ e.kind.children, d.Part b) → ∀ label body,
      e.kind = .labeled label body → c.known label = true → stripsInSource c t₀ label e.note = false) :
    d.note ∈ due c t₀ a := by
  induction hd with
  | self => exact hdue
  | @inside a b hb hd ih =>
      have hbelow := ih fun e he => hkept e (.inside hb he)
      obtain ⟨i, k⟩ := a
      cases hlabel : Purity.isKnownLabel c.known k with
      | false =>
          rw [due_of_not_label hlabel]
          exact List.mem_flatMap.2 ⟨b, hb, hbelow⟩
      | true =>
          cases k with
          | labeled label body =>
              obtain rfl : b = body := List.mem_singleton.1 hb
              have hstrip := hkept _ .self ⟨b, hb, hd⟩ label b rfl hlabel
              rw [Ast.note_node] at hstrip
              rw [due_of_kept hlabel hstrip]
              exact List.mem_cons_of_mem _ hbelow
          | _ => cases hlabel

end Due

section Visits

variable {c : ExpansionContext} {t₀ : Tree} {session session' : Session} {ps rs : List (Ast NodeId)}
  {a a' x : Ast NodeId}

/-- A label of a log statement is decided with the metadata of the source. -/
theorem Faithful.shouldStrip_eq (h : Faithful c t₀ (x :: ps) session) (htame : c.table.Tame)
    (hhandled : x.note ∉ session.handled) {label : String} {body : Ast NodeId}
    (hx : x.kind = .labeled label body) (hknown : c.known label = true) :
    shouldStrip c.strip c.environment label (metadataOf c session x.note)
      = stripsInSource c t₀ label x.note := by
  obtain ⟨p, k⟩ := x
  obtain rfl : k = .labeled label body := hx
  rcases (h.pending _ List.mem_cons_self).of_label hhandled with hinert | ⟨body₀, -, -, hagrees⟩
  · exact absurd htame (hinert.not_tame hknown)
  · have hcontext : (metadataOf c session p).context
        = (metadataOf c { tree := t₀ } p).context := by
      rw [Metadata.context, Metadata.context]
      exact congrArg (fun names => ":".intercalate names.reverse) hagrees.path_eq
    unfold stripsInSource shouldStrip
    rw [Ast.note_node, hcontext]
    rfl

/-- A label that is kept when it is visited is the first one that is due. -/
theorem Faithful.due_of_keptAt (h : Faithful c t₀ (x :: ps) session) (htame : c.table.Tame)
    (htracks : Tracks session.tree (x :: ps) a) (hkept : KeptAt c session x.note) :
    x.note ∈ due c t₀ x := by
  obtain ⟨hhandled, label, b, hkind, hknown, hstrip⟩ := hkept
  have hheld := htracks.toHeld.of_part (htracks.parts x List.mem_cons_self)
  obtain ⟨body, hx, -⟩ := hheld.exists_label hkind
  rw [h.shouldStrip_eq htame hhandled (congrArg Ast.kind hx) hknown] at hstrip
  rw [hx, due_of_kept hknown hstrip]
  exact List.mem_cons_self

/-- A visit keeps the first due label or none, and all others stay due. -/
theorem due_visited (hsource : Source t₀) (hplain : c.table.Plain)
    (hfaithful : Faithful c t₀ (x :: ps) session) (h : Complete c (x :: ps) session)
    (htracks : Tracks session.tree (x :: ps) a) (hvisited : Visited c session x rs session') :
    due c t₀ x = rs.flatMap (due c t₀) ∨
      KeptAt c session x.note ∧ due c t₀ x = x.note :: rs.flatMap (due c t₀) := by
  have hx := htracks.parts x List.mem_cons_self
  cases hvisited with
  | passed hhandled => exact Or.inl (due_of_plain (h.made x List.mem_cons_self x .self hhandled))
  | entered hhandled hlabel =>
      obtain ⟨i, k⟩ := x
      exact Or.inl (due_of_not_label hlabel)
  | @stripped p label body _ hhandled hknown hstrip hsame hapart hleaves =>
      have hdecision := hfaithful.shouldStrip_eq hplain.tame hhandled rfl hknown
      rw [Ast.note_node, hstrip] at hdecision
      rw [due_of_label hknown, ← hdecision, if_pos rfl]
      exact Or.inl rfl
  | @expanded p label body s pairs _ hhandled hs hstrip hpure hpairs hmade hnew hapart hplaced hleaves =>
      have hknown := known_of_get? c hs
      have hdecision := hfaithful.shouldStrip_eq hplain.tame hhandled rfl hknown
      rw [Ast.note_node, hstrip] at hdecision
      have hkind : session.tree.kind p = .labeled label body.note :=
        (htracks.toHeld.of_part hx).holds.kind_eq
      refine Or.inr ⟨⟨hhandled, label, body.note, hkind, hknown, hstrip⟩, ?_⟩
      rw [due_of_kept hknown hdecision.symm, due_unwrapped, Ast.note_node, due_subst]
      -- What is replaced are expression statements without labels, and so is what comes in.
      intro d hd m hm
      obtain ⟨pair, hpair, hnote, rfl⟩ := Ast.mem_of_replacement hm
      have hregion : pair.1 ∈ bodyRegion c.known session.handled body :=
        hpairs ▸ List.mem_map.2 ⟨pair, hpair, rfl⟩
      obtain ⟨hpart, y, hy, hsettled⟩ :=
        h.logged hsource hplain hfaithful htracks hhandled hs hpure hregion
      have hbody : body.Part a := Ast.part_of_labeled hx
      obtain rfl : d = pair.1 :=
        htracks.toHeld.part_unique (hd.trans hbody) (hpart.trans hx) hnote.symm
      refine ⟨due_of_plain ?_, due_of_plain ((hmade pair hpair).settled (hplain.get? hs) hy hsettled).plain⟩
      exact hsettled.plain.expression hy

/-- From a state with a due label, a pass that visits all nodes comes to a state in which it keeps the
label. -/
theorem exists_keptAt (hsource : Source t₀) (hplain : c.table.Plain) (hc : NoNative c.table)
    {id : NodeId} {st : List NodeId × Session} {last : Session}
    (hrun : Relation.ReflTransGen (Iterates c) st ([], last)) :
    ∀ (ps : List (Ast NodeId)) (a : Ast NodeId), st.1 = ps.map Ast.note → Tracks st.2.tree ps a →
      Faithful c t₀ ps st.2 → Complete c ps st.2 → id ∈ ps.flatMap (due c t₀) →
      ∃ rest session, Relation.ReflTransGen (Iterates c) st (id :: rest, session) ∧
        KeptAt c session id := by
  -- The induction is on the visits that are left: a label that is due is kept by the next one, or
  -- it is still due after it.
  induction hrun using Relation.ReflTransGen.head_induction_on with
  | refl =>
      intro ps a hps _ _ _ hid
      obtain rfl := List.map_eq_nil_iff.1 hps.symm
      exact absurd hid List.not_mem_nil
  | @head st st' hstep _ ih =>
      intro ps a hps htracks hfaithful hcomplete hid
      obtain ⟨x, rest, rs, a', rfl, hps', htracks', hvisited⟩ := hstep.exists_visited hc hps htracks
      have hlater : id ∈ (rs ++ rest).flatMap (due c t₀) →
          ∃ rest session, Relation.ReflTransGen (Iterates c) st (id :: rest, session) ∧
            KeptAt c session id := by
        intro hid
        obtain ⟨pending, session, hreach, hkept⟩ := ih (rs ++ rest) a' hps' htracks'
          (hfaithful.visit hsource htracks htracks' hvisited)
          (hcomplete.visit hsource hplain hfaithful htracks htracks' hvisited) hid
        exact ⟨pending, session, .head hstep hreach, hkept⟩
      rw [List.flatMap_cons, List.mem_append] at hid
      rw [List.flatMap_append, List.mem_append] at hlater
      rcases hid with hid | hid
      · rcases due_visited hsource hplain hfaithful hcomplete htracks hvisited with hdue | ⟨hkept, hdue⟩
        · exact hlater (Or.inl (hdue ▸ hid))
        · rw [hdue, List.mem_cons] at hid
          rcases hid with rfl | hid
          · refine ⟨rest.map Ast.note, st.2, ?_, hkept⟩
            rw [← List.map_cons, ← hps]
          · exact hlater (Or.inl hid)
      · exact hlater (Or.inr hid)

end Visits

section Passes

variable {text : String} {t : Tree} {c : ExpansionContext} {id : NodeId}
  {templates : Option (NameMap (Option String))}

/-- A pass keeps no other labels than the due ones. -/
theorem mem_due_of_keeps (hparse : Program.parse .source text = .ok t)
    (htable : Options.buildTable templates [] = .ok c.table) (hplain : c.table.Plain)
    (h : Keeps c t id) : id ∈ due c t t.program := by
  have hsource := source_parse hparse
  obtain ⟨rest, session, hrun, hkept⟩ := h
  have hinvariant : Kept c fun ps session =>
      (Faithful c t ps session ∧ Complete c ps session) ∧
        ps.flatMap (due c t) ⊆ due c t t.program := by
    intro x ps rs a a' session session' htracks htracks' hvisited hP
    obtain ⟨⟨hfaithful, hcomplete⟩, hdue⟩ := hP
    refine ⟨⟨hfaithful.visit hsource htracks htracks' hvisited,
      hcomplete.visit hsource hplain hfaithful htracks htracks' hvisited⟩, ?_⟩
    rw [List.flatMap_cons, List.append_subset] at hdue
    rw [List.flatMap_append, List.append_subset]
    refine ⟨?_, hdue.2⟩
    rcases due_visited hsource hplain hfaithful hcomplete htracks hvisited with heq | ⟨-, heq⟩
    · rw [← heq]
      exact hdue.1
    · rw [heq] at hdue
      exact (List.cons_subset.1 hdue.1).2
  have htracks := tracks_parse hparse
  have htracked : Tracked (fun ps session => (Faithful c t ps session ∧ Complete c ps session) ∧
      ps.flatMap (due c t) ⊆ due c t t.program) ([t.root], { tree := t }) :=
    ⟨[t.program], t.program, by simp [htracks.root_eq], htracks,
      ⟨faithful_start hsource, complete_start hparse⟩, by simp⟩
  obtain ⟨ps, a, hps, htracks, ⟨hfaithful, -⟩, hdue⟩ :=
    htracked.iterates (noNative_of_buildTable htable) hinvariant hrun
  match ps, hps, htracks, hfaithful, hdue with
  | x :: ps, hps, htracks, hfaithful, hdue =>
      obtain ⟨rfl, -⟩ := List.cons.inj hps
      rw [List.flatMap_cons, List.append_subset] at hdue
      exact hdue.1 (hfaithful.due_of_keptAt hplain.tame htracks hkept)

/-- A pass that succeeds keeps all due labels. -/
theorem keeps_of_mem_due (hparse : Program.parse .source text = .ok t)
    (htable : Options.buildTable templates [] = .ok c.table) (hplain : c.table.Plain)
    {session : Session} (hrun : run c t = .ok session) (h : id ∈ due c t t.program) :
    Keeps c t id := by
  have htracks := tracks_parse hparse
  refine exists_keptAt (source_parse hparse) hplain (noNative_of_buildTable htable)
    (iterates_of_run hrun) [t.program] t.program (by simp [htracks.root_eq]) htracks
    (faithful_start (source_parse hparse)) (complete_start hparse) (by simpa using h)

end Passes

end LogLabel.Expansion
