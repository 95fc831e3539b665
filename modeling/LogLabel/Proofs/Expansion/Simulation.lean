import LogLabel.Proofs.Expansion.Bounded
import LogLabel.Proofs.Expansion.Logs

set_option autoImplicit false

/-!
# The pass computes the structural recursion

The pass visits nodes of an arena one after the other; `Structural.rewrite` is a recursion
over the nested program. This module shows that they have the same outcome, and that the
statements made in the pass are those that the recursion leads to.

* `Expansion.Visits`: how the pass gets on with the first nodes of its list.
* `Expansion.Simulates`: visiting the programs that stand side by side in a layer of the
  arena has the outcome that the recursion gives, and changes nothing else in the layer.
  Simulations are put together as the recursion is: `Simulates.append`, `Simulates.parts`
  and `Simulates.label`.
* `Expansion.simulates_expander`: the recursion over a program is simulated at every place.
* `Expansion.run_eq_rewrite`: the pass ends, and has the outcome of the recursion.
-/

namespace LogLabel

open Program (Ast Kind NodeId Span Tree)

@[simp] theorem Stats.add_zero (n : Stats) : n.add {} = n := rfl

@[simp] theorem Stats.zero_add (n : Stats) : Stats.add {} n = n := by
  simp [Stats.add]

theorem Stats.add_assoc (l m n : Stats) : (l.add m).add n = l.add (m.add n) := by
  simp [Stats.add, Nat.add_assoc]

namespace Expansion

open Program.Tree (Held Revised Around)
open Structural (Site Place Expander Expanded standing untouched made entered madeIn)

/-! ## Visiting some nodes -/

section Visits

variable (c : ExpansionContext)

/-- Visiting the nodes `ids` and all that come in their places takes at most `cost` visits and has
the given outcome, whatever is to visit after them. -/
def Visits (cost : Nat) (ids : List NodeId) (session : Session)
    (outcome : Except (Diagnostic × Session) Session) : Prop :=
  (∃ n ≤ cost, ∀ (fuel : Nat) (rest : List NodeId),
    loop c (n + fuel) (ids ++ rest) session = outcome.bind fun s => loop c fuel rest s) ∧
  ∀ rest : List NodeId, visitAll c (ids ++ rest) session
    = match outcome with
      | .error e => some (.error e)
      | .ok s => visitAll c rest s

variable {c} {m n : Nat} {ids ids' : List NodeId} {session session' : Session}
  {outcome : Except (Diagnostic × Session) Session}

theorem Visits.nil : Visits c 0 [] session (.ok session) :=
  ⟨⟨0, Nat.le_refl 0, fun fuel rest => by rw [Nat.zero_add]; rfl⟩, fun _ => rfl⟩

theorem Visits.mono (h : Visits c m ids session outcome) (hmn : m ≤ n) :
    Visits c n ids session outcome := by
  obtain ⟨⟨l, hl, hloop⟩, hpass⟩ := h
  exact ⟨⟨l, Nat.le_trans hl hmn, hloop⟩, hpass⟩

theorem Visits.visit {id : NodeId} (hstep : step c id session = .ok (ids, session'))
    (h : Visits c n ids session' outcome) : Visits c (n + 1) [id] session outcome := by
  obtain ⟨⟨l, hl, hloop⟩, hpass⟩ := h
  refine ⟨⟨l + 1, Nat.add_le_add_right hl 1, fun fuel rest => ?_⟩, fun rest => ?_⟩
  · have hfuel : l + 1 + fuel = (l + fuel) + 1 := by omega
    rw [hfuel, List.singleton_append, loop, hstep]
    exact hloop fuel rest
  · rw [List.singleton_append, visitAll_of_step hstep]
    exact hpass rest

theorem Visits.fail {id : NodeId} {e : Diagnostic × Session} (hstep : step c id session = .error e) :
    Visits c 1 [id] session (.error e) := by
  refine ⟨⟨1, Nat.le_refl 1, fun fuel rest => ?_⟩, fun rest => visitAll_of_error hstep⟩
  rw [Nat.add_comm, List.singleton_append, loop, hstep]
  rfl

theorem Visits.append (h : Visits c m ids session (.ok session'))
    (h' : Visits c n ids' session' outcome) : Visits c (m + n) (ids ++ ids') session outcome := by
  obtain ⟨⟨l, hl, hloop⟩, hpass⟩ := h
  obtain ⟨⟨l', hl', hloop'⟩, hpass'⟩ := h'
  refine ⟨⟨l + l', Nat.add_le_add hl hl', fun fuel rest => ?_⟩, fun rest => ?_⟩
  · rw [Nat.add_assoc, List.append_assoc, hloop]
    exact hloop' fuel rest
  · rw [List.append_assoc, hpass]
    exact hpass' rest

theorem Visits.append_error {e : Diagnostic × Session} (h : Visits c m ids session (.error e)) :
    Visits c m (ids ++ ids') session (.error e) := by
  obtain ⟨⟨l, hl, hloop⟩, hpass⟩ := h
  refine ⟨⟨l, hl, fun fuel rest => ?_⟩, fun rest => ?_⟩
  · rw [List.append_assoc, hloop]
    rfl
  · rw [List.append_assoc, hpass]

/-- Visiting the root of a tree is the pass. -/
theorem Visits.run_eq {t : Tree} (h : Visits c n [t.root] { tree := t } outcome) :
    run c t = outcome := by
  apply run_of_run?
  obtain ⟨-, hpass⟩ := h
  rw [run?, ← List.append_nil [t.root], hpass]
  cases outcome with
  | error e => rfl
  | ok session => exact visitAll_nil c session

end Visits

/-! ## Scenes -/

/-- A layer of the arena in the middle of the pass, with the scopes around it. -/
structure Scene (lines : List Nat) (path : List String) (session : Session) (q : NodeId)
    (k : Kind (Ast NodeId)) : Prop where
  lines_eq : session.tree.lineStarts = lines
  handled_stored : ∀ i ∈ session.handled, i.index < session.tree.size
  held : session.tree.Held (.node q k)
  around : Around session.tree (.node q k) path

/-- The pass has revised a layer, and counted what it did. The statements it made are new. -/
structure Progress (session session' : Session) (q : NodeId) (k k' : Kind (Ast NodeId)) (n : Stats) :
    Prop where
  layer : Revised session.tree session'.tree (.node q k) (.node q k')
  stats_eq : session'.stats = session.stats.add n
  handled_iff : ∀ i : NodeId, i.index < session.tree.size →
    (i ∈ session'.handled ↔ i ∈ session.handled)
  handled_stored : ∀ i ∈ session'.handled, i.index < session'.tree.size

section Scenes

variable {lines : List Nat} {path : List String} {session session' session'' : Session} {q i : NodeId}
  {k k' k'' kb kb' : Kind (Ast NodeId)} {n m : Stats}

theorem Progress.refl (h : Scene lines path session q k) : Progress session session q k k {} :=
  ⟨.refl h.held, (Stats.add_zero _).symm, fun _ _ => Iff.rfl, h.handled_stored⟩

theorem Progress.trans (h : Progress session session' q k k' n)
    (h' : Progress session' session'' q k' k'' m) : Progress session session'' q k k'' (n.add m) where
  layer := h.layer.trans h'.layer
  stats_eq := by rw [h'.stats_eq, h.stats_eq, Stats.add_assoc]
  handled_iff := fun i hi =>
    (h'.handled_iff i (Nat.lt_of_lt_of_le hi h.layer.size_le)).trans (h.handled_iff i hi)
  handled_stored := h'.handled_stored

theorem Progress.isList_eq (h : Progress session session' q k k' n) : k'.isList = k.isList := by
  have houtline : k'.outline = k.outline := h.layer.outline_eq
  rw [← Kind.isList_outline, houtline, Kind.isList_outline]

/-- Stored programs keep their marks. -/
theorem Progress.mapNotes_mark (h : Progress session session' q k k' n) {a : Ast NodeId}
    (ha : ∀ i ∈ a.notes, i.index < session.tree.size) :
    a.mapNotes session'.mark = a.mapNotes session.mark := by
  refine Ast.mapNotes_congr a fun i hi => ?_
  rw [Session.mark, Session.mark, h.layer.span_eq i (ha i hi),
    decide_eq_decide.2 (h.handled_iff i (ha i hi))]

theorem Scene.progress (h : Scene lines path session q k) (hp : Progress session session' q k k' n) :
    Scene lines path session' q k' where
  lines_eq := hp.layer.lines_eq.trans h.lines_eq
  handled_stored := hp.handled_stored
  held := hp.layer.held
  around := h.around.revised h.held hp.layer

theorem Scene.lineOf_eq (h : Scene lines path session q k) (i : NodeId) :
    session.tree.lineOf i = Structural.lineOf lines (session.tree.span i) := by
  rw [Tree.lineOf, Tree.lineOfOffset, h.lines_eq]
  rfl

/-- The scene of a part. -/
theorem Scene.part (h : Scene lines path session q k) (hb : .node i kb ∈ k.children) :
    Scene lines (path ++ (Structural.scopeName? (session.tree.lineOf i) kb).toList) session i kb where
  lines_eq := h.lines_eq
  handled_stored := h.handled_stored
  held := h.held.part hb
  around := by
    have haround := h.around.part h.held hb
    have hkind : session.tree.kind i = kb.map Ast.note := (h.held.part hb).holds.kind_eq
    rwa [Ast.note_node, Tree.scopeName?_eq, hkind, Tree.scopeName?_map] at haround

/-- Progress in a part is progress in the layer that has it. -/
theorem Progress.lift {before after : List (Ast NodeId)} (h : Scene lines path session q k)
    (hk : k.children = before ++ .node i kb :: after) (hp : Progress session session' i kb kb' n) :
    ∃ k' : Kind (Ast NodeId), Progress session session' q k k' n ∧
      k'.children = before ++ [.node i kb'] ++ after := by
  have hb : .node i kb ∈ k.children := by simp [hk]
  have hlayer := hp.layer.graft (.of_mem (a := .node q k) hb) h.held
  have hqi : q ≠ i := fun he => Tree.layer_not_mem_part h.held.nodup hb (he ▸ by simp)
  rw [Ast.note_node, Ast.graft_node, if_neg hqi] at hlayer
  refine ⟨_, ⟨hlayer, hp.stats_eq, hp.handled_iff, hp.handled_stored⟩, ?_⟩
  have hchildren : (k.map fun d => d.graft i (.node i kb')).children
      = before ++ [(Ast.node i kb).graft i (.node i kb')] ++ after :=
    Ast.children_map_graft (b := .node i kb) h.held.nodup hk (by simp)
  rw [hchildren, Ast.graft_node, if_pos rfl]

end Scenes

/-! ## Simulation -/

/-- Visiting nodes of a layer between `before` and `after` has the given outcome: a failure, or
programs that stand in the layer instead, with the log statements `logs` in them. -/
def Reaches (c : ExpansionContext) (session : Session) (q : NodeId) (k : Kind (Ast NodeId))
    (before after : List (Ast NodeId)) (cost : Nat) (ids : List NodeId) (logs : List (Ast Span)) :
    Expanded → Prop
  | .error d => ∃ session', Visits c cost ids session (.error (d, session'))
  | .ok (xs, n) => ∃ (session' : Session) (k' : Kind (Ast NodeId)) (ys : List (Ast NodeId)),
      Visits c cost ids session (.ok session') ∧ Progress session session' q k k' n ∧
        k'.children = before ++ ys ++ after ∧ ys.map (Ast.mapNotes session'.tree.span) = xs ∧
        (ys.map (Ast.mapNotes session'.mark)).flatMap madeIn = logs

/-- Wherever programs with the marks `current` stand in a layer, visiting them has the given
outcome. -/
def Simulates (c : ExpansionContext) (lines : List Nat) (inList : Bool) (path : List String)
    (cost : Nat) (current : List (Ast Mark)) (logs : List (Ast Span)) (result : Expanded) : Prop :=
  ∀ (session : Session) (q : NodeId) (k : Kind (Ast NodeId)) (before stand after : List (Ast NodeId)),
    Scene lines path session q k → k.isList = inList → k.children = before ++ stand ++ after →
    stand.map (Ast.mapNotes session.mark) = current →
    Reaches c session q k before after cost (stand.map Ast.note) logs result

section Simulation

variable {c : ExpansionContext} {lines : List Nat} {inList : Bool} {path : List String}
  {cost cost' : Nat} {current current' : List (Ast Mark)} {result result' : Expanded}
  {session session' : Session} {q : NodeId} {k k' : Kind (Ast NodeId)}
  {before after : List (Ast NodeId)} {ids : List NodeId} {n : Stats} {logs logs' : List (Ast Span)}

theorem Reaches.mono (h : Reaches c session q k before after cost ids logs result) (hle : cost ≤ cost') :
    Reaches c session q k before after cost' ids logs result := by
  match result, h with
  | .error d, ⟨session', hv⟩ => exact ⟨session', hv.mono hle⟩
  | .ok (xs, n), ⟨session', k', ys, hv, hrest⟩ => exact ⟨session', k', ys, hv.mono hle, hrest⟩

theorem Simulates.mono (h : Simulates c lines inList path cost current logs result) (hle : cost ≤ cost') :
    Simulates c lines inList path cost' current logs result :=
  fun session q k before stand after hscene hlist hk hcurrent =>
    (h session q k before stand after hscene hlist hk hcurrent).mono hle

/-- What is reached after one visit. -/
theorem Reaches.visit {p : NodeId} (hstep : step c p session = .ok (ids, session'))
    (hp : Progress session session' q k k' n)
    (h : Reaches c session' q k' before after cost ids logs result) :
    Reaches c session q k before after (cost + 1) [p] logs (Structural.wrapped id n result) := by
  match result, h with
  | .error d, ⟨session'', hv⟩ => exact ⟨session'', hv.visit hstep⟩
  | .ok (xs, m), ⟨session'', k'', ys, hv, hp', hrest⟩ =>
      exact ⟨session'', k'', ys, hv.visit hstep, hp.trans hp', hrest⟩

/-- What is reached after a node was entered. -/
theorem Reaches.enter {p : NodeId} (hstep : step c p session = .ok (ids, session))
    (h : Reaches c session q k before after cost ids logs result) :
    Reaches c session q k before after (cost + 1) [p] logs result := by
  match result, h with
  | .error d, ⟨session', hv⟩ => exact ⟨session', hv.visit hstep⟩
  | .ok (xs, n), ⟨session', k', ys, hv, hrest⟩ => exact ⟨session', k', ys, hv.visit hstep, hrest⟩

/-- What is reached inside of a part is reached in the layer that has it. -/
theorem Reaches.lift {i : NodeId} {kb : Kind (Ast NodeId)} (hscene : Scene lines path session q k)
    (hk : k.children = before ++ .node i kb :: after) (hi : i ∉ session.handled)
    (h : Reaches c session i kb [] [] cost ids logs result) :
    Reaches c session q k before after cost ids logs
      (Structural.wrapped (fun xs => [.node (session.tree.span i) (kb.refill xs)]) {} result) := by
  match result, h with
  | .error d, ⟨session', hv⟩ => exact ⟨session', hv⟩
  | .ok (xs, n), ⟨session', kb', ys, hv, hp, hkb', hys, hlogs⟩ =>
      obtain ⟨k', hp', hk'⟩ := hp.lift hscene hk
      rw [← Stats.zero_add n] at hp'
      have hlt : i.index < session.tree.size :=
        (hscene.held.part (c := .node i kb) (by simp [hk])).holds.note_stored
      have houtline : (kb'.map (Ast.mapNotes session'.tree.span)).outline = kb.outline := by
        rw [Kind.outline_map]
        exact hp.layer.outline_eq
      have hys' : kb'.children = ys := by simpa using hkb'
      refine ⟨session', k', [.node i kb'], hv, hp', hk', ?_, ?_⟩
      · rw [List.map_singleton, Ast.mapNotes_node, hp.layer.span_eq i hlt,
          Kind.eq_refill_of_outline houtline, Kind.children_map, hys', hys]
      · rw [List.map_singleton, List.flatMap_singleton, Ast.mapNotes_node,
          Session.mark_of_not_handled ((hp.handled_iff i hlt).not.2 hi), Structural.madeIn_node,
          Kind.children_map, hys', hlogs]

theorem Simulates.nil : Simulates c lines inList path 0 [] [] (.ok ([], {})) := by
  intro session q k before stand after hscene _ hk hcurrent
  obtain rfl := List.map_eq_nil_iff.1 hcurrent
  exact ⟨session, k, [], .nil, .refl hscene, hk, rfl, rfl⟩

/-- Programs that stand side by side are visited one after the other. -/
theorem Simulates.append (h : Simulates c lines inList path cost current logs result)
    (h' : Simulates c lines inList path cost' current' logs' result') :
    Simulates c lines inList path (cost + cost') (current ++ current') (logs ++ logs')
      (Structural.andThen result fun _ => result') := by
  intro session q k before stand after hscene hlist hk hcurrent
  obtain ⟨first, second, rfl, hfirst, hsecond⟩ := List.map_eq_append_iff.1 hcurrent
  have hk₁ : k.children = before ++ first ++ (second ++ after) := by simp [hk]
  have hreach := h session q k before first (second ++ after) hscene hlist hk₁ hfirst
  rw [List.map_append]
  match result, hreach with
  | .error d, ⟨session', hv⟩ =>
      exact ⟨session', hv.append_error.mono (Nat.le_add_right _ _)⟩
  | .ok (xs, n), ⟨session', k', ys, hv, hp, hk', hys, hlogs⟩ =>
      have hk₂ : k'.children = (before ++ ys) ++ second ++ after := by simp [hk']
      have hlist' := hp.isList_eq.trans hlist
      have hstored : ∀ b ∈ second, ∀ i ∈ b.notes, i.index < session.tree.size := fun b hb =>
        (hscene.held.part (c := b) (by simp [hk, hb])).holds.stored
      have hsecond' : second.map (Ast.mapNotes session'.mark) = current' := by
        rw [← hsecond]
        exact List.map_congr_left fun b hb => hp.mapNotes_mark (hstored b hb)
      have hreach' := h' session' q k' (before ++ ys) second after (hscene.progress hp) hlist' hk₂
        hsecond'
      match result', hreach' with
      | .error d, ⟨session'', hv'⟩ => exact ⟨session'', hv.append hv'⟩
      | .ok (xs', m), ⟨session'', k'', ys', hv', hp', hk'', hys', hlogs'⟩ =>
          have hheld : ∀ y ∈ ys, session'.tree.Holds y := fun y hy =>
            (hp.layer.held.part (c := y) (by simp [hk', hy])).holds
          refine ⟨session'', k'', ys ++ ys', hv.append hv', hp.trans hp', by simp [hk''], ?_, ?_⟩
          · rw [List.map_append, hys', ← hys]
            exact congrArg (· ++ xs') (List.map_congr_left fun y hy =>
              hp'.layer.mapNotes_span (hheld y hy))
          · rw [List.map_append, List.flatMap_append, hlogs', ← hlogs]
            exact congrArg (·.flatMap madeIn ++ logs') (List.map_congr_left fun y hy =>
              hp'.mapNotes_mark (hheld y hy).stored)

theorem Simulates.inTurn {f : Expander → Expanded} {g : Ast Span → Ast Mark}
    {l : Ast Span → List (Ast Span)} :
    ∀ es : List (Ast Span),
      (∀ e ∈ es, Simulates c lines inList path e.notes.length [g e] (l e)
        (f (Structural.expander c lines e))) →
      Simulates c lines inList path (es.flatMap Ast.notes).length (es.map g) (es.flatMap l)
        (Structural.inTurn f (es.map (Structural.expander c lines))) := by
  intro es
  induction es with
  | nil => intro _; exact .nil
  | cons e es ih =>
      intro h
      rw [List.flatMap_cons, List.length_append]
      exact (h e List.mem_cons_self).append (ih fun d hd => h d (List.mem_cons_of_mem _ hd))

/-- A statement made in the pass is passed over. -/
theorem Simulates.made (a : Ast Span) :
    Simulates c lines inList path 1 [made a] [a] (.ok ([a], {})) := by
  intro session q k before stand after hscene _ hk hcurrent
  obtain ⟨b, rfl, hb⟩ := List.map_eq_singleton_iff.1 hcurrent
  have hhandled : b.note ∈ session.handled := by
    have hnote := congrArg (fun m : Ast Mark => m.note.2) hb
    simpa [Session.mark, Structural.made] using hnote
  refine ⟨session, k, [b], .visit (step_handled hhandled) .nil, .refl hscene, hk, ?_, ?_⟩
  · rw [List.map_singleton, ← session.mapNotes_fst_mark, hb, Structural.mapNotes_fst_made]
  · rw [List.map_singleton, List.flatMap_singleton, hb, Structural.madeIn_made]

/-- A node that is neither a label of a log statement nor made in the pass is entered. -/
theorem Simulates.parts (hc : c.table = LabelTable.defaults) {s : Span} {km : Kind (Ast Mark)}
    (hlabel : Purity.isKnownLabel Structural.known km = false)
    (h : Simulates c lines km.isList
      (path ++ (Structural.scopeName? (Structural.lineOf lines s) km).toList) cost km.children logs
      result) :
    Simulates c lines inList path (cost + 1) [.node (s, false) km] logs
      (Structural.wrapped (fun xs => [.node s (km.refill xs)]) {} result) := by
  intro session q k before stand after hscene _ hk hcurrent
  obtain ⟨b, rfl, hb⟩ := List.map_eq_singleton_iff.1 hcurrent
  cases b with
  | node i kb =>
      rw [Ast.mapNotes_node, Ast.node.injEq, Session.mark, Prod.mk.injEq,
        decide_eq_false_iff_not] at hb
      obtain ⟨⟨hspan, hhandled⟩, rfl⟩ := hb
      have hmem : Ast.node i kb ∈ k.children := by simp [hk]
      have hpart := hscene.part hmem
      rw [hscene.lineOf_eq, hspan] at hpart
      rw [Tree.scopeName?_map, Kind.isList_map, Kind.children_map] at h
      rw [isKnownLabel_map] at hlabel
      have hkind : session.tree.kind i = kb.map Ast.note := (hscene.held.part hmem).holds.kind_eq
      have hstep : step c i session = .ok (kb.children.map Ast.note, session) := by
        rw [step_other hhandled, hkind, Kind.children_map]
        rw [hkind, isKnownLabel_map]
        unfold ExpansionContext.known
        rw [hc]
        exact hlabel
      have hk' : k.children = before ++ .node i kb :: after := by simpa using hk
      have hreach := (h session i kb [] kb.children [] hpart rfl (by simp) rfl).lift hscene hk'
        hhandled
      have hrefill : ∀ xs : List (Ast Span),
          (kb.map (Ast.mapNotes session.mark)).refill xs = kb.refill xs := by
        intro xs
        rw [← Kind.refill_outline, Kind.outline_map, Kind.refill_outline]
      rw [hspan] at hreach
      simp only [hrefill]
      exact hreach.enter hstep

/-! ## Labels -/

theorem label?_eq (hc : c.table = LabelTable.defaults) {label : String} {meaning : Level × Bool}
    (h : Structural.label? label = some meaning) :
    c.table.get? label = some (.builtin meaning.1 meaning.2) := by
  unfold Structural.label? at h
  rw [hc]
  split at h
  · next level values hget =>
      obtain rfl := Option.some.inj h
      exact hget
  · cases h

theorem known_eq (hc : c.table = LabelTable.defaults) : c.known = Structural.known := by
  unfold ExpansionContext.known
  rw [hc]
  rfl

variable {s : Span} {label : String} {meaning : Level × Bool} {bm : Ast Mark}

/-- The label with given marks. -/
theorem exists_label {stand : List (Ast NodeId)}
    (h : stand.map (Ast.mapNotes session.mark) = [.node (s, false) (.labeled label bm)]) :
    ∃ (p : NodeId) (body : Ast NodeId), stand = [.node p (.labeled label body)] ∧
      session.tree.span p = s ∧ p ∉ session.handled ∧ body.mapNotes session.mark = bm := by
  obtain ⟨b, rfl, hb⟩ := List.map_eq_singleton_iff.1 h
  cases b with
  | node p kb =>
      rw [Ast.mapNotes_node, Ast.node.injEq, Session.mark, Prod.mk.injEq,
        decide_eq_false_iff_not] at hb
      obtain ⟨⟨hspan, hhandled⟩, hkind⟩ := hb
      cases kb with
      | labeled l body =>
          rw [Kind.map, Kind.labeled.injEq] at hkind
          obtain ⟨rfl, hbody⟩ := hkind
          exact ⟨p, body, rfl, hspan, hhandled, hbody⟩
      | _ => simp [Kind.map] at hkind

/-- Visiting a label is processing it. -/
theorem step_builtin (hc : c.table = LabelTable.defaults)
    (hmeaning : Structural.label? label = some meaning) {p : NodeId} {body : Ast NodeId}
    (hheld : session.tree.Held (.node p (.labeled label body))) (hhandled : p ∉ session.handled) :
    step c p session
      = process c p label body.note (.builtin meaning.1 meaning.2) session :=
  step_label hhandled hheld.holds.kind_eq (label?_eq hc hmeaning)

/-- A stripped label leaves nothing, or an empty statement in a single slot. -/
theorem Simulates.stripped (hc : c.table = LabelTable.defaults)
    (hmeaning : Structural.label? label = some meaning)
    (hstrip : Structural.strips c label path = true) :
    Simulates c lines inList path 1 [.node (s, false) (.labeled label bm)] []
      (.ok (if inList then [] else [.node s .empty], ⟨1, 1, 0⟩)) := by
  intro session q k before stand after hscene hlist hk hcurrent
  obtain ⟨p, body, rfl, hspan, hhandled, -⟩ := exists_label hcurrent
  have hmem : Ast.node p (.labeled label body) ∈ k.children := by simp [hk]
  have hk' : k.children = before ++ .node p (.labeled label body) :: after := by simpa using hk
  have hshould := shouldStrip_eq (c := c) hscene.around hscene.held hmem label
  rw [hstrip] at hshould
  obtain ⟨t', hok, hreplaced⟩ :=
    process_stripped (s := .builtin meaning.1 meaning.2) hscene.held hmem hshould
  have hrevised := hreplaced.revised hscene.held hmem (.refl [] _) (by simp) (by simp)
  have hchildren := Tree.children_swap_of_nodup hscene.held.nodup hk' [] (session.tree.gathered [])
  have hstep := (step_builtin hc hmeaning (hscene.held.part hmem) hhandled).trans hok
  refine ⟨_, _, _, .visit hstep .nil, ⟨hrevised, rfl, fun _ _ => Iff.rfl, fun i hi => ?_⟩, hchildren,
    ?_, ?_⟩
  · exact Nat.lt_of_lt_of_le (hscene.handled_stored i hi) hreplaced.size_le
  · rw [hlist]
    cases inList with
    | true => rfl
    | false =>
        have hnew : (⟨session.tree.size⟩ : NodeId).index < t'.size := by
          refine (hrevised.held.part (c := session.tree.gathered []) ?_).holds.note_stored
          rw [Ast.kind_node, hchildren, hlist]
          simp
        have hnewSpan := hreplaced.new_span ⟨session.tree.size⟩ (Nat.le_refl _) hnew
        rw [Ast.note_node, hspan] at hnewSpan
        simp [Tree.gathered, Kind.map, hnewSpan]
  · -- The empty statement of a single slot is new, and nothing was made of it.
    have hnew : (⟨session.tree.size⟩ : NodeId) ∉ session.handled := fun hmem =>
      Nat.lt_irrefl _ (hscene.handled_stored _ hmem)
    rw [hlist]
    cases inList with
    | true => rfl
    | false =>
        simp only [Tree.gathered, Bool.false_eq_true, if_false, List.map_singleton,
          List.flatMap_singleton, Ast.mapNotes_node]
        rw [Session.mark_of_not_handled (by exact hnew), Structural.madeIn_node]
        rfl

/-- A label with a forbidden construct in its region fails. -/
theorem Simulates.impure (hc : c.table = LabelTable.defaults)
    (hmeaning : Structural.label? label = some meaning)
    (hstrip : Structural.strips c label path = false) {sb : Span} {construct : String}
    (hbreach : (Structural.breaches (bm.mapNotes Prod.fst)).head? = some (sb, construct)) :
    Simulates c lines inList path 1 [.node (s, false) (.labeled label bm)] logs
      (.error ⟨.sideEffect construct label c.file.filename (Structural.lineOf lines sb), some sb⟩) := by
  intro session q k before stand after hscene _ hk hcurrent
  obtain ⟨p, body, rfl, -, hhandled, rfl⟩ := exists_label hcurrent
  have hmem : Ast.node p (.labeled label body) ∈ k.children := by simp [hk]
  have hheld := hscene.held.part hmem
  have hshould := shouldStrip_eq (c := c) hscene.around hscene.held hmem label
  rw [hstrip] at hshould
  rw [session.mapNotes_fst_mark, Structural.breaches_mapNotes, List.head?_map,
    Option.map_eq_some_iff] at hbreach
  obtain ⟨⟨i, construct'⟩, hhead, hpair⟩ := hbreach
  obtain ⟨rfl, rfl⟩ := Prod.mk.inj hpair
  rw [← Structural.violations_eq, ← known_eq hc] at hhead
  have hfail := process_impure (s := .builtin meaning.1 meaning.2)
    (hheld.part (c := body) (List.mem_singleton.2 rfl)) hshould hhead
  have hstep := (step_builtin hc hmeaning hheld hhandled).trans hfail
  rw [hscene.lineOf_eq] at hstep
  exact ⟨_, .fail hstep⟩

/-! ## Expanded labels -/

/-- A made statement is marked at its top only. -/
theorem mapNotes_made {a : Ast NodeId} (htop : a.note ∈ session.handled)
    (hinner : ∀ i ∈ a.inner, i ∉ session.handled) :
    a.mapNotes session.mark = made (a.mapNotes session.tree.span) := by
  cases a with
  | node i k =>
      have hparts : ∀ b ∈ k.children,
          b.mapNotes session.mark = untouched (b.mapNotes session.tree.span) := by
        intro b hb
        rw [untouched, Ast.mapNotes_mapNotes]
        refine Ast.mapNotes_congr b fun j hj => ?_
        simp [Session.mark, hinner j (List.mem_flatMap.2 ⟨b, hb, hj⟩)]
      have hmark : session.mark i = (session.tree.span i, true) := by
        rw [Ast.note_node] at htop
        simp [Session.mark, htop]
      rw [Ast.mapNotes_node, Kind.map_congr hparts, hmark, Structural.made, Ast.mapNotes_node,
        Ast.note_node, Ast.kind_node, Kind.map_map]

/-- A program whose marks say that it is unchanged has no node made in the pass. -/
theorem not_handled_of_untouched {body : Ast NodeId} {x : Ast Span}
    (h : body.mapNotes session.mark = untouched x) : ∀ i ∈ body.notes, i ∉ session.handled := by
  intro i hi
  have hnotes := congrArg Ast.notes h
  rw [untouched, Ast.notes_mapNotes, Ast.notes_mapNotes] at hnotes
  have hmem : session.mark i ∈ body.notes.map session.mark := List.mem_map.2 ⟨i, hi, rfl⟩
  rw [hnotes, List.mem_map] at hmem
  obtain ⟨sp, -, hsp⟩ := hmem
  have hmark := congrArg Prod.snd hsp
  simpa [Session.mark] using hmark.symm

section Region

variable {body : Ast NodeId} {x : Ast Span} {pairs : List (Ast NodeId × Ast NodeId)}
  {t₁ t₂ : Tree} {level : Level} {values : Bool} {m : Metadata}

/-- The statements made for a label are new. -/
theorem made_new (hpairs : pairs.map Prod.fst = bodyRegion c.known session.handled body)
    (hmade : ∀ pair ∈ pairs, Made c (.builtin level values) m session.tree t₁ pair.1 pair.2) :
    ∀ i ∈ (pairs.map fun p => p.2.note).reverse, session.tree.size ≤ i.index ∧ i.index < t₁.size := by
  intro i hi
  obtain ⟨pair, hpair, rfl⟩ := List.mem_map.1 (List.mem_reverse.1 hi)
  have hregion : pair.1 ∈ bodyRegion c.known session.handled body :=
    hpairs ▸ List.mem_map.2 ⟨pair, hpair, rfl⟩
  obtain ⟨y, hy⟩ := (bodyRegion_part hregion).2
  exact ⟨((hmade pair hpair).builtin hy).1, (hmade pair hpair).stored _ (Ast.note_mem_notes _)⟩

/-- Expanding a label is progress in the layer that has it. -/
theorem progress_expandedSession (hscene : Scene lines path session q k)
    (hpairs : pairs.map Prod.fst = bodyRegion c.known session.handled body)
    (hmade : ∀ pair ∈ pairs, Made c (.builtin level values) m session.tree t₁ pair.1 pair.2)
    (hgrows : Tree.Grows t₁ t₂) (hlayer : Revised session.tree t₂ (.node q k) (.node q k')) :
    Progress session (expandedSession session t₂ pairs) q k k' ⟨1, 0, pairs.length⟩ := by
  have hnew := made_new hpairs hmade
  refine ⟨hlayer, rfl, fun i hi => ?_, fun i hi => ?_⟩
  · rw [expandedSession, List.mem_append, or_iff_right fun hmem => Nat.not_lt.2 (hnew i hmem).1 hi]
  · rcases List.mem_append.1 hi with hi | hi
    · exact Nat.lt_of_lt_of_le (hnew i hi).2 hgrows.size_le
    · exact Nat.lt_of_lt_of_le (hscene.handled_stored i hi) hlayer.size_le

/-- Expanding a region that nothing was made in: what stands there was entered from the site of the
label. -/
theorem mapNotes_graftAll (hc : c.table = LabelTable.defaults) (hbody : session.tree.Held body)
    (hstored : ∀ i ∈ session.handled, i.index < session.tree.size)
    (hx : body.mapNotes session.mark = untouched x)
    (hpairs : pairs.map Prod.fst = bodyRegion c.known session.handled body)
    (hnodup : ((pairs.map Prod.snd).flatMap Ast.notes).Nodup)
    (hmade : ∀ pair ∈ pairs, Made c (.builtin level values) m session.tree t₁ pair.1 pair.2)
    (hm : m.filename = c.file.filename ∧ m.filepath = c.file.filepath)
    (hgrows : Tree.Grows session.tree t₁) (hgrows' : Tree.Grows t₁ t₂) :
    (body.graftAll pairs).mapNotes (expandedSession session t₂ pairs).mark
      = entered c ⟨level, values, m.line, m.parentPath⟩ x := by
  have hnew := made_new hpairs hmade
  rw [known_eq hc] at hpairs
  have hfresh := not_handled_of_untouched hx
  have hspans : body.mapNotes session.tree.span = x := by
    rw [← session.mapNotes_fst_mark, hx, Structural.mapNotes_fst_untouched]
  have hregion : ∀ pair ∈ pairs, pair.1 ∈ bodyRegion Structural.known session.handled body :=
    fun pair hpair => hpairs ▸ List.mem_map.2 ⟨pair, hpair, rfl⟩
  have hapart : ((bodyRegion Structural.known session.handled body).flatMap Ast.notes).Nodup :=
    bodyRegion_nodup hbody.nodup
  have hold : ∀ e ∈ bodyRegion Structural.known session.handled body, ∀ i ∈ e.notes,
      i ∈ body.notes := fun e he i hi => (bodyRegion_part he).1.notes_subset hi
  rw [graftAll_eq_subst_of_made hbody hpairs hmade, ← hspans]
  refine Structural.subst_entered hbody.nodup hfresh (fun i hi => ?_) (fun i _ => ?_) ?_
  · have hlt := hbody.holds.stored i hi
    have hnone : i ∉ (pairs.map fun p => p.2.note).reverse ++ session.handled := by
      rw [List.mem_append, not_or]
      exact ⟨fun hmem => Nat.not_lt.2 (hnew i hmem).1 hlt, hfresh i hi⟩
    simp only [Session.mark, expandedSession, hnone, decide_false]
    rw [(hgrows.trans hgrows').span_eq i hlt]
  · rw [Ast.replacement_isSome, hpairs]
  · intro e he made' y hf hy
    obtain ⟨p, hp, hnote, rfl⟩ := Ast.mem_of_replacement hf
    obtain rfl : p.1 = e := Tree.eq_of_nodup_flatMap hapart (hregion p hp) he p.1.note_mem_notes
      (hnote ▸ e.note_mem_notes)
    have hp' := hmade p hp
    obtain ⟨-, hspan⟩ := hp'.builtin hy
    rw [mapNotes_made]
    · have hsame : p.2.mapNotes (expandedSession session t₂ pairs).tree.span
          = p.2.mapNotes t₁.span :=
        Ast.mapNotes_congr _ fun i hi => hgrows'.span_eq i (hp'.stored i hi)
      rw [hsame, hspan, hm.1, hm.2]
      rfl
    · rw [expandedSession, List.mem_append, List.mem_reverse]
      exact Or.inl (List.mem_map.2 ⟨p, hp, rfl⟩)
    · intro i hi hmem
      rcases List.mem_append.1 hmem with hmem | hmem
      · obtain ⟨p', hp', rfl⟩ := List.mem_map.1 (List.mem_reverse.1 hmem)
        exact Tree.note_not_mem_inner_of_nodup hnodup (List.mem_map.2 ⟨p, hp, rfl⟩)
          (List.mem_map.2 ⟨p', hp', rfl⟩) hi
      · rcases hp'.origin i (Ast.mem_notes_of_inner hi) with hin | hge
        · exact hfresh i (hold _ (hregion p hp) i (Ast.mem_notes_of_inner hin)) hmem
        · exact Nat.not_lt.2 hge (hstored i hmem)

end Region

/-- What stands in the place of an expanded label is visited with the given outcome. In a single slot
one program with the span `s` of the label stands for several or none. -/
def SimulatesBody (c : ExpansionContext) (lines : List Nat) (inList : Bool) (path : List String)
    (s : Span) (cost : Nat) (current : List (Ast Mark)) (logs : List (Ast Span)) (result : Expanded) :
    Prop :=
  match inList, current with
  | true, current => Simulates c lines true path cost current logs result
  | false, [] => logs = [] ∧ result = .ok ([.node s .empty], {})
  | false, [m] => Simulates c lines false path cost [m] logs result
  | false, current => ∃ inner, Simulates c lines true path cost current logs inner ∧
      result = Structural.wrapped (fun xs => [.node s (.block xs)]) {} inner

theorem SimulatesBody.mono (h : SimulatesBody c lines inList path s cost current logs result)
    (hle : cost ≤ cost') : SimulatesBody c lines inList path s cost' current logs result := by
  match inList, current, h with
  | true, _, h => exact Simulates.mono h hle
  | false, [], h => exact h
  | false, [_], h => exact Simulates.mono h hle
  | false, _ :: _ :: _, ⟨inner, hinner, hresult⟩ => exact ⟨inner, hinner.mono hle, hresult⟩

theorem SimulatesBody.reaches {t₁ : Tree} {rs : List (Ast NodeId)}
    (h : SimulatesBody c lines inList path s cost (rs.map (Ast.mapNotes session.mark)) logs result)
    (hscene : Scene lines path session q k) (hlist : k.isList = inList)
    (hk : k.children = before ++ (if inList then rs else [t₁.gathered rs]) ++ after)
    (hspan : (⟨t₁.size⟩ : NodeId).index < session.tree.size → session.tree.span ⟨t₁.size⟩ = s)
    (hnone : (⟨t₁.size⟩ : NodeId) ∉ session.handled) :
    Reaches c session q k before after cost (rs.map Ast.note) logs result := by
  match inList, rs, h with
  | true, rs, h => exact h session q k before rs after hscene hlist hk rfl
  | false, [], ⟨hlogs, hresult⟩ =>
      subst hlogs hresult
      refine ⟨session, k, _, Visits.nil.mono (Nat.zero_le _), .refl hscene, hk, ?_, ?_⟩
      · have hnew : (⟨t₁.size⟩ : NodeId).index < session.tree.size :=
          (hscene.held.part (c := t₁.gathered []) (by simp [hk])).holds.note_stored
        simp [Tree.gathered, Kind.map, hspan hnew]
      · simp only [Tree.gathered, Bool.false_eq_true, if_false, List.map_singleton,
          List.flatMap_singleton, Ast.mapNotes_node]
        rw [Session.mark_of_not_handled hnone, Structural.madeIn_node]
        rfl
  | false, [r], h => exact h session q k before [r] after hscene hlist hk rfl
  | false, r :: r' :: rs, ⟨inner, hinner, hresult⟩ =>
      subst hresult
      have hmem : Ast.node ⟨t₁.size⟩ (.block (r :: r' :: rs)) ∈ k.children := by
        simp [hk, Tree.gathered]
      have hk' : k.children = before ++ .node ⟨t₁.size⟩ (.block (r :: r' :: rs)) :: after := by
        simpa [Tree.gathered] using hk
      have hpart := hscene.part hmem
      rw [show (Structural.scopeName? (session.tree.lineOf ⟨t₁.size⟩)
        (Kind.block (r :: r' :: rs))).toList = [] from rfl, List.append_nil] at hpart
      have hreach := (hinner session ⟨t₁.size⟩ _ [] (r :: r' :: rs) [] hpart rfl
        (by simp [Kind.children]) rfl).lift hscene hk' hnone
      rw [hspan (hscene.held.part hmem).holds.note_stored] at hreach
      exact hreach

/-- Any other label is expanded: what stood in the place of its body `x` is entered from the site of
the label unless it was entered before, and takes the place of the label. -/
theorem Simulates.expanded (hc : c.table = LabelTable.defaults)
    (hmeaning : Structural.label? label = some meaning)
    (hstrip : Structural.strips c label path = false) {place : Place} {x : Ast Span}
    (hpure : (Structural.breaches x).head? = none)
    (h : SimulatesBody c lines inList path s cost
      (entered c (place.site.getD ⟨meaning.1, meaning.2, Structural.lineOf lines s, path⟩) x).unwrapped
      logs result) :
    Simulates c lines inList path (cost + 1) [.node (s, false) (.labeled label (standing c place x))]
      logs
      (Structural.wrapped id
        ⟨1, 0, if place.site.isNone then Structural.regionCount x else 0⟩ result) := by
  intro session q k before stand after hscene hlist hk hcurrent
  obtain ⟨p, body, rfl, hspan, hhandled, hbody⟩ := exists_label hcurrent
  have hk' : k.children = before ++ .node p (.labeled label body) :: after := by simpa using hk
  have hmem : Ast.node p (.labeled label body) ∈ k.children := by simp [hk']
  have hheld := hscene.held.part hmem
  have hbodyHeld := hheld.part (c := body) (List.mem_singleton.2 rfl)
  have hshould := shouldStrip_eq (c := c) hscene.around hscene.held hmem label
  rw [hstrip] at hshould
  have hpure' : (Purity.violations c.known body).head? = none := by
    have hbreaches := Structural.breaches_standing (c := c) place x
    rw [← hbody, session.mapNotes_fst_mark, Structural.breaches_mapNotes] at hbreaches
    rw [← hbreaches, List.head?_map, Option.map_eq_none_iff] at hpure
    rw [known_eq hc, Structural.violations_eq, hpure]
  obtain ⟨pairs, t₁, t₂, k', hpairs, hok, hnodup, hmade, hun⟩ :=
    process_pure (s := .builtin meaning.1 meaning.2) (fun _ h => by cases h) hscene.held hk' hshould
      hpure'
  have hstep := (step_builtin hc hmeaning hheld hhandled).trans hok
  have hcount : pairs.length
      = if place.site.isNone then Structural.regionCount x else 0 := by
    have hlength := Structural.length_bodyRegion session body
    rw [← known_eq hc, ← hpairs, List.length_map, hbody] at hlength
    rw [hlength]
    cases hsite : place.site with
    | none => rw [Structural.standing_of_none hsite, Structural.openBodyCount_untouched]; rfl
    | some site => rw [Structural.standing_of_some hsite, Structural.openBodyCount_entered]; rfl
  have hprogress := progress_expandedSession hscene hpairs hmade hun.grows hun.layer
  have hmarks : (body.graftAll pairs).mapNotes (expandedSession session t₂ pairs).mark
      = entered c (place.site.getD ⟨meaning.1, meaning.2, Structural.lineOf lines s, path⟩) x := by
    cases hsite : place.site with
    | none =>
        rw [Structural.standing_of_none hsite] at hbody
        have hentered := mapNotes_graftAll hc hbodyHeld hscene.handled_stored hbody hpairs hnodup hmade
          ⟨rfl, rfl⟩ hun.label.toGrows hun.grows
        have hpath : (metadataOf c session p).parentPath = path :=
          metadataOf_path hscene.around hscene.held hmem
        have hline : (metadataOf c session p).line = Structural.lineOf lines s := by
          rw [← hspan]
          exact hscene.lineOf_eq p
        rwa [hpath, hline] at hentered
    | some site =>
        rw [hsite] at hcount
        obtain rfl := List.length_eq_zero_iff.1 hcount
        rw [Structural.standing_of_some hsite] at hbody
        rw [Ast.graftAll_nil, hprogress.mapNotes_mark hbodyHeld.holds.stored, hbody]
        rfl
  have hchildren := hun.children
  rw [hlist] at hchildren
  rw [← hcount]
  refine Reaches.visit hstep hprogress (SimulatesBody.reaches (s := s) ?_ (hscene.progress hprogress)
    (hprogress.isList_eq.trans hlist) hchildren (fun hlt => ?_) fun hmem => ?_)
  · rw [← Ast.unwrapped_mapNotes, hmarks]
    exact h
  · have hlabelSpan := hun.new_span ⟨t₁.size⟩ (Nat.le_refl _) hlt
    rw [Ast.note_node, hun.label.span_eq p hheld.holds.note_stored, hspan] at hlabelSpan
    exact hlabelSpan
  · -- The node that stands for several statements or none is newer than all that was made.
    rcases List.mem_append.1 hmem with hmem | hmem
    · exact Nat.lt_irrefl _ (made_new hpairs hmade _ hmem).2
    · exact Nat.not_lt.2 hun.label.size_le (hscene.handled_stored _ hmem)

/-! ## The whole recursion -/

theorem source_expander (a : Ast Span) : (Structural.expander c lines a).source = a := by
  induction a using Ast.induction with
  | node s k ih =>
      rw [Structural.expander, Ast.fold_node, Structural.expanderStep, Kind.map_map]
      exact congrArg _ ((Kind.map_congr ih).trans k.map_id)

theorem expand_node (s : Span) (ka : Kind (Ast Span)) (place : Place) :
    (Structural.expander c lines (.node s ka)).expand inList place
      = Structural.expandNode c lines inList place s (ka.map (Structural.expander c lines)) := by
  rw [Structural.expander, Ast.fold_node]
  rfl

theorem unwrap_node (s l : Span) (ka : Kind (Ast Span)) (place : Place) :
    (Structural.expander c lines (.node s ka)).unwrap inList l place
      = Structural.unwrapNode c lines inList l place s (ka.map (Structural.expander c lines)) := by
  rw [Structural.expander, Ast.fold_node]
  rfl

/-- The recursion over a program is simulated, at every place and in the place of a label with the
program as its body. -/
def Simulated (c : ExpansionContext) (lines : List Nat) (a : Ast Span) : Prop :=
  (∀ (inList : Bool) (place : Place),
    Simulates c lines inList place.path a.notes.length [standing c place a]
      (Structural.logs c lines a place) ((Structural.expander c lines a).expand inList place)) ∧
  ∀ (inList : Bool) (l : Span) (path : List String) (site : Site),
    SimulatesBody c lines inList path l a.notes.length (entered c site a).unwrapped
      (Structural.logs c lines a ⟨path, some site⟩) ((Structural.expander c lines a).unwrap inList l ⟨path, some site⟩)

theorem Place.path_enter (place : Place) (a : Ast Span) : (place.enter a).path = place.path := by
  unfold Structural.Place.enter
  split <;> rfl

/-- What stands at a place does not depend on the scopes around it. -/
theorem standing_enter_path (place : Place) (path : List String) (a : Ast Span) :
    standing c (Structural.Place.enter { place with path := path } a) a
      = standing c (place.enter a) a := by
  by_cases ha : Structural.isLabel a = true <;> simp [Structural.Place.enter, ha, standing]

/-- The parts of a list of statements in a region. -/
theorem simulates_inTurn {es : List (Ast Span)} (ih : ∀ e ∈ es, Simulated c lines e) (inList : Bool)
    (place : Place) :
    Simulates c lines inList place.path (es.flatMap Ast.notes).length
      (es.map fun e => standing c (place.enter e) e)
      (es.flatMap fun e => Structural.logs c lines e (place.enter e))
      (Structural.inTurn (fun e => e.expand inList (place.enter e.source))
        (es.map (Structural.expander c lines))) := by
  refine Simulates.inTurn es fun e he => ?_
  have hpart := (ih e he).1 inList (place.enter e)
  rw [Place.path_enter] at hpart
  rw [source_expander]
  exact hpart

section Node

variable {ka : Kind (Ast Span)}

theorem simulates_expandParts (hc : c.table = LabelTable.defaults)
    (ih : ∀ e ∈ ka.children, Simulated c lines e) (inList : Bool) (place : Place) (s : Span)
    (hlabel : Purity.isKnownLabel Structural.known ka = false)
    (hx : place.site = none ∨ isExpression ka = false) :
    Simulates c lines inList place.path (Ast.node s ka).notes.length [standing c place (.node s ka)]
      (Structural.logs c lines (.node s ka) place)
      (Structural.expandParts lines place s (ka.map (Structural.expander c lines))) := by
  have hparts := simulates_inTurn ih ka.isList
    { place with path := place.path ++ (Structural.scopeName? (Structural.lineOf lines s) ka).toList }
  have hstand : (ka.map fun e => standing c (place.enter e) e).children
      = ka.children.map fun e => standing c (Structural.Place.enter { place with path := place.path
        ++ (Structural.scopeName? (Structural.lineOf lines s) ka).toList } e) e := by
    rw [Kind.children_map]
    exact List.map_congr_left fun e _ => (standing_enter_path place _ e).symm
  rw [← hstand] at hparts
  have hnode : Simulates c lines inList place.path _
      [.node (s, false) (ka.map fun e => standing c (place.enter e) e)] _ _ :=
    Simulates.parts hc (by rw [isKnownLabel_map, hlabel])
      (by rw [Kind.isList_map, Tree.scopeName?_map]; exact hparts)
  rw [Structural.standing_node hx, Structural.logs_parts hlabel hx, Ast.notes_node, List.length_cons,
    Structural.expandParts,
    Kind.isList_map, Tree.scopeName?_map, Kind.children_map]
  have hrefill : ∀ xs : List (Ast Span), (ka.map (Structural.expander c lines)).refill xs
      = (ka.map fun e => standing c (place.enter e) e).refill xs := by
    intro xs
    rw [← Kind.refill_outline, Kind.outline_map, ← Kind.outline_map, Kind.refill_outline]
  simp only [hrefill]
  exact hnode

theorem simulates_expandLabel (hc : c.table = LabelTable.defaults)
    (hmeaning : Structural.label? label = some meaning) {x : Ast Span} (ih : Simulated c lines x)
    (inList : Bool) (place : Place) (s : Span) :
    Simulates c lines inList place.path (Ast.node s (.labeled label x)).notes.length
      [standing c place (.node s (.labeled label x))]
      (Structural.logs c lines (.node s (.labeled label x)) place)
      (Structural.expandLabel c lines inList place s label meaning (Structural.expander c lines x)) := by
  rw [Structural.standing_node (Or.inr rfl), Structural.logs_label hmeaning, Structural.expandLabel,
    source_expander]
  cases hstrip : Structural.strips c label place.path with
  | true => exact (Simulates.stripped hc hmeaning hstrip).mono (by simp)
  | false =>
      cases hbreach : (Structural.breaches x).head? with
      | some breach =>
          obtain ⟨sb, construct⟩ := breach
          rw [← Structural.breaches_standing (c := c) (place.enter x)] at hbreach
          exact (Simulates.impure hc hmeaning hstrip hbreach).mono (by simp)
      | none =>
          have hbody := ih.2 inList s place.path ((place.enter x).site.getD
            ⟨meaning.1, meaning.2, Structural.lineOf lines s, place.path⟩)
          have hlabel := Simulates.expanded hc hmeaning hstrip hbreach hbody
          simpa [Kind.map, Kind.children, Structural.Place.siteOf] using hlabel

theorem simulates_expandNode (hc : c.table = LabelTable.defaults)
    (ih : ∀ e ∈ ka.children, Simulated c lines e) (inList : Bool) (place : Place) (s : Span) :
    Simulates c lines inList place.path (Ast.node s ka).notes.length [standing c place (.node s ka)]
      (Structural.logs c lines (.node s ka) place)
      (Structural.expandNode c lines inList place s (ka.map (Structural.expander c lines))) := by
  have hparts := simulates_expandParts hc ih inList place s
  cases ka with
  | expression x =>
      cases hsite : place.site with
      | none =>
          have hnode := hparts rfl (Or.inl hsite)
          unfold Structural.expandNode
          rw [hsite]
          exact hnode
      | some site =>
          rw [Structural.standing_of_some hsite, Structural.entered_expression,
            Structural.logs_expression hsite]
          unfold Structural.expandNode
          simp only [Kind.map, hsite, source_expander]
          exact (Simulates.made _).mono (by simp)
  | labeled label x =>
      cases hlabel : Structural.label? label with
      | none =>
          have hknown : Structural.known label = false := by rw [known_of_label?, hlabel]; rfl
          have hnode := hparts hknown (Or.inr rfl)
          unfold Structural.expandNode
          simp only [Kind.map, hlabel]
          exact hnode
      | some meaning =>
          have hnode := simulates_expandLabel hc hlabel (ih x (List.mem_singleton.2 rfl)) inList
            place s
          unfold Structural.expandNode
          simp only [Kind.map, hlabel]
          exact hnode
  | _ => exact hparts rfl (Or.inr rfl)

end Node

theorem simulatesBody_of_not_block (hc : c.table = LabelTable.defaults) {ka : Kind (Ast Span)}
    (ih : ∀ e ∈ ka.children, Simulated c lines e) (inList : Bool) (path : List String) (site : Site)
    (s : Span)
    (hun : (entered c site (.node s ka)).unwrapped = [entered c site (.node s ka)]) (l : Span) :
    SimulatesBody c lines inList path l (Ast.node s ka).notes.length
      (entered c site (.node s ka)).unwrapped (Structural.logs c lines (.node s ka) ⟨path, some site⟩)
      (Structural.expandNode c lines inList ⟨path, some site⟩ s
        (ka.map (Structural.expander c lines))) := by
  have hnode := simulates_expandNode hc ih inList ⟨path, some site⟩ s
  rw [hun]
  cases inList with
  | true => exact hnode
  | false => exact hnode

/-- The statements of a block take the place of a label. -/
theorem simulatesBody_block {es : List (Ast Span)} (ih : ∀ e ∈ es, Simulated c lines e)
    (inList : Bool) (path : List String) (site : Site) (s l : Span) :
    SimulatesBody c lines inList path l (es.flatMap Ast.notes).length
      (es.map fun e => standing c (Structural.Place.enter ⟨path, some site⟩ e) e)
      (es.flatMap fun e => Structural.logs c lines e (Structural.Place.enter ⟨path, some site⟩ e))
      (Structural.unwrapNode c lines inList l ⟨path, some site⟩ s
        (.block (es.map (Structural.expander c lines)))) := by
  have hturn := simulates_inTurn ih true ⟨path, some site⟩
  match inList, es with
  | true, [] => exact .nil
  | false, [] => exact ⟨rfl, rfl⟩
  | inList, [e] =>
      have hone := (ih e List.mem_cons_self).1 inList (Structural.Place.enter ⟨path, some site⟩ e)
      rw [Place.path_enter] at hone
      simp only [Structural.unwrapNode, List.map_cons, List.map_nil, source_expander,
        List.flatMap_cons, List.flatMap_nil, List.append_nil]
      cases inList with
      | true => exact hone
      | false => exact hone
  | true, e :: e' :: es => exact hturn
  | false, e :: e' :: es => exact ⟨_, hturn, rfl⟩

/-- The recursion over every program is simulated. -/
theorem simulated (hc : c.table = LabelTable.defaults) (a : Ast Span) : Simulated c lines a := by
  induction a using Ast.induction with
  | node s ka ih =>
      refine ⟨fun inList place => ?_, fun inList l path site => ?_⟩
      · rw [expand_node]
        exact simulates_expandNode hc ih inList place s
      · rw [unwrap_node]
        have hnode := simulatesBody_of_not_block hc ih inList path site s
        cases ka with
        | block es =>
            have hblock := simulatesBody_block ih inList path site s l
            have hstand : entered c site (.node s (.block es)) = _ :=
              Structural.standing_node (p := ⟨path, some site⟩) (Or.inr rfl) s
            rw [hstand, Structural.logs_parts rfl (Or.inr rfl)]
            have hinside : Structural.Place.inside ⟨path, some site⟩ lines s (Kind.block es)
                = ⟨path, some site⟩ := by
              simp [Structural.Place.inside, Structural.scopeName?]
            rw [hinside]
            exact hblock.mono (by simp [Kind.children])
        | empty =>
            cases inList with
            | true => exact Simulates.nil.mono (Nat.zero_le _)
            | false => exact ⟨rfl, rfl⟩
        | expression x =>
            rw [Structural.entered_expression] at hnode ⊢
            exact hnode rfl l
        | _ => exact hnode rfl l

end Simulation

/-! ## The pass -/

/-- The outcome of a pass without the addresses of the arena: the program that it leaves, or its
failure. -/
def outcome (result : Except (Diagnostic × Session) Session) : Expanded :=
  match result with
  | .error (d, _) => .error d
  | .ok session => .ok ([session.tree.program.mapNotes session.tree.span], session.stats)

/-- The scene at the root of a tree before the pass. -/
theorem scene_root {t : Tree} {body : List (Ast NodeId)}
    (h : t.Rooted (.node t.root (.program body))) :
    Scene t.lineStarts [] { tree := t } t.root (.program body) where
  lines_eq := rfl
  handled_stored := fun i hi => absurd hi List.not_mem_nil
  held := h.toHeld
  around := by
    refine ⟨[], .root h.root_parent, List.nodup_nil, fun i hi => absurd hi List.not_mem_nil, ?_⟩
    have hkind : t.kind t.root = .program (body.map Ast.note) := h.holds.kind_eq
    rw [Ast.note_node, List.filterMap_cons, Tree.scopeName?_eq, hkind]
    rfl

/-- What is reached below the root is the outcome of the pass. -/
theorem Reaches.outcome {c : ExpansionContext} {t : Tree} {body : List (Ast NodeId)} {cost : Nat}
    {ids : List NodeId} {logs : List (Ast Span)} {result : Expanded} (hroot : t.root.index < t.size)
    (h : Reaches c { tree := t } t.root (.program body) [] [] cost ids logs result) :
    ∃ r, Visits c cost ids { tree := t } r ∧ Expansion.outcome r
        = Structural.wrapped (fun xs => [.node (t.span t.root) (.program xs)]) {} result ∧
      ∀ session, r = .ok session → session.logCalls = logs := by
  match result, h with
  | .error d, ⟨session', hv⟩ => exact ⟨_, hv, rfl, fun session h => by cases h⟩
  | .ok (xs, n), ⟨session', k', ys, hv, hp, hk', hys, hlogs⟩ =>
      have hprogram : k' = .program ys := by
        have hys' : k'.children = ys := by simpa using hk'
        rw [← hys']
        exact Kind.eq_refill_of_outline hp.layer.outline_eq
      have hreading : session'.tree.program = .node t.root (.program ys) := by
        rw [Tree.program, hp.layer.root_eq, ← hprogram]
        exact hp.layer.held.reading_eq
      have hspan : session'.tree.span t.root = t.span t.root := hp.layer.span_eq t.root hroot
      have hnone : t.root ∉ session'.handled := by
        rw [hp.handled_iff t.root hroot]
        exact List.not_mem_nil
      refine ⟨_, hv, ?_, ?_⟩
      · rw [Expansion.outcome, hreading, hp.stats_eq, Ast.mapNotes_node, hspan, Kind.map, hys]
        rfl
      · rintro session ⟨⟩
        rw [Structural.logCalls_eq, hreading, Ast.mapNotes_node, Session.mark_of_not_handled hnone,
          Structural.madeIn_node, Kind.children_map]
        exact hlogs

/-- Visiting the root of a tree has the outcome of the recursion over its program, and makes the log
statements that the program leads to. -/
theorem visits_root_logs {c : ExpansionContext} (hc : c.table = LabelTable.defaults) {t : Tree}
    {body : List (Ast NodeId)} (h : t.Rooted (.node t.root (.program body))) :
    ∃ result, Visits c t.size [t.root] { tree := t } result ∧
      outcome result = Structural.rewrite c t.lineStarts
        ((Ast.node t.root (.program body)).mapNotes t.span) ∧
      ∀ session, result = .ok session → session.logCalls
        = Structural.logs c t.lineStarts ((Ast.node t.root (.program body)).mapNotes t.span)
          ⟨[], none⟩ := by
  have hscene := scene_root h
  have hmarks : body.map (Ast.mapNotes (Session.mk t [] {}).mark)
      = (body.map (Ast.mapNotes t.span)).map
        fun e => standing c (Structural.Place.enter ⟨[], none⟩ e) e := by
    rw [List.map_map]
    refine List.map_congr_left fun b _ => ?_
    rw [Function.comp_apply,
      Structural.standing_of_none (Structural.enter_site_of_none rfl _), untouched,
      Ast.mapNotes_mapNotes]
    exact Ast.mapNotes_congr b fun i _ => by simp [Session.mark]
  have hparts : ∀ e ∈ body.map (Ast.mapNotes t.span), Simulated c t.lineStarts e := fun e _ =>
    simulated hc e
  have hturn := simulates_inTurn hparts true ⟨[], none⟩
  have hreach := hturn _ t.root (.program body) [] body [] hscene rfl (by simp [Kind.children]) hmarks
  have hcost : ((body.map (Ast.mapNotes t.span)).flatMap Ast.notes).length + 1 ≤ t.size := by
    have hlength := Tree.length_le_of_stored h.nodup h.holds.stored
    simpa [Kind.children, List.flatMap_map, List.length_flatMap, Function.comp_def] using hlength
  have hstep : step c t.root { tree := t } = .ok (body.map Ast.note, { tree := t }) := by
    have hkind : t.kind t.root = .program (body.map Ast.note) := h.holds.kind_eq
    rw [step_other (by simp) (by simp only [hkind]; rfl)]
    simp only [hkind]
    rfl
  have hrewrite : Structural.rewrite c t.lineStarts ((Ast.node t.root (.program body)).mapNotes t.span)
      = Structural.wrapped (fun xs => [.node (t.span t.root) (.program xs)]) {}
        (Structural.inTurn (fun e => e.expand true (Structural.Place.enter ⟨[], none⟩ e.source))
          ((body.map (Ast.mapNotes t.span)).map (Structural.expander c t.lineStarts))) := by
    rw [Structural.rewrite, Ast.mapNotes_node, expand_node]
    rfl
  obtain ⟨r, hv, houtcome, hlogs⟩ := hreach.outcome h.holds.note_stored
  refine ⟨r, (hv.visit hstep).mono hcost, houtcome.trans hrewrite.symm, fun session hr => ?_⟩
  rw [hlogs session hr, Ast.mapNotes_node, Structural.logs_parts rfl (Or.inl rfl)]
  rfl

/-- Visiting the root of a tree has the outcome of the recursion over its program. -/
theorem visits_root {c : ExpansionContext} (hc : c.table = LabelTable.defaults) {t : Tree}
    {body : List (Ast NodeId)} (h : t.Rooted (.node t.root (.program body))) :
    ∃ result, Visits c t.size [t.root] { tree := t } result ∧
      outcome result = Structural.rewrite c t.lineStarts
        ((Ast.node t.root (.program body)).mapNotes t.span) := by
  obtain ⟨result, hvisits, houtcome, -⟩ := visits_root_logs hc h
  exact ⟨result, hvisits, houtcome⟩

/-- The pass over a parsed tree with the built-in labels ends after at most as many visits as the tree
has nodes, and its outcome is that of the structural recursion over the program. -/
theorem run_eq_rewrite {text : String} {t : Tree} (hparse : Program.parse .source text = .ok t)
    {c : ExpansionContext} (hc : c.table = LabelTable.defaults) :
    (∀ fuel, t.size ≤ fuel → loop c fuel [t.root] { tree := t } = run c t) ∧
      outcome (run c t) = Structural.rewrite c t.lineStarts (t.program.mapNotes t.span) := by
  obtain ⟨drafts, a, -, hrooted, hspans⟩ := Program.parse_rooted hparse
  obtain ⟨body, rfl⟩ : ∃ body, a = .node t.root (.program body) := by
    cases a with
    | node i k =>
        obtain rfl : i = t.root := hrooted.root_eq
        rw [Ast.mapNotes_node, Ast.node.injEq] at hspans
        cases k with
        | program body => exact ⟨body, rfl⟩
        | _ => cases hspans.2
  obtain ⟨result, hvisits, houtcome⟩ := visits_root hc hrooted
  have hrun : run c t = result := hvisits.run_eq
  obtain ⟨⟨n, hn, hloop⟩, -⟩ := hvisits
  have hfuel : ∀ fuel, t.size ≤ fuel → loop c fuel [t.root] { tree := t } = result := by
    intro fuel hle
    have hend := hloop (fuel - n) []
    rw [Nat.add_sub_cancel' (Nat.le_trans hn hle), List.append_nil] at hend
    rw [hend]
    cases result with
    | error e => rfl
    | ok session => cases fuel - n <;> rfl
  refine ⟨fun fuel hle => (hfuel fuel hle).trans hrun.symm, ?_⟩
  have hprogram : t.program = .node t.root (.program body) := hrooted.reading_eq
  rw [hrun, houtcome, hprogram]

/-- The pass over a text with a label. -/
theorem run_eq_rewrite_label :
    ∃ t : Tree, Program.parse .source "info:a" = .ok t ∧
      outcome (run ⟨⟨"a.js", "/a.js"⟩, LabelTable.defaults, "LOG", none, ⟨none, ⟨[], [], []⟩⟩⟩ t)
        = Structural.rewrite
          ⟨⟨"a.js", "/a.js"⟩, LabelTable.defaults, "LOG", none, ⟨none, ⟨[], [], []⟩⟩⟩
          t.lineStarts (t.program.mapNotes t.span) := by
  obtain ⟨t, hparse⟩ := Program.exists_parse_label
  exact ⟨t, hparse, (run_eq_rewrite hparse rfl).2⟩

end Expansion

end LogLabel
