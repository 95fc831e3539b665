import LogLabel.Proofs.Expansion.Content
import LogLabel.Proofs.Expansion.Simulation

set_option autoImplicit false

/-!
# Successful expansions

The structural recursion fails or gives programs. This module says once what it gives when
it does not fail, so that a property of all rewritten programs is proved by one case for
each way a node is expanded.

* `Structural.Expands`, `Structural.Unwraps`: a program is expanded into others, at its
  place or in the place of the label whose body it is.
* `Structural.Outcome`, `Structural.BodyOutcome`: the ways in which a node is expanded.
* `Structural.Expands.length_eq_one`: in a single slot one program takes the place of one.
* `outcome_run`: a successful pass leaves an expansion of the parsed program.
-/

namespace LogLabel.Expansion

open Program (Ast Kind NodeId Span Tree)

namespace Structural

variable (c : ExpansionContext) (lines : List Nat)

/-- The program `a` is expanded into the programs `xs`. -/
def Expands (inList : Bool) (place : Place) (a : Ast Span) (xs : List (Ast Span)) : Prop :=
  ∃ n, (expander c lines a).expand inList place = .ok (xs, n)

/-- The body `a` of a label with the given span is expanded into the programs `xs`. -/
def Unwraps (inList : Bool) (label : Span) (place : Place) (a : Ast Span) (xs : List (Ast Span)) :
    Prop :=
  ∃ n, (expander c lines a).unwrap inList label place = .ok (xs, n)

/-- The parts `as` of a region are expanded one after the other into the programs `xs`. -/
inductive ExpandsAll (inList : Bool) (place : Place) : List (Ast Span) → List (Ast Span) → Prop
  | nil : ExpandsAll inList place [] []
  | cons {a : Ast Span} {as ys xs : List (Ast Span)} (first : Expands c lines inList (place.enter a) a ys)
      (rest : ExpandsAll inList place as xs) : ExpandsAll inList place (a :: as) (ys ++ xs)

/-- The ways in which a node is expanded at a place. -/
inductive Outcome (inList : Bool) (place : Place) (s : Span) :
    Kind (Ast Span) → List (Ast Span) → Prop
  | logged {site : Site} {x : Ast Span} (hsite : place.site = some site) :
      Outcome inList place s (.expression x) [logStatement c site x s]
  | stripped {label : String} {body : Ast Span} (hknown : known label = true)
      (hstrip : strips c label place.path = true) :
      Outcome inList place s (.labeled label body) (if inList then [] else [.node s .empty])
  | label {label : String} {meaning : Level × Bool} {body : Ast Span} {xs : List (Ast Span)}
      (hmeaning : label? label = some meaning) (hpure : breaches body = [])
      (h : Unwraps c lines inList s
        ⟨place.path, some ((place.enter body).site.getD (place.siteOf lines s meaning))⟩ body xs) :
      Outcome inList place s (.labeled label body) xs
  | parts {k : Kind (Ast Span)} {xs : List (Ast Span)} (hlabel : Purity.isKnownLabel known k = false)
      (hx : place.site = none ∨ isExpression k = false)
      (h : ExpandsAll c lines k.isList (place.inside lines s k) k.children xs) :
      Outcome inList place s k [.node s (k.refill xs)]

/-- The ways in which the body of a label takes the place of the label. -/
inductive BodyOutcome (inList : Bool) (label : Span) (place : Place) (s : Span) :
    Kind (Ast Span) → List (Ast Span) → Prop
  | nothing {k : Kind (Ast Span)} (hk : k.children = []) :
      BodyOutcome inList label place s k (if inList then [] else [.node label .empty])
  | single {e : Ast Span} {xs : List (Ast Span)} (h : Expands c lines inList (place.enter e) e xs) :
      BodyOutcome inList label place s (.block [e]) xs
  | block {es xs : List (Ast Span)} (h : ExpandsAll c lines true place es xs) :
      BodyOutcome inList label place s (.block es) (if inList then xs else [.node label (.block xs)])
  | other {k : Kind (Ast Span)} {xs : List (Ast Span)}
      (h : Expands c lines inList place (.node s k) xs) : BodyOutcome inList label place s k xs

variable {c lines} {inList : Bool} {place : Place} {s l : Span} {k : Kind (Ast Span)}
  {xs : List (Ast Span)}

theorem isSome_of_enter {b : Ast Span} (h : (place.enter b).site.isSome = true) :
    place.site.isSome = true := by
  cases hsite : place.site with
  | none => rw [enter_site_of_none hsite] at h; cases h
  | some site => rfl

theorem wrapped_ok {node : List (Ast Span) → List (Ast Span)} {n m : Stats} {outcome : Expanded}
    (h : wrapped node n outcome = .ok (xs, m)) :
    ∃ ys m', outcome = .ok (ys, m') ∧ xs = node ys := by
  unfold wrapped at h
  split at h
  · cases h
  · next ys m' =>
      cases h
      exact ⟨ys, m', rfl, rfl⟩

/-- Parts that are expanded from left to right. -/
theorem expandsAll_of_inTurn :
    ∀ {es xs : List (Ast Span)} {n : Stats},
      inTurn (fun e => e.expand inList (place.enter e.source)) (es.map (expander c lines))
        = .ok (xs, n) → ExpandsAll c lines inList place es xs := by
  intro es
  induction es with
  | nil =>
      intro xs n h
      cases h
      exact .nil
  | cons e es ih =>
      intro xs n h
      rw [List.map_cons, inTurn] at h
      unfold andThen at h
      split at h
      · cases h
      · next ys m hfirst =>
          split at h
          · cases h
          · next zs m' hrest =>
              cases h
              rw [source_expander] at hfirst
              exact .cons ⟨m, hfirst⟩ (ih hrest)

theorem outcome_of_expandParts {n : Stats} (hlabel : Purity.isKnownLabel known k = false)
    (hx : place.site = none ∨ isExpression k = false)
    (h : expandParts lines place s (k.map (expander c lines)) = .ok (xs, n)) :
    Outcome c lines inList place s k xs := by
  rw [expandParts, Kind.isList_map, Tree.scopeName?_map, Kind.children_map] at h
  obtain ⟨ys, m, hys, rfl⟩ := wrapped_ok h
  have hrefill : (k.map (expander c lines)).refill ys = k.refill ys := by
    rw [← Kind.refill_outline, Kind.outline_map, Kind.refill_outline]
  rw [hrefill]
  exact .parts hlabel hx (expandsAll_of_inTurn hys)

/-- What a node is expanded into. -/
theorem Expands.outcome (h : Expands c lines inList place (.node s k) xs) :
    Outcome c lines inList place s k xs := by
  obtain ⟨n, h⟩ := h
  rw [expand_node] at h
  -- Only a statement inside of a log statement and a label of the table are treated in a way of
  -- their own; every other layer, an unknown label included, is rewritten part by part.
  cases k with
  | expression x =>
      cases hsite : place.site with
      | none =>
          unfold expandNode at h
          rw [hsite] at h
          exact outcome_of_expandParts rfl (Or.inl hsite) h
      | some site =>
          simp only [Kind.map, expandNode, hsite, source_expander] at h
          cases h
          exact .logged hsite
  | labeled label body =>
      simp only [Kind.map, expandNode] at h
      cases hmeaning : label? label with
      | none =>
          rw [hmeaning] at h
          have hknown : known label = false := by
            rw [known_of_label?, hmeaning]
            rfl
          exact outcome_of_expandParts hknown (Or.inr rfl) h
      | some meaning =>
          rw [hmeaning] at h
          simp only [expandLabel, source_expander] at h
          cases hstrip : strips c label place.path with
          | true =>
              rw [hstrip, if_pos rfl] at h
              cases h
              exact .stripped (by rw [known_of_label?, hmeaning]; rfl) hstrip
          | false =>
              rw [hstrip, if_neg Bool.false_ne_true] at h
              split at h
              · cases h
              · next hpure =>
                  obtain ⟨ys, m, hys, rfl⟩ := wrapped_ok h
                  exact .label hmeaning (List.head?_eq_none_iff.1 hpure) ⟨m, hys⟩
  | _ => exact outcome_of_expandParts rfl (Or.inr rfl) h

/-- What takes the place of a label with the given body. -/
theorem Unwraps.outcome (h : Unwraps c lines inList l place (.node s k) xs) :
    BodyOutcome c lines inList l place s k xs := by
  obtain ⟨n, h⟩ := h
  rw [unwrap_node] at h
  cases k with
  | empty =>
      cases h
      exact .nothing rfl
  | block es =>
      match es, h with
      | [], h =>
          cases h
          exact .nothing rfl
      | [e], h =>
          simp only [Kind.map, List.map_cons, List.map_nil, unwrapNode, source_expander] at h
          exact .single ⟨n, h⟩
      | e :: e' :: es, h =>
          simp only [Kind.map, List.map_cons, unwrapNode] at h
          cases inList with
          | true =>
              rw [if_pos rfl] at h
              exact .block (expandsAll_of_inTurn h)
          | false =>
              rw [if_neg Bool.false_ne_true] at h
              obtain ⟨ys, m, hys, rfl⟩ := wrapped_ok h
              exact .block (expandsAll_of_inTurn hys)
  | _ => exact .other ⟨n, by rw [expand_node]; exact h⟩

/-! ## Programs that take the place of parts -/

theorem ExpandsAll.exists_of_mem {as : List (Ast Span)} (h : ExpandsAll c lines inList place as xs) :
    ∀ x ∈ xs, ∃ a ∈ as, ∃ ys, x ∈ ys ∧ Expands c lines inList (place.enter a) a ys := by
  induction h with
  | nil => simp
  | @cons a as ys xs first rest ih =>
      intro x hx
      rcases List.mem_append.1 hx with hx | hx
      · exact ⟨a, List.mem_cons_self, ys, hx, first⟩
      · obtain ⟨b, hb, hexpands⟩ := ih x hx
        exact ⟨b, List.mem_cons_of_mem _ hb, hexpands⟩

theorem ExpandsAll.of_mem {as : List (Ast Span)} (h : ExpandsAll c lines inList place as xs) :
    ∀ a ∈ as, ∃ ys, ys ⊆ xs ∧ Expands c lines inList (place.enter a) a ys := by
  induction h with
  | nil => simp
  | @cons a as ys xs first rest ih =>
      intro b hb
      rcases List.mem_cons.1 hb with rfl | hb
      · exact ⟨ys, List.subset_append_left _ _, first⟩
      · obtain ⟨zs, hzs, hexpands⟩ := ih b hb
        exact ⟨zs, fun z hz => List.mem_append_right _ (hzs hz), hexpands⟩

theorem ExpandsAll.length_eq {as : List (Ast Span)} (h : ExpandsAll c lines inList place as xs) :
    (∀ a ∈ as, ∀ place ys, Expands c lines inList place a ys → ys.length = 1) →
      xs.length = as.length := by
  induction h with
  | nil => intro _; rfl
  | @cons a as ys xs first rest ih =>
      intro hone
      rw [List.length_append, List.length_cons, hone a List.mem_cons_self _ ys first,
        ih fun b hb => hone b (List.mem_cons_of_mem _ hb), Nat.add_comm]

/-- In a single slot exactly one program takes the place of a program. -/
theorem length_eq_one (a : Ast Span) :
    (∀ place xs, Expands c lines false place a xs → xs.length = 1) ∧
      ∀ l place xs, Unwraps c lines false l place a xs → xs.length = 1 := by
  induction a using Ast.induction with
  | node s k ih =>
      have hexpands : ∀ place xs, Expands c lines false place (.node s k) xs →
          xs.length = 1 := by
        intro place xs h
        cases h.outcome with
        | logged _ => rfl
        | stripped _ _ => rfl
        | label _ _ hbody => exact (ih _ (List.mem_singleton.2 rfl)).2 _ _ _ hbody
        | parts _ _ _ => rfl
      refine ⟨hexpands, fun l place xs h => ?_⟩
      cases h.outcome with
      | nothing _ => rfl
      | single he => exact (ih _ (List.mem_singleton.2 rfl)).1 _ _ he
      | block _ => rfl
      | other hk => exact hexpands _ _ hk

/-- The parts of a node whose parts were expanded. -/
theorem ExpandsAll.children_refill (h : ExpandsAll c lines k.isList place k.children xs) :
    (k.refill xs).children = xs := by
  cases hlist : k.isList with
  | true => cases k <;> first | rfl | cases hlist
  | false =>
      rw [hlist] at h
      rw [Kind.refill_of_not_isList hlist]
      exact Kind.children_fill k xs (h.length_eq fun a _ => (length_eq_one a).1)

/-- The layer of a node whose parts were expanded is the same apart from its parts. -/
theorem ExpandsAll.outline_refill (h : ExpandsAll c lines k.isList place k.children xs) :
    (k.refill xs).outline = k.outline := by
  cases hlist : k.isList with
  | true => cases k <;> first | rfl | cases hlist
  | false =>
      rw [hlist] at h
      have hlength := h.length_eq fun a _ => (length_eq_one a).1
      have hunits : xs.map (fun _ => ()) = k.children.map fun _ => () := by
        rw [List.map_const', List.map_const', hlength]
      rw [Kind.refill_of_not_isList hlist, ← Kind.outline_map fun _ => (), Kind.map_fill _ _ _ hlength,
        hunits, Kind.fill_children_map, Kind.outline_map]

end Structural

/-! ## Passes that succeed -/

/-- The pass over a parsed tree with the built-in labels has the outcome of the recursion, and makes
the log statements that its program leads to. -/
theorem outcome_run_logs {text : String} {t : Tree} (hparse : Program.parse .source text = .ok t)
    {c : ExpansionContext} (hc : c.table = LabelTable.defaults) :
    outcome (run c t) = Structural.rewrite c t.lineStarts (t.program.mapNotes t.span) ∧
      ∀ session, run c t = .ok session → session.logCalls
        = Structural.logs c t.lineStarts (t.program.mapNotes t.span) ⟨[], none⟩ := by
  obtain ⟨drafts, a, -, hrooted, hspans⟩ := Program.parse_rooted hparse
  obtain ⟨body, rfl⟩ : ∃ body, a = .node t.root (.program body) := by
    cases a with
    | node i k =>
        obtain rfl : i = t.root := hrooted.root_eq
        rw [Ast.mapNotes_node, Ast.node.injEq] at hspans
        cases k with
        | program body => exact ⟨body, rfl⟩
        | _ => cases hspans.2
  obtain ⟨result, hvisits, houtcome⟩ := visits_root_logs hc hrooted
  rw [hvisits.run_eq, hrooted.program_eq]
  exact houtcome

/-- The pass over a parsed tree with the built-in labels has the outcome of the recursion. -/
theorem outcome_run {text : String} {t : Tree} (hparse : Program.parse .source text = .ok t)
    {c : ExpansionContext} (hc : c.table = LabelTable.defaults) :
    outcome (run c t) = Structural.rewrite c t.lineStarts (t.program.mapNotes t.span) :=
  (outcome_run_logs hparse hc).1

/-- A successful pass over a parsed tree leaves an expansion of its program. -/
theorem expands_of_run {text : String} {t : Tree} (hparse : Program.parse .source text = .ok t)
    {c : ExpansionContext} (hc : c.table = LabelTable.defaults) {session : Session}
    (hrun : run c t = .ok session) :
    Structural.Expands c t.lineStarts false ⟨[], none⟩ (t.program.mapNotes t.span)
      [session.tree.program.mapNotes session.tree.span] := by
  have houtcome := outcome_run hparse hc
  rw [hrun] at houtcome
  exact ⟨session.stats, houtcome.symm⟩

end LogLabel.Expansion
