import LogLabel.Proofs.Expansion.Decisions
import Mathlib.Data.List.Flatten

set_option autoImplicit false

/-!
# More exceptions from stripping

An exception from stripping can only keep log statements. A pass with more exceptions makes
other edits, so that the trees of the two passes differ from the first label on that is
stripped in one of them only. Their decisions are compared over the source instead.

* `o ⊆ o'`: every entry of the exceptions `o` is one of `o'`.
* `Expansion.Structural.logs_sublist`: more exceptions lead to more log statements.
* `Expansion.Structural.isOk_expander`: with fewer exceptions a recursion still succeeds.
* `Expansion.due_sublist`: more exceptions keep more labels.
* `Expansion.overrides_keep_more`: these facts for passes over a source.
-/

namespace LogLabel

open Program (Ast Kind NodeId Span Tree)

/-- Every exception is one of the others. -/
instance : HasSubset Overrides where
  Subset o o' := o.context ⊆ o'.context ∧ o.file ⊆ o'.file ∧ o.level ⊆ o'.level

/-- The same pass with other exceptions from stripping. -/
def ExpansionContext.withOverrides (c : ExpansionContext) (o : Overrides) : ExpansionContext :=
  { c with environment := { c.environment with overrides := o } }

theorem Overrides.grants_mono {o o' : Overrides} (h : o ⊆ o') {context filename level : String} :
    o.grants context filename level = true → o'.grants context filename level = true := by
  obtain ⟨hcontext, hfile, hlevel⟩ := h
  unfold grants
  simp only [Bool.or_eq_true, List.any_eq_true]
  rintro ((⟨entry, hmem, hentry⟩ | ⟨entry, hmem, hentry⟩) | ⟨entry, hmem, hentry⟩)
  · exact Or.inl (Or.inl ⟨entry, hcontext hmem, hentry⟩)
  · exact Or.inl (Or.inr ⟨entry, hfile hmem, hentry⟩)
  · exact Or.inr ⟨entry, hlevel hmem, hentry⟩

/-- What is stripped with more exceptions is stripped with fewer. -/
theorem shouldStrip_anti {policy : Option Strip} {e : Environment} {o : Overrides}
    (h : e.overrides ⊆ o) {label : String} {m : Metadata} :
    shouldStrip policy { e with overrides := o } label m = true →
      shouldStrip policy e label m = true := by
  unfold shouldStrip
  cases policy with
  | none => exact id
  | some strip =>
      simp only [Bool.and_eq_true, Bool.not_eq_true']
      rintro ⟨happlies, hdenied⟩
      refine ⟨happlies, Bool.eq_false_iff.2 fun hgranted => ?_⟩
      rw [Overrides.grants_mono h hgranted] at hdenied
      cases hdenied

namespace Expansion

variable {c : ExpansionContext} {o : Overrides}

/-! ## Labels that are kept -/

/-- With more exceptions more labels are kept. -/
theorem due_sublist (h : c.environment.overrides ⊆ o) (t₀ : Tree) (a : Ast NodeId) :
    (due c t₀ a).Sublist (due (c.withOverrides o) t₀ a) := by
  induction a using Ast.induction with
  | node i k ih =>
      cases hlabel : Purity.isKnownLabel c.known k with
      | false =>
          rw [due_of_not_label hlabel, due_of_not_label (c := c.withOverrides o) hlabel]
          exact .flatMap_right _ ih
      | true =>
          cases k with
          | labeled label body =>
              have hbody := ih body (List.mem_singleton.2 rfl)
              rw [due_of_label hlabel, due_of_label (c := c.withOverrides o) hlabel]
              cases hstrip : stripsInSource (c.withOverrides o) t₀ label i with
              | true =>
                  have hanti : stripsInSource c t₀ label i = true := shouldStrip_anti h hstrip
                  rw [hanti]
                  exact .refl _
              | false =>
                  cases stripsInSource c t₀ label i with
                  | true => exact List.nil_sublist _
                  | false => exact hbody.cons_cons i
          | _ => cases hlabel

namespace Structural

variable {lines : List Nat}

theorem strips_anti (h : c.environment.overrides ⊆ o) {label : String} {path : List String} :
    strips (c.withOverrides o) label path = true → strips c label path = true :=
  @shouldStrip_anti c.strip c.environment o h label
    ⟨0, path, c.file.filename, c.file.filepath, false, false, 0⟩

/-! ## Log statements -/

/-- With more exceptions a program leads to more log statements. -/
theorem logs_sublist (h : c.environment.overrides ⊆ o) (a : Ast Span) :
    ∀ place, (logs c lines a place).Sublist (logs (c.withOverrides o) lines a place) := by
  induction a using Ast.induction with
  | node s k ih =>
      intro place
      have hparts : Purity.isKnownLabel known k = false →
          place.site = none ∨ isExpression k = false →
          (logs c lines (.node s k) place).Sublist
            (logs (c.withOverrides o) lines (.node s k) place) := by
        intro hlabel hx
        rw [logs_parts hlabel hx, logs_parts hlabel hx]
        exact .flatMap_right _ fun e he => ih e he _
      cases k with
      | expression x =>
          cases hsite : place.site with
          | none => exact hparts rfl (Or.inl hsite)
          | some site =>
              rw [logs_expression hsite, logs_expression hsite]
              exact .refl _
      | labeled label body =>
          cases hmeaning : label? label with
          | none =>
              have hknown : known label = false := by
                rw [known_of_label?, hmeaning]
                rfl
              exact hparts hknown (Or.inr rfl)
          | some meaning =>
              -- A label that is kept with fewer exceptions is kept with more, at the same place.
              have hbody := ih body (List.mem_singleton.2 rfl)
              rw [logs_label hmeaning, logs_label hmeaning]
              cases hstrip : strips (c.withOverrides o) label place.path with
              | true =>
                  rw [strips_anti h hstrip]
                  exact .refl _
              | false =>
                  cases strips c label place.path with
                  | true => exact List.nil_sublist _
                  | false => exact hbody _
      | _ => exact hparts rfl (Or.inr rfl)

/-! ## Success -/

theorem isOk_wrapped (node : List (Ast Span) → List (Ast Span)) (n : Stats) (outcome : Expanded) :
    (wrapped node n outcome).isOk = outcome.isOk := by
  cases outcome <;> rfl

theorem isOk_inTurn (f : Expander → Expanded) (es : List Expander) :
    (inTurn f es).isOk = es.all fun e => (f e).isOk := by
  induction es with
  | nil => rfl
  | cons e es ih =>
      rw [List.all_cons, ← ih, inTurn]
      unfold andThen
      cases f e with
      | error d => rfl
      | ok first => cases inTurn f es <;> rfl

/-- Parts that are expanded from left to right succeed if each of them does. -/
theorem isOk_parts (inList : Bool) (place : Place) (es : List (Ast Span)) :
    (inTurn (fun e => e.expand inList (place.enter e.source)) (es.map (expander c lines))).isOk
      = es.all fun e => ((expander c lines e).expand inList (place.enter e)).isOk := by
  rw [isOk_inTurn, List.all_map]
  simp only [Function.comp_def, source_expander]

theorem isOk_expandParts (place : Place) (s : Span) (k : Kind (Ast Span)) :
    (expandParts lines place s (k.map (expander c lines))).isOk
      = k.children.all fun e =>
          ((expander c lines e).expand k.isList ((place.inside lines s k).enter e)).isOk := by
  rw [expandParts, isOk_wrapped, Kind.isList_map, Tree.scopeName?_map, Kind.children_map]
  exact isOk_parts k.isList (place.inside lines s k) k.children

/-- A label fails for a forbidden construct in its region, or in its body. -/
theorem isOk_expandLabel (inList : Bool) (place : Place) (s : Span) (label : String)
    (meaning : Level × Bool) (body : Ast Span) :
    (expandLabel c lines inList place s label meaning (expander c lines body)).isOk
      = (strips c label place.path || ((breaches body).isEmpty &&
          ((expander c lines body).unwrap inList s ⟨place.path,
            some ((place.enter body).site.getD (place.siteOf lines s meaning))⟩).isOk)) := by
  rw [expandLabel, source_expander]
  cases strips c label place.path with
  | true => rfl
  | false =>
      cases breaches body with
      | nil => exact isOk_wrapped _ _ _
      | cons breach rest => rfl

/-- With fewer exceptions fewer labels are expanded, so that none of them fails. -/
theorem isOk_expander (h : c.environment.overrides ⊆ o) (a : Ast Span) :
    (∀ inList place, ((expander (c.withOverrides o) lines a).expand inList place).isOk = true →
      ((expander c lines a).expand inList place).isOk = true) ∧
    ∀ inList label place,
      ((expander (c.withOverrides o) lines a).unwrap inList label place).isOk = true →
        ((expander c lines a).unwrap inList label place).isOk = true := by
  induction a using Ast.induction with
  | node s k ih =>
      have hall : ∀ (inList : Bool) (place : Place),
          (k.children.all fun e =>
            ((expander (c.withOverrides o) lines e).expand inList (place.enter e)).isOk) = true →
          (k.children.all fun e => ((expander c lines e).expand inList (place.enter e)).isOk) = true := by
        intro inList place
        rw [List.all_eq_true, List.all_eq_true]
        exact fun hok e he => (ih e he).1 _ _ (hok e he)
      have hexpand : ∀ inList place,
          ((expander (c.withOverrides o) lines (.node s k)).expand inList place).isOk = true →
          ((expander c lines (.node s k)).expand inList place).isOk = true := by
        intro inList place
        have hparts := hall k.isList (place.inside lines s k)
        rw [← isOk_expandParts, ← isOk_expandParts] at hparts
        rw [expand_node, expand_node]
        cases k with
        | expression x =>
            unfold expandNode
            cases place.site with
            | none => exact hparts
            | some site => exact id
        | labeled label body =>
            simp only [Kind.map, expandNode]
            cases label? label with
            | none => exact hparts
            | some meaning =>
                simp only [isOk_expandLabel, Bool.or_eq_true, Bool.and_eq_true]
                rintro (hstrip | ⟨hpure, hbody⟩)
                · exact Or.inl (strips_anti h hstrip)
                · exact Or.inr ⟨hpure, (ih body (List.mem_singleton.2 rfl)).2 _ _ _ hbody⟩
        | _ => exact hparts
      refine ⟨hexpand, fun inList label place => ?_⟩
      have hother := hexpand inList place
      rw [expand_node, expand_node] at hother
      rw [unwrap_node, unwrap_node]
      cases k with
      | empty => exact id
      | block es =>
          rcases es with _ | ⟨e, _ | ⟨e', es⟩⟩
          · exact id
          · simp only [Kind.map, List.map_cons, List.map_nil, unwrapNode, source_expander]
            exact (ih e (List.mem_singleton.2 rfl)).1 _ _
          · have hturn := hall true place
            simp only [Kind.children, ← isOk_parts] at hturn
            cases inList with
            | true => exact hturn
            | false =>
                simp only [Kind.map, List.map_cons, unwrapNode, Bool.false_eq_true, if_false,
                  isOk_wrapped]
                exact hturn
      | _ => exact hother

end Structural

/-! ## Passes over a source -/

theorem isOk_outcome (result : Except (Diagnostic × Session) Session) :
    (outcome result).isOk = result.isOk := by
  cases result <;> rfl

/-- If a pass with the built-in labels over a source succeeds, then it succeeds with fewer exceptions
from stripping too. Every label that is kept with fewer exceptions is kept with more, and the log
statements that stand in the program with fewer exceptions are a subsequence of those with more. -/
theorem overrides_keep_more {text : String} {t : Tree} (hparse : Program.parse .source text = .ok t)
    {c : ExpansionContext} (hc : c.table = LabelTable.defaults) {o : Overrides}
    (ho : c.environment.overrides ⊆ o) {session' : Session}
    (hrun : run (c.withOverrides o) t = .ok session') :
    ∃ session, run c t = .ok session ∧ (∀ id, Keeps c t id → Keeps (c.withOverrides o) t id) ∧
      session.logCalls.Sublist session'.logCalls := by
  have hc' : (c.withOverrides o).table = LabelTable.defaults := hc
  have htable : Options.buildTable none [] = .ok c.table := by
    rw [hc, Options.buildTable_none]
  have hplain : c.table.Plain := by
    rw [hc]
    exact LabelTable.defaults_plain
  obtain ⟨houtcome, hlogs⟩ := outcome_run_logs hparse hc
  obtain ⟨houtcome', hlogs'⟩ := outcome_run_logs hparse hc'
  have hok : (outcome (run c t)).isOk = true := by
    rw [houtcome]
    refine (Structural.isOk_expander ho _).1 _ _ ?_
    change (Structural.rewrite (c.withOverrides o) t.lineStarts _).isOk = true
    rw [← houtcome', hrun]
    rfl
  rw [isOk_outcome] at hok
  cases hsession : run c t with
  | error e => rw [hsession] at hok; cases hok
  | ok session =>
      refine ⟨session, rfl, fun id hkeeps => ?_, ?_⟩
      · have hdue := mem_due_of_keeps hparse htable hplain hkeeps
        exact keeps_of_mem_due hparse htable hplain hrun ((due_sublist ho t t.program).subset hdue)
      · rw [hlogs session hsession, hlogs' session' hrun]
        exact Structural.logs_sublist ho _ _

/-- A pass that strips everything but what is labeled `info`. -/
def infoContext : ExpansionContext :=
  { plainContext with strip := some (.flag true), environment := ⟨none, ⟨[], [], ["info"]⟩⟩ }

/-- One more exception keeps a label below one that was kept before. -/
theorem overrides_keep_more_nested :
    ∃ (t : Tree) (session session' : Session), Program.parse .source "info:{a;debug:b}" = .ok t ∧
      infoContext.environment.overrides ⊆ ⟨[], [], ["info", "debug"]⟩ ∧
      run (infoContext.withOverrides ⟨[], [], ["info", "debug"]⟩) t = .ok session' ∧
      run infoContext t = .ok session ∧
      session.logCalls.length = 1 ∧ session'.logCalls.length = 2 ∧
      (∀ id, Keeps infoContext t id →
        Keeps (infoContext.withOverrides ⟨[], [], ["info", "debug"]⟩) t id) ∧
      session.logCalls.Sublist session'.logCalls := by
  have hseen : ((Program.parse .source "info:{a;debug:b}").toOption.bind fun t =>
      (shortRun infoContext t).toOption.bind fun session =>
        (shortRun (infoContext.withOverrides ⟨[], [], ["info", "debug"]⟩) t).toOption.map
          fun session' => (session.logCalls.length, session'.logCalls.length)) = some (1, 2) := by
    decide +kernel
  obtain ⟨t, hparse, hseen⟩ := Option.bind_eq_some_iff.1 hseen
  obtain ⟨session, hrun, hseen⟩ := Option.bind_eq_some_iff.1 hseen
  obtain ⟨session', hrun', hlengths⟩ := Option.map_eq_some_iff.1 hseen
  obtain ⟨hlength, hlength'⟩ := Prod.mk.inj hlengths
  have hparse := eq_ok_of_toOption hparse
  have hrun := run_of_loop (eq_ok_of_toOption hrun)
  have hrun' := run_of_loop (eq_ok_of_toOption hrun')
  have ho : infoContext.environment.overrides ⊆ ⟨[], [], ["info", "debug"]⟩ := by
    refine ⟨List.Subset.refl _, List.Subset.refl _, ?_⟩
    exact List.subset_append_left ["info"] ["debug"]
  obtain ⟨session₁, hrun₁, hkeeps, hlogs⟩ := overrides_keep_more hparse rfl ho hrun'
  obtain rfl : session = session₁ := Except.ok.inj (hrun.symm.trans hrun₁)
  exact ⟨t, session, session', hparse, ho, hrun', hrun, hlength, hlength', hkeeps, hlogs⟩

end Expansion

end LogLabel
