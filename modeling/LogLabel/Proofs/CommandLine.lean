import LogLabel.CommandLine.Run
import LogLabel.Proofs.Expansion.Completeness
import LogLabel.Proofs.Options.History

set_option autoImplicit false

/-!
# Checking and transforming

`check` goes through all sources and reports every failure; `transform` stops at the first one.
The options that both pass on from file to file differ in the kept table of labels only, so each
file fails or not on its own, whatever came before it. A file whose pass does not halt keeps the
command from returning.

* `PassHalts fs options e source`, `failureOf fs options e source`: whether the pass over a source
  halts, and why the source cannot be transformed, with options as they were loaded.
* `checkSources_snd`: `check` reports the failures of all sources, in order.
* `transformSources_fst`: `transform`, without files to write, reports the first of them.
* `runTransform_failures_eq_head`: the two commands compared, when they return and what they report.
* `isSome_runCheck_of_tame`: with tame templates `check` returns, whatever the files are.
-/

namespace LogLabel.CommandLine

open Program (Tree)

/-- Why a source cannot be transformed. -/
def failureOf (fs : FileSystem) (options : Options) (e : Environment) (source : SourceFile) :
    Option Diagnostic :=
  match (transformFile? fs source.path options e).map Prod.fst with
  | some (.error d) => some d
  | _ => none

/-- The pass over a source halts. Only a text that is a program takes a pass, once there is a table
of labels. -/
def PassHalts (fs : FileSystem) (options : Options) (e : Environment) (source : SourceFile) : Prop :=
  ∀ text t table, readSource fs source.path = .ok text → Program.parse .source text = .ok t →
    options.normalize.1 = .ok table →
      Expansion.Halts (options.context table source.path fs.currentPath e) ([t.root], { tree := t })

section Files

variable {fs : FileSystem} {options : Options} {e : Environment} {source : SourceFile}

/-! ## One source -/

/-- What the pass needs to know does not depend on whether the table was made before. -/
theorem context_normalize (table : LabelTable) (filename base : String) :
    options.normalize.2.context table filename base e = options.context table filename base e := by
  obtain ⟨_, -, heq⟩ | ⟨_, -, heq⟩ | ⟨_, -, -, heq⟩ := options.normalize_cases
  · rw [heq]
  · rw [heq]
    rfl
  · rw [heq]

/-- A text that is a program takes a pass, once there is a table of labels. -/
theorem transformFile?_of_program {text : String} {t : Tree} {table : LabelTable}
    (hread : readSource fs source.path = .ok text) (hparse : Program.parse .source text = .ok t)
    (htable : options.normalize.1 = .ok table) :
    transformFile? fs source.path options e
      = (Expansion.run? (options.context table source.path fs.currentPath e) t).map fun
        | .error (d, _) => (.error d, options.normalize.2)
        | .ok session => (.ok ⟨session.tree.print, session.stats⟩, options.normalize.2) := by
  rw [transformFile?, hread]
  dsimp only
  rw [transformSource?, hparse]
  dsimp only
  rw [transformTree?, ← context_normalize]
  obtain ⟨options', hnormalize⟩ : ∃ options', options.normalize = (.ok table, options') :=
    ⟨_, Prod.ext htable rfl⟩
  rw [hnormalize]
  dsimp only
  rw [expandTree?, Option.map_map, Option.map_map]
  congr 1
  funext result
  cases result with
  | error e => rfl
  | ok session => rfl

/-- Any other text fails at once. -/
theorem transformFile?_cases (fs : FileSystem) (options : Options) (e : Environment)
    (source : SourceFile) :
    (∃ d options', transformFile? fs source.path options e = some (.error d, options') ∧
      ∀ text t table, readSource fs source.path = .ok text → Program.parse .source text = .ok t →
        options.normalize.1 ≠ .ok table) ∨
    ∃ text t table, readSource fs source.path = .ok text ∧ Program.parse .source text = .ok t ∧
      options.normalize.1 = .ok table := by
  unfold transformFile?
  cases hread : readSource fs source.path with
  | error d => exact Or.inl ⟨d, options, rfl, fun _ _ _ h => by cases h⟩
  | ok text =>
      dsimp only
      unfold transformSource?
      cases hparse : Program.parse .source text with
      | error d =>
          refine Or.inl ⟨d, options, rfl, fun text' _ _ h h' => ?_⟩
          obtain rfl := Except.ok.inj h
          rw [hparse] at h'
          cases h'
      | ok t =>
          dsimp only
          unfold transformTree?
          cases hnormalize : options.normalize with
          | mk result options' =>
              cases result with
              | error d => exact Or.inl ⟨d, options', rfl, fun _ _ _ _ _ h => by cases h⟩
              | ok table => exact Or.inr ⟨text, t, table, rfl, hparse, rfl⟩

/-- There is a result for a source exactly when the pass over it halts. -/
theorem isSome_transformFile?_iff :
    (transformFile? fs source.path options e).isSome = true ↔ PassHalts fs options e source := by
  rcases transformFile?_cases fs options e source with
    ⟨d, options', heq, hnone⟩ | ⟨text, t, table, hread, hparse, htable⟩
  · rw [heq]
    exact iff_of_true rfl fun text t table hread hparse htable =>
      absurd htable (hnone text t table hread hparse)
  · rw [transformFile?_of_program hread hparse htable, Option.isSome_map, Expansion.isSome_run?_iff]
    constructor
    · intro hhalts text' t' table' hread' hparse' htable'
      obtain rfl := Except.ok.inj (hread.symm.trans hread')
      obtain rfl := Except.ok.inj (hparse.symm.trans hparse')
      obtain rfl := Except.ok.inj (htable.symm.trans htable')
      exact hhalts
    · exact fun h => h text t table hread hparse htable

/-- A source whose pass succeeds has no failure. -/
theorem failureOf_of_run {text : String} {t : Tree} {table : LabelTable}
    (hread : readSource fs source.path = .ok text) (hparse : Program.parse .source text = .ok t)
    (htable : options.normalize.1 = .ok table) {session : Session}
    (hrun : Expansion.run (options.context table source.path fs.currentPath e) t = .ok session) :
    failureOf fs options e source = none ∧ PassHalts fs options e source := by
  rw [← isSome_transformFile?_iff, failureOf, transformFile?_of_program hread hparse htable,
    Expansion.run_eq_ok_iff_run?.1 hrun]
  exact ⟨rfl, rfl⟩

/-- A source whose failure is known has a result. -/
theorem passHalts_of_failureOf {d : Diagnostic} (h : failureOf fs options e source = some d) :
    PassHalts fs options e source := by
  rw [← isSome_transformFile?_iff, ← Option.isSome_map]
  unfold failureOf at h
  split at h
  · next heq => rw [heq]; rfl
  · cases h

/-- Whether the table of labels was made before does not matter, nor which file made it. -/
theorem map_fst_transformFile? {path : String} {r : Except Diagnostic Transformed × Options}
    (h : transformFile? fs path options e = some r) (source : SourceFile) :
    (transformFile? fs source.path r.2 e).map Prod.fst
      = (transformFile? fs source.path options e).map Prod.fst := by
  rcases Options.transformFile?_snd h with heq | heq
  · rw [heq]
  · rw [heq, Options.transformFile?_normalize]

theorem failureOf_snd {path : String} {r : Except Diagnostic Transformed × Options}
    (h : transformFile? fs path options e = some r) : failureOf fs r.2 e = failureOf fs options e := by
  funext source
  rw [failureOf, failureOf, map_fst_transformFile? h]

theorem passHalts_snd {path : String} {r : Except Diagnostic Transformed × Options}
    (h : transformFile? fs path options e = some r) :
    PassHalts fs r.2 e source ↔ PassHalts fs options e source := by
  rw [← isSome_transformFile?_iff, ← isSome_transformFile?_iff, ← Option.isSome_map,
    map_fst_transformFile? h, Option.isSome_map]

/-! ## Checking -/

/-- `check` comes to an end exactly when the passes over all sources halt. -/
theorem isSome_checkSources_iff (sources : List SourceFile) (options : Options) :
    (checkSources e fs sources options).isSome = true
      ↔ ∀ source ∈ sources, PassHalts fs options e source := by
  induction sources generalizing options with
  | nil => exact iff_of_true rfl fun _ h => absurd h List.not_mem_nil
  | cons source sources ih =>
      rw [List.forall_mem_cons, ← isSome_transformFile?_iff, checkSources]
      cases htransform : transformFile? fs source.path options e with
      | none => exact iff_of_false Bool.false_ne_true fun h => Bool.false_ne_true h.1
      | some r =>
          rw [Option.bind_some, Option.isSome_map, ih]
          simp only [passHalts_snd htransform, Option.isSome_some, true_and]

/-- `check` reports the failures of all sources, in their order. -/
theorem checkSources_snd (sources : List SourceFile) (options : Options)
    {checked : String × List Diagnostic} (h : checkSources e fs sources options = some checked) :
    checked.2 = sources.filterMap (failureOf fs options e) := by
  induction sources generalizing options checked with
  | nil =>
      obtain rfl := Option.some.inj h
      rfl
  | cons source sources ih =>
      obtain ⟨r, htransform, h⟩ := Option.bind_eq_some_iff.1 h
      obtain ⟨rest, hrest, rfl⟩ := Option.map_eq_some_iff.1 h
      have hfailures := ih r.2 hrest
      rw [failureOf_snd htransform] at hfailures
      rw [List.filterMap_cons, ← hfailures, failureOf, htransform]
      obtain ⟨result, options'⟩ := r
      cases result with
      | error d => rfl
      | ok transformed => rfl

/-! ## Transforming -/

/-- A source that is reached if nothing goes on after a failure. -/
def Reached (failure : SourceFile → Option Diagnostic) (sources : List SourceFile)
    (source : SourceFile) : Prop :=
  ∃ before after, sources = before ++ source :: after ∧ ∀ b ∈ before, failure b = none

theorem reached_cons_iff {failure : SourceFile → Option Diagnostic} {first : SourceFile}
    {sources : List SourceFile} :
    Reached failure (first :: sources) source ↔
      source = first ∨ (failure first = none ∧ Reached failure sources source) := by
  constructor
  · rintro ⟨before, after, heq, hnone⟩
    match before, heq with
    | [], heq => exact Or.inl (List.cons.inj heq).1.symm
    | _ :: before, heq =>
        obtain ⟨rfl, rfl⟩ := List.cons.inj heq
        rw [List.forall_mem_cons] at hnone
        exact Or.inr ⟨hnone.1, before, after, rfl, hnone.2⟩
  · rintro (rfl | ⟨hfirst, before, after, rfl, hnone⟩)
    · exact ⟨[], sources, rfl, fun b hb => absurd hb List.not_mem_nil⟩
    · exact ⟨first :: before, after, rfl, List.forall_mem_cons.2 ⟨hfirst, hnone⟩⟩

/-- One source that is printed: there is no result, or its failure, or the next state, in which the
files are the same and the options are those that the transformation leaves. -/
theorem transformSourceFile_output (headers : Bool) (source : SourceFile) (p : Progress) :
    (transformFile? p.files source.path p.options e = none ∧
      transformSourceFile .output headers e source p = none) ∨
    (∃ r d, transformFile? p.files source.path p.options e = some r ∧
      failureOf p.files p.options e source = some d ∧
      transformSourceFile .output headers e source p = some (.error d)) ∨
    ∃ r p', transformFile? p.files source.path p.options e = some r ∧
      failureOf p.files p.options e source = none ∧
      transformSourceFile .output headers e source p = some (.ok p') ∧ p'.files = p.files ∧
      p'.options = r.2 := by
  unfold failureOf transformFile? transformSourceFile
  cases hread : readSource p.files source.path with
  | error d => exact Or.inr (Or.inl ⟨_, d, rfl, rfl, rfl⟩)
  | ok text =>
      dsimp only
      cases htransform : transformSource? text source.path p.files.currentPath p.options e with
      | none => exact Or.inl ⟨rfl, rfl⟩
      | some r =>
          obtain ⟨result, options⟩ := r
          cases result with
          | error d => exact Or.inr (Or.inl ⟨_, d, rfl, rfl, rfl⟩)
          | ok transformed => exact Or.inr (Or.inr ⟨_, _, rfl, rfl, rfl, rfl, rfl⟩)

/-- `transform` comes to an end exactly when the passes over the sources up to the first failure
halt. -/
theorem isSome_transformSources_iff (headers : Bool) (sources : List SourceFile) (p : Progress) :
    (transformSources .output headers e sources p).isSome = true
      ↔ ∀ source, Reached (failureOf p.files p.options e) sources source →
        PassHalts p.files p.options e source := by
  induction sources generalizing p with
  | nil =>
      refine iff_of_true rfl ?_
      rintro source ⟨before, after, heq, -⟩
      simp at heq
  | cons first sources ih =>
      simp only [reached_cons_iff, forall_eq_or_imp]
      rw [← isSome_transformFile?_iff, transformSources]
      -- No other source is reached after a failure, so only in the last case the rest matters.
      obtain ⟨hnone, heq⟩ | ⟨r, d, htransform, hfailure, heq⟩ |
        ⟨r, p', htransform, hfailure, heq, hfiles, hoptions⟩ :=
        transformSourceFile_output (e := e) headers first p
      · rw [heq, hnone]
        exact iff_of_false Bool.false_ne_true fun h => Bool.false_ne_true h.1
      · rw [heq, htransform, hfailure]
        simp
      · rw [heq, htransform, hfailure]
        dsimp only
        rw [ih, hfiles, hoptions, failureOf_snd htransform]
        simp only [passHalts_snd htransform, Option.isSome_some, true_and]

/-- `transform` stops at the first failure. -/
theorem transformSources_fst (headers : Bool) (sources : List SourceFile) (p : Progress)
    {done : Option Diagnostic × Progress}
    (h : transformSources .output headers e sources p = some done) :
    done.1 = (sources.filterMap (failureOf p.files p.options e)).head? := by
  induction sources generalizing p with
  | nil =>
      obtain rfl := Option.some.inj h
      rfl
  | cons first sources ih =>
      rw [transformSources] at h
      obtain ⟨-, heq⟩ | ⟨r, d, -, hfailure, heq⟩ |
        ⟨r, p', htransform, hfailure, heq, hfiles, hoptions⟩ :=
        transformSourceFile_output (e := e) headers first p
      · rw [heq] at h
        cases h
      · rw [heq] at h
        obtain rfl := Option.some.inj h
        rw [List.filterMap_cons, hfailure]
        rfl
      · rw [heq] at h
        rw [List.filterMap_cons, hfailure]
        dsimp only
        rw [ih p' h, hfiles, hoptions, failureOf_snd htransform]

end Files

/-! ## The commands -/

section Runs

variable (fs : FileSystem) (paths : List String) (settings : Settings) (e : Environment)

theorem sourcesFor_output : sourcesFor .output fs paths = collectSources fs paths := by
  unfold sourcesFor
  cases collectSources fs paths <;> rfl

variable {fs paths settings} {options : Options} {sources : List SourceFile}

theorem loaded_override (settings : Settings) (h : options.Loaded) :
    (settings.override options).Loaded := by
  unfold Settings.override
  cases settings.strip with
  | none =>
      cases settings.logFunction with
      | none => exact h
      | some name => exact h.withLogFunction name
  | some value =>
      cases settings.logFunction with
      | none => exact h.withStrip _
      | some name => exact (h.withStrip _).withLogFunction name

/-- Options that settings describe have no native synthesizers and keep no table. -/
theorem loaded_of_options (h : settings.options fs = .ok options) : options.Loaded := by
  unfold Settings.options at h
  split at h
  · next path _ =>
      cases hfile : Options.ofFile fs path with
      | error d =>
          rw [hfile] at h
          cases h
      | ok base =>
          rw [hfile] at h
          obtain rfl := Except.ok.inj h
          have horigin : (Options.Origin.file fs path).options = .ok base := hfile
          exact loaded_override settings (Options.loaded_of_origin horigin)
  · obtain rfl := Except.ok.inj h
    exact loaded_override settings ⟨rfl, rfl⟩

/-- What `check` goes through, once there are options and sources. -/
theorem runCheck_eq (hoptions : settings.options fs = .ok options)
    (hsources : collectSources fs paths = .ok sources) :
    runCheck paths settings e fs
      = (checkSources (settings.environmentIn e) fs sources options).map
        fun (output, failures) => { output := output, failures := failures, files := fs } := by
  rw [runCheck, hoptions]
  dsimp only
  rw [hsources]

theorem runCheck_failures (hoptions : settings.options fs = .ok options)
    (hsources : collectSources fs paths = .ok sources) {check : Report}
    (h : runCheck paths settings e fs = some check) :
    check.failures = sources.filterMap (failureOf fs options (settings.environmentIn e)) := by
  rw [runCheck_eq e hoptions hsources] at h
  obtain ⟨checked, hchecked, rfl⟩ := Option.map_eq_some_iff.1 h
  exact checkSources_snd sources options hchecked

/-- What `transform` goes through, once there are options and sources. -/
theorem runTransform_eq (hoptions : settings.options fs = .ok options)
    (hsources : collectSources fs paths = .ok sources) :
    runTransform paths .output settings e fs
      = (transformSources .output (1 < sources.length) (settings.environmentIn e) sources
          { files := fs, options := options }).map fun
        | (some d, p) => { output := p.output, failures := [d], files := p.files }
        | (none, p) =>
            { output := p.output
              summary := some (summaryOf sources.length p.stats)
              files := p.files } := by
  rw [runTransform, hoptions]
  dsimp only
  rewrite [sourcesFor_output, hsources]
  rfl

theorem runTransform_failures (hoptions : settings.options fs = .ok options)
    (hsources : collectSources fs paths = .ok sources) {transform : Report}
    (h : runTransform paths .output settings e fs = some transform) :
    transform.failures
      = (sources.filterMap (failureOf fs options (settings.environmentIn e))).head?.toList := by
  rw [runTransform_eq e hoptions hsources] at h
  obtain ⟨done, hdone, rfl⟩ := Option.map_eq_some_iff.1 h
  have hfirst := transformSources_fst _ sources _ hdone
  rw [← hfirst]
  obtain ⟨failure, p⟩ := done
  cases failure with
  | none => rfl
  | some d => rfl

/-- There are no other options and sources. -/
theorem forall_sources_iff (hoptions : settings.options fs = .ok options)
    (hsources : collectSources fs paths = .ok sources) (P : Options → List SourceFile → Prop) :
    (∀ options sources, settings.options fs = .ok options → collectSources fs paths = .ok sources →
      P options sources) ↔ P options sources := by
  rw [hoptions, hsources]
  refine ⟨fun h => h _ _ rfl rfl, ?_⟩
  rintro h _ _ ⟨⟩ ⟨⟩
  exact h

variable (fs paths settings)

/-- Without options or sources both commands report the same failure. -/
theorem exists_sources_or_refused :
    (∃ options sources, settings.options fs = .ok options ∧ collectSources fs paths = .ok sources) ∨
    ∃ d, runCheck paths settings e fs = some { failures := [d], files := fs } ∧
      runTransform paths .output settings e fs = some { failures := [d], files := fs } ∧
      ∀ options sources, settings.options fs = .ok options →
        collectSources fs paths ≠ .ok sources := by
  unfold runCheck runTransform
  rw [sourcesFor_output]
  cases settings.options fs with
  | error d => exact Or.inr ⟨d, rfl, rfl, fun _ _ h => by cases h⟩
  | ok options =>
      cases collectSources fs paths with
      | error d => exact Or.inr ⟨d, rfl, rfl, fun _ _ _ h => by cases h⟩
      | ok sources => exact Or.inl ⟨options, sources, rfl, rfl⟩

end Runs

/-- The status of a report depends on its failures alone. -/
theorem status_eq_zero_iff (r : Report) : r.status = 0 ↔ r.failures = [] := by
  rw [Report.status]
  cases r.failures <;> simp

/-- **Checking and transforming agree.** `check` returns exactly when the passes over all collected
sources halt, and `transform` when those do that come up to its first failure. If `check` returns, then
so does `transform`. It reports the first failure that `check` reports, so one succeeds exactly when
the other does. Once the options are loaded and the sources are collected, `check` reports one failure
for each source that cannot be read or transformed, with the options as they were loaded, and none for
the others. -/
theorem runTransform_failures_eq_head (fs : FileSystem) (paths : List String) (settings : Settings)
    (e : Environment) :
    ((runCheck paths settings e fs).isSome = true ↔
      ∀ options sources, settings.options fs = .ok options → collectSources fs paths = .ok sources →
        ∀ source ∈ sources, PassHalts fs options (settings.environmentIn e) source) ∧
    ((runTransform paths .output settings e fs).isSome = true ↔
      ∀ options sources, settings.options fs = .ok options → collectSources fs paths = .ok sources →
        ∀ source, Reached (failureOf fs options (settings.environmentIn e)) sources source →
          PassHalts fs options (settings.environmentIn e) source) ∧
    ∀ check, runCheck paths settings e fs = some check →
      ∃ transform, runTransform paths .output settings e fs = some transform ∧
        (check.status = 0 ↔ transform.status = 0) ∧
        transform.failures = check.failures.head?.toList ∧
        ∀ options sources, settings.options fs = .ok options → collectSources fs paths = .ok sources →
          check.failures = sources.filterMap (failureOf fs options (settings.environmentIn e)) := by
  rcases exists_sources_or_refused fs paths settings e with
    ⟨options, sources, hoptions, hsources⟩ | ⟨d, hcheck, htransform, hnone⟩
  · have hcheck : (runCheck paths settings e fs).isSome = true ↔
        ∀ source ∈ sources, PassHalts fs options (settings.environmentIn e) source := by
      rw [runCheck_eq e hoptions hsources, Option.isSome_map, isSome_checkSources_iff]
    have htransform : (runTransform paths .output settings e fs).isSome = true ↔
        ∀ source, Reached (failureOf fs options (settings.environmentIn e)) sources source →
          PassHalts fs options (settings.environmentIn e) source := by
      rw [runTransform_eq e hoptions hsources, Option.isSome_map, isSome_transformSources_iff]
    refine ⟨hcheck.trans (forall_sources_iff hoptions hsources fun options sources =>
        ∀ source ∈ sources, PassHalts fs options (settings.environmentIn e) source).symm,
      htransform.trans (forall_sources_iff hoptions hsources fun options sources =>
        ∀ source, Reached (failureOf fs options (settings.environmentIn e)) sources source →
          PassHalts fs options (settings.environmentIn e) source).symm, fun check h => ?_⟩
    -- The sources that are reached are among the collected ones.
    have hreturns : (runTransform paths .output settings e fs).isSome = true := by
      refine htransform.2 fun source hreached => hcheck.1 (by rw [h]; rfl) source ?_
      obtain ⟨before, after, rfl, -⟩ := hreached
      exact List.mem_append_right _ List.mem_cons_self
    obtain ⟨transform, htransform⟩ := Option.isSome_iff_exists.1 hreturns
    have hfailures := runCheck_failures e hoptions hsources h
    have hfirst : transform.failures = check.failures.head?.toList := by
      rw [hfailures, runTransform_failures e hoptions hsources htransform]
    refine ⟨transform, htransform, ?_, hfirst, (forall_sources_iff hoptions hsources _).2 hfailures⟩
    rw [status_eq_zero_iff, status_eq_zero_iff, hfirst]
    cases check.failures <;> simp
  · refine ⟨iff_of_true (by rw [hcheck]; rfl) fun options sources ho hs => ?_,
      iff_of_true (by rw [htransform]; rfl) fun options sources ho hs => ?_, fun check h => ?_⟩
    · exact absurd hs (hnone options sources ho)
    · exact absurd hs (hnone options sources ho)
    · obtain rfl := Option.some.inj (hcheck.symm.trans h)
      exact ⟨_, htransform, Iff.rfl, rfl, fun options sources ho hs =>
        absurd hs (hnone options sources ho)⟩

/-- With tame templates `check` returns, whatever the files are. -/
theorem isSome_runCheck_of_tame {fs : FileSystem} {paths : List String} {settings : Settings}
    {e : Environment} (htame : ∀ options table, settings.options fs = .ok options →
      options.normalize.1 = .ok table → table.Tame) :
    (runCheck paths settings e fs).isSome = true := by
  rcases exists_sources_or_refused fs paths settings e with
    ⟨options, sources, hoptions, hsources⟩ | ⟨d, hcheck, -, -⟩
  · rw [runCheck_eq e hoptions hsources, Option.isSome_map, isSome_checkSources_iff]
    intro source _ text t table _ hparse htable
    have hbuilt : Options.buildTable options.templates [] = .ok table := by
      rw [← (loaded_of_options hoptions).normalize_fst, htable]
    rw [← Expansion.ends_iff_halts (Expansion.noNative_of_buildTable hbuilt)
      (Expansion.sound_parse hparse)]
    exact Expansion.ends_of_tame hparse hbuilt (htame options table hoptions htable)
  · rw [hcheck]
    rfl

/-- A directory with a source to transform between one that is no program and one that cannot be
read. -/
def mixedFiles : FileSystem where
  root := .directory [("src", .directory
    [("a.js", .file "(".toUTF8), ("b.js", .file "debug:a".toUTF8), ("c.mjs", .locked .denied)])]
  current := []

/-- An environment without variables. -/
def bareEnvironment : Environment := .ofVariables fun _ => none

/-- Two of three sources fail, and the first of them stops `transform`. -/
theorem runTransform_failures_eq_head_mixed :
    ∃ check transform, runCheck ["src"] {} bareEnvironment mixedFiles = some check ∧
      runTransform ["src"] .output {} bareEnvironment mixedFiles = some transform ∧
      check.failures
        = [⟨.malformedProgram, some ⟨1, 1⟩⟩, ⟨.unreadableSource "src/c.mjs" .denied, none⟩] ∧
      transform.failures = [⟨.malformedProgram, some ⟨1, 1⟩⟩] := by
  obtain ⟨hreturns, -, hreports⟩ :=
    runTransform_failures_eq_head mixedFiles ["src"] {} bareEnvironment
  have hoptions : ({} : Settings).options mixedFiles = .ok {} := rfl
  have hsources : collectSources mixedFiles ["src"]
      = .ok [⟨"src/a.js", "a.js"⟩, ⟨"src/b.js", "b.js"⟩, ⟨"src/c.mjs", "c.mjs"⟩] := rfl
  have hfirst : failureOf mixedFiles {} bareEnvironment ⟨"src/a.js", "a.js"⟩
      = some ⟨.malformedProgram, some ⟨1, 1⟩⟩ := by decide +kernel
  have hlast : failureOf mixedFiles {} bareEnvironment ⟨"src/c.mjs", "c.mjs"⟩
      = some ⟨.unreadableSource "src/c.mjs" .denied, none⟩ := by decide +kernel
  -- The pass over the second source succeeds.
  have hread : readSource mixedFiles "src/b.js" = .ok "debug:a" :=
    eq_ok_of_toOption (by decide +kernel)
  have hseen : Expansion.observe
      (Options.context {} LabelTable.defaults "src/b.js" mixedFiles.currentPath bareEnvironment)
      (fun _ _ => ()) "debug:a" = some () := by decide +kernel
  have htable : ({} : Options).normalize.1 = .ok LabelTable.defaults :=
    (Options.Loaded.normalize_fst ⟨rfl, rfl⟩).trans Options.buildTable_none
  obtain ⟨t, session, hparse, hrun, -⟩ := Expansion.exists_of_observe hseen
  obtain ⟨hsecond, hhalts⟩ : failureOf mixedFiles {} bareEnvironment ⟨"src/b.js", "b.js"⟩ = none ∧
      PassHalts mixedFiles {} bareEnvironment ⟨"src/b.js", "b.js"⟩ :=
    failureOf_of_run hread hparse htable hrun
  have hreturn : (runCheck ["src"] {} bareEnvironment mixedFiles).isSome = true := by
    rw [hreturns]
    intro options sources ho hs
    obtain rfl := Except.ok.inj (hoptions.symm.trans ho)
    obtain rfl := Except.ok.inj (hsources.symm.trans hs)
    simp only [List.forall_mem_cons]
    exact ⟨passHalts_of_failureOf hfirst, hhalts, passHalts_of_failureOf hlast, by simp⟩
  obtain ⟨check, hcheck⟩ := Option.isSome_iff_exists.1 hreturn
  obtain ⟨transform, htransform, -, hhead, hfailures⟩ := hreports check hcheck
  have hreported : check.failures
      = [⟨.malformedProgram, some ⟨1, 1⟩⟩, ⟨.unreadableSource "src/c.mjs" .denied, none⟩] := by
    rw [hfailures {} _ hoptions hsources]
    change List.filterMap (failureOf mixedFiles {} bareEnvironment) _ = _
    rw [List.filterMap_cons, hfirst, List.filterMap_cons, hsecond, List.filterMap_cons, hlast]
    rfl
  rw [hreported] at hhead
  exact ⟨check, transform, hcheck, htransform, hreported, hhead⟩

/-! ## Commands that never return -/

/-- Two sources of which the first is no program, with a template that is a block with its own label
in it. -/
def relapsingFiles : FileSystem where
  root := .directory
    [("a.js", .file "(".toUTF8), ("b.js", .file "debug:a".toUTF8),
      ("c.json", .file
        "\x7b\"aliases\":\x7b\"debug\":\"\x7bdebug:f(%%content%%)\x7d\"\x7d\x7d".toUTF8)]
  current := []

/-- Settings with these templates. -/
def relapsingSettings : Settings := { config := some "c.json" }

/-- The first source fails, and `transform` reports it. The pass over the second one does not halt, so
`check` never returns and reports nothing. -/
theorem check_never_returns :
    ∃ (options : Options) (transform : Report),
      relapsingSettings.options relapsingFiles = .ok options ∧
      collectSources relapsingFiles ["a.js", "b.js"] = .ok [⟨"a.js", "a.js"⟩, ⟨"b.js", "b.js"⟩] ∧
      failureOf relapsingFiles options bareEnvironment ⟨"a.js", "a.js"⟩
        = some ⟨.malformedProgram, some ⟨1, 1⟩⟩ ∧
      runTransform ["a.js", "b.js"] .output relapsingSettings bareEnvironment relapsingFiles
        = some transform ∧
      transform.failures = [⟨.malformedProgram, some ⟨1, 1⟩⟩] ∧
      runCheck ["a.js", "b.js"] relapsingSettings bareEnvironment relapsingFiles = none := by
  have hseen : (relapsingSettings.options relapsingFiles).toOption.map (fun o =>
      (o.strip.isNone, o.normalize.1.toOption.map (Expansion.hasRelapse "debug"),
        failureOf relapsingFiles o bareEnvironment ⟨"a.js", "a.js"⟩))
      = some (true, some true, some ⟨.malformedProgram, some ⟨1, 1⟩⟩) := by decide +kernel
  have hread : readSource relapsingFiles "b.js" = .ok "debug:a" :=
    eq_ok_of_toOption (by decide +kernel)
  have hprogram : (Program.parse .source "debug:a").toOption.map
      (fun t => Expansion.isNameBelow "debug" t.program) = some true := by decide +kernel
  have hreported : (runTransform ["a.js", "b.js"] .output relapsingSettings bareEnvironment
      relapsingFiles).map Report.failures = some [⟨.malformedProgram, some ⟨1, 1⟩⟩] := by
    decide +kernel
  have hsources : collectSources relapsingFiles ["a.js", "b.js"]
      = .ok [⟨"a.js", "a.js"⟩, ⟨"b.js", "b.js"⟩] := rfl
  obtain ⟨options, hoptions, hseen⟩ := Option.map_eq_some_iff.1 hseen
  have hoptions := eq_ok_of_toOption hoptions
  obtain ⟨hstrip, hrelapse, hfailure⟩ : options.strip.isNone = true ∧ _ ∧ _ := by
    simpa only [Prod.mk.injEq] using hseen
  obtain ⟨table, htable, hrelapse⟩ := Option.map_eq_some_iff.1 hrelapse
  have htable := eq_ok_of_toOption htable
  obtain ⟨t, hparse, hshape⟩ := Option.map_eq_some_iff.1 hprogram
  have hparse := eq_ok_of_toOption hparse
  obtain ⟨transform, htransform, hreported⟩ := Option.map_eq_some_iff.1 hreported
  refine ⟨options, transform, hoptions, hsources, hfailure, htransform, hreported, ?_⟩
  -- The template makes its own label again, so the pass over the second source does not halt.
  have hnever : ¬ PassHalts relapsingFiles options bareEnvironment ⟨"b.js", "b.js"⟩ := by
    intro hhalts
    have hbuilt : Options.buildTable options.templates [] = .ok table := by
      rw [← (loaded_of_options hoptions).normalize_fst, htable]
    exact Expansion.not_halts_of_hasRelapse hparse hbuilt (Option.isNone_iff_eq_none.1 hstrip)
      hrelapse hshape (hhalts "debug:a" t table hread hparse htable)
  rw [← Option.not_isSome_iff_eq_none, runCheck_eq _ hoptions hsources, Option.isSome_map,
    isSome_checkSources_iff]
  exact fun h => hnever (h _ (List.mem_cons_of_mem _ List.mem_cons_self))

end LogLabel.CommandLine
