import LogLabel.Proofs.Options.Table
import LogLabel.Sources

set_option autoImplicit false

/-!
# Options in use

A client holds options, copies them, changes them and transforms with them, in any order. The
table of labels is made by the first use that needs it and kept; a change that could alter it
drops it. So the table that is kept is always the one that the options describe now.

* `Origin`, `Use`, `Action`: where options come from, what is done with them, and the steps of a
  client that holds several of them.
* `Coherent o`: a table that is kept is the one that `o` describes.
* `coherent_apply`, `coherent_held`: every use keeps that, hence every history does.
* `normalize_held`: what making the table answers after any history.
-/

namespace LogLabel.Options

/-! ## Histories -/

/-- Where options come from. -/
inductive Origin where
  | new
  | json (text : String)
  | yaml (text : String)
  | file (files : FileSystem) (path : String)

/-- The options of an origin, or the failure to load them. -/
def Origin.options : Origin → Except Diagnostic Options
  | new => .ok {}
  | json text => ofJson text
  | yaml text => ofYaml text
  | file files path => ofFile files path

/-- What is done with options. -/
inductive Use where
  | strip (policy : Strip)
  | logFunction (name : String)
  | template (label source : String)
  | native (label : String) (make : Native)
  | normalize
  | transformTree (t : Program.Tree) (filename base : String) (environment : Environment)
  | transformSource (text filename base : String) (environment : Environment)
  | transformFile (files : FileSystem) (path : String) (environment : Environment)

/-- The options after a use. Transforming and making the table change nothing but the table that is
kept. -/
def Use.apply (o : Options) : Use → Options
  | strip policy => o.withStrip policy
  | logFunction name => o.withLogFunction name
  | template label source => o.withTemplate label source
  | native label make => o.withNative label make
  | normalize => o.normalize.2
  | transformTree t filename base e => (LogLabel.transformTree t filename base o e).2.2
  | transformSource text filename base e => (LogLabel.transformSource text filename base o e).2
  | transformFile files path e => (LogLabel.transformFile files path o e).2

/-- A step of a client that holds several options, by their places. -/
inductive Action where
  | load (origin : Origin)
  | copy (place : Nat)
  | use (place : Nat) (u : Use)

/-- The options that are held after a step. Options that cannot be loaded are not held. -/
def Action.step (held : List Options) : Action → List Options
  | load origin =>
      match origin.options with
      | .ok o => held ++ [o]
      | .error _ => held
  | copy place => held ++ held[place]?.toList
  | use place u => held.modify place u.apply

/-- The options that are held after a history. -/
def held (history : List Action) : List Options := history.foldl Action.step []

/-! ## Coherence -/

/-- A table that is kept is the one that the options describe. -/
def Coherent (o : Options) : Prop :=
  ∀ table, o.table = some table → buildTable o.templates o.natives = .ok table

variable {o : Options}

theorem coherent_of_table (h : o.table = none) : o.Coherent := by
  intro table htable
  rw [h] at htable
  cases htable

/-- Making the table: it is there, or it is made and kept, or it cannot be made. -/
theorem normalize_cases (o : Options) :
    (∃ table, o.table = some table ∧ o.normalize = (.ok table, o)) ∨
    (∃ table, buildTable o.templates o.natives = .ok table ∧
      o.normalize = (.ok table, { o with table := some table })) ∨
    ∃ d, buildTable o.templates o.natives = .error d ∧ o.table = none ∧
      o.normalize = (.error d, o) := by
  unfold normalize
  cases htable : o.table with
  | some table => exact Or.inl ⟨table, rfl, rfl⟩
  | none =>
      cases buildTable o.templates o.natives with
      | ok table => exact Or.inr (Or.inl ⟨table, rfl, rfl⟩)
      | error d => exact Or.inr (Or.inr ⟨d, rfl, rfl, rfl⟩)

/-- Making the table again gives the same answer and keeps the same table. -/
theorem normalize_normalize (o : Options) : o.normalize.2.normalize = o.normalize := by
  obtain ⟨table, -, heq⟩ | ⟨table, -, heq⟩ | ⟨d, -, -, heq⟩ := o.normalize_cases
  · rw [heq, heq]
  · rw [heq]
    rfl
  · rw [heq, heq]

/-- A table that cannot be made is not kept. -/
theorem table_of_normalize_error {d : Diagnostic} (h : o.normalize.1 = .error d) :
    o.normalize.2.table = none := by
  obtain ⟨table, -, heq⟩ | ⟨table, -, heq⟩ | ⟨d', -, htable, heq⟩ := o.normalize_cases
  · rw [heq] at h
    cases h
  · rw [heq] at h
    cases h
  · rw [heq]
    exact htable

namespace Coherent

/-- Making the table answers what the options describe. -/
theorem normalize_fst (h : o.Coherent) : o.normalize.1 = buildTable o.templates o.natives := by
  obtain ⟨table, htable, heq⟩ | ⟨table, hbuilt, heq⟩ | ⟨d, herror, -, heq⟩ := o.normalize_cases
  · rw [heq, h table htable]
  · rw [heq, hbuilt]
  · rw [heq, herror]

theorem normalize_snd (h : o.Coherent) : o.normalize.2.Coherent := by
  obtain ⟨table, -, heq⟩ | ⟨table, hbuilt, heq⟩ | ⟨d, -, -, heq⟩ := o.normalize_cases
  · rwa [heq]
  · rw [heq]
    intro table' htable'
    cases htable'
    exact hbuilt
  · rwa [heq]

end Coherent

/-! ## Transforming -/

section Transforming

variable {files : FileSystem} {path : String} {t : Program.Tree} {text filename base : String}
  {e : Environment}

theorem transformTree?_snd {r : Except Diagnostic Stats × Program.Tree × Options}
    (h : transformTree? t filename base o e = some r) : r.2.2 = o.normalize.2 := by
  unfold transformTree? at h
  split at h
  · next hnormalize =>
      obtain rfl := Option.some.inj h
      rw [hnormalize]
  · next hnormalize =>
      obtain ⟨expanded, -, rfl⟩ := Option.map_eq_some_iff.1 h
      rw [hnormalize]

/-- A transformation makes the table, unless the text is no program. -/
theorem transformSource?_snd {r : Except Diagnostic Transformed × Options}
    (h : transformSource? text filename base o e = some r) : r.2 = o ∨ r.2 = o.normalize.2 := by
  unfold transformSource? at h
  split at h
  · obtain rfl := Option.some.inj h
    exact Or.inl rfl
  · obtain ⟨transformed, htransformed, hr⟩ := Option.map_eq_some_iff.1 h
    refine Or.inr ?_
    rw [← transformTree?_snd htransformed, ← hr]
    obtain ⟨result, t, o'⟩ := transformed
    cases result with
    | error d => rfl
    | ok stats => rfl

theorem transformFile?_snd {r : Except Diagnostic Transformed × Options}
    (h : transformFile? files path o e = some r) : r.2 = o ∨ r.2 = o.normalize.2 := by
  unfold transformFile? at h
  split at h
  · obtain rfl := Option.some.inj h
    exact Or.inl rfl
  · exact transformSource?_snd h

/-- Transforming with options whose table was made before gives the same. -/
theorem transformTree?_normalize :
    transformTree? t filename base o.normalize.2 e = transformTree? t filename base o e := by
  rw [transformTree?, transformTree?, normalize_normalize]

theorem transformFile?_normalize : (transformFile? files path o.normalize.2 e).map Prod.fst
    = (transformFile? files path o e).map Prod.fst := by
  unfold transformFile?
  split
  · rfl
  · unfold transformSource?
    split
    · rfl
    · rw [transformTree?_normalize]

variable (o files path t text filename base e)

theorem transformTree_snd : (transformTree t filename base o e).2.2 = o.normalize.2 := by
  unfold transformTree
  cases h : transformTree? t filename base o e with
  | none => rfl
  | some r => exact transformTree?_snd h

theorem transformSource_snd : (transformSource text filename base o e).2 = o ∨
    (transformSource text filename base o e).2 = o.normalize.2 := by
  unfold transformSource
  cases h : transformSource? text filename base o e with
  | none => exact Or.inr rfl
  | some r => exact transformSource?_snd h

theorem transformFile_snd : (transformFile files path o e).2 = o ∨
    (transformFile files path o e).2 = o.normalize.2 := by
  unfold transformFile
  cases h : transformFile? files path o e with
  | none => exact Or.inr rfl
  | some r => exact transformFile?_snd h

end Transforming

/-! ## Every history -/

/-- Every use keeps options coherent: it drops the table, or changes nothing that the table depends
on, or keeps the table that the options describe. -/
theorem coherent_apply (u : Use) (h : o.Coherent) : (u.apply o).Coherent := by
  cases u with
  | strip policy => exact coherent_of_table rfl
  | logFunction name => exact h
  | template label source => exact coherent_of_table rfl
  | native label make => exact coherent_of_table rfl
  | normalize => exact h.normalize_snd
  | transformTree t filename base e =>
      rw [Use.apply, transformTree_snd]
      exact h.normalize_snd
  | transformSource text filename base e =>
      rw [Use.apply]
      rcases transformSource_snd o text filename base e with heq | heq <;> rw [heq]
      · exact h
      · exact h.normalize_snd
  | transformFile files path e =>
      rw [Use.apply]
      rcases transformFile_snd o files path e with heq | heq <;> rw [heq]
      · exact h
      · exact h.normalize_snd

/-- Options as they are loaded: without native synthesizers, and without a table that is kept. -/
structure Loaded (o : Options) : Prop where
  natives_eq : o.natives = []
  table_eq : o.table = none

/-- The table of loaded options is made of their templates. -/
theorem Loaded.normalize_fst (h : o.Loaded) : o.normalize.1 = buildTable o.templates [] := by
  rw [(coherent_of_table h.table_eq).normalize_fst, h.natives_eq]

theorem Loaded.withStrip (h : o.Loaded) (policy : Strip) : (o.withStrip policy).Loaded :=
  ⟨h.natives_eq, rfl⟩

theorem Loaded.withLogFunction (h : o.Loaded) (name : String) : (o.withLogFunction name).Loaded :=
  ⟨h.natives_eq, h.table_eq⟩

theorem loaded_of_ofValues? {templates strip logFunction : Option Document.Value}
    (h : ofValues? templates strip logFunction = some o) : o.Loaded := by
  simp only [ofValues?, Option.bind_eq_bind, Option.bind_eq_some_iff] at h
  obtain ⟨_, -, _, -, _, -, h⟩ := h
  cases h
  exact ⟨rfl, rfl⟩

theorem loaded_of_ofNodes? {templates strip logFunction : Option Document.Yaml.Node}
    (h : ofNodes? templates strip logFunction = some o) : o.Loaded := by
  simp only [ofNodes?, Option.bind_eq_bind, Option.bind_eq_some_iff] at h
  obtain ⟨_, -, _, -, _, -, h⟩ := h
  cases h
  exact ⟨rfl, rfl⟩

theorem eq_some_of_ofReading {reading : Option Options} (h : ofReading reading = .ok o) :
    reading = some o := by
  cases reading with
  | none => cases h
  | some o' =>
      cases h
      rfl

theorem loaded_of_ofJson {text : String} (h : ofJson text = .ok o) : o.Loaded := by
  obtain ⟨v, -, hv⟩ := Option.bind_eq_some_iff.1 (eq_some_of_ofReading h)
  unfold ofValue? at hv
  split at hv
  · split at hv
    · exact loaded_of_ofValues? hv
    · cases hv
  · split at hv
    · exact loaded_of_ofValues? hv
    · cases hv
  · cases hv

theorem loaded_of_ofYaml {text : String} (h : ofYaml text = .ok o) : o.Loaded := by
  obtain ⟨n, -, hn⟩ := Option.bind_eq_some_iff.1 (eq_some_of_ofReading h)
  simp only [ofNode?, Option.bind_eq_bind, Option.bind_eq_some_iff] at hn
  obtain ⟨_, -, _, -, hn⟩ := hn
  split at hn
  · exact loaded_of_ofNodes? hn
  · cases hn

theorem loaded_of_origin {origin : Origin} (h : origin.options = .ok o) : o.Loaded := by
  cases origin with
  | new =>
      cases h
      exact ⟨rfl, rfl⟩
  | json text => exact loaded_of_ofJson h
  | yaml text => exact loaded_of_ofYaml h
  | file files path =>
      rw [Origin.options, ofFile] at h
      split at h
      · cases h
      · dsimp only at h
        split at h
        · exact loaded_of_ofJson h
        · split at h
          · exact loaded_of_ofYaml h
          · cases h

/-- A step of a client keeps all held options coherent. -/
theorem coherent_step {options : List Options} (h : ∀ o ∈ options, o.Coherent) (a : Action) :
    ∀ o ∈ a.step options, o.Coherent := by
  intro o ho
  cases a with
  | load origin =>
      rw [Action.step] at ho
      split at ho
      · next o' hload =>
          rcases List.mem_append.1 ho with ho | ho
          · exact h o ho
          · obtain rfl := List.mem_singleton.1 ho
            exact coherent_of_table (loaded_of_origin hload).table_eq
      · exact h o ho
  | copy place =>
      rcases List.mem_append.1 ho with ho | ho
      · exact h o ho
      · exact h o (List.mem_of_getElem? (Option.mem_toList.1 ho))
  | use place u =>
      obtain ⟨i, hi⟩ := List.mem_iff_getElem?.1 ho
      rw [Action.step, List.getElem?_modify] at hi
      obtain ⟨o', ho', rfl⟩ := Option.map_eq_some_iff.1 hi
      have hcoherent := h o' (List.mem_of_getElem? ho')
      split
      · exact coherent_apply u hcoherent
      · exact hcoherent

/-- After every history all held options are coherent. -/
theorem coherent_held (history : List Action) : ∀ o ∈ held history, o.Coherent := by
  have hrun : ∀ (history : List Action) (options : List Options), (∀ o ∈ options, o.Coherent) →
      ∀ o ∈ history.foldl Action.step options, o.Coherent := by
    intro history
    induction history with
    | nil => intro options h; exact h
    | cons a history ih => intro options h; exact ih _ (coherent_step h a)
  exact hrun history [] fun o ho => absurd ho List.not_mem_nil

/-- **The table of labels after any history.** A table that is kept is the one that the options
describe; a table that cannot be made is not kept; and the answer depends on the templates and the
native synthesizers alone. A name stands for the last native synthesizer that was given for it, or
else for what the map of templates says, or without such a map for its built-in meaning. There is no
table exactly when an entry of the map is at fault, and the first such entry in the order of the
names is reported. -/
theorem normalize_held (history : List Action) (o : Options) (ho : o ∈ held history) :
    (∀ table, o.table = some table → buildTable o.templates o.natives = .ok table) ∧
    (∀ d, o.normalize.1 = .error d → o.normalize.2.isNormalized = false) ∧
    o.normalize.1 = buildTable o.templates o.natives ∧
    (∀ table, o.normalize.1 = .ok table → ∀ name, table.get? name
      = ((o.natives.reverse.lookup name).map Synthesizer.native).or (described? o.templates name)) ∧
    ((∃ d, o.normalize.1 = .error d) ↔ ∃ m name d, o.templates = some m ∧ Fault m name d) ∧
    ∀ d, o.normalize.1 = .error d ↔
      ∃ m name, o.templates = some m ∧ Fault m name d ∧
        ∀ other e, Fault m other e → name ≤ other := by
  have hcoherent := coherent_held history o ho
  have hanswer := hcoherent.normalize_fst
  refine ⟨hcoherent, fun d h => ?_, hanswer, fun table h => ?_, ?_, fun d => ?_⟩
  · rw [isNormalized, table_of_normalize_error h]
    rfl
  · exact get?_of_buildTable (hanswer ▸ h)
  · rw [hanswer]
    exact exists_buildTable_eq_error_iff
  · rw [hanswer]
    exact buildTable_eq_error_iff

/-- A native synthesizer that gives up. -/
def refusing (message : String) : Native := fun _ _ => .error ⟨.nativeFailure message, none⟩

/-- The table of copied options is made again after a second native synthesizer was given. -/
theorem normalize_held_copied :
    ∃ o ∈ held [.load .new, .use 0 (.native "note" (refusing "first")), .use 0 .normalize, .copy 0,
        .use 1 (.native "note" (refusing "second")), .use 1 .normalize],
      ∃ table, o.normalize.1 = .ok table ∧
        table.get? "note" = some (.native (refusing "second")) ∧
        table.get? "warnRefs" = LabelTable.defaults.get? "warnRefs" := by
  obtain ⟨o, ho, htemplates, hnatives⟩ : ∃ o ∈ held [.load .new,
      .use 0 (.native "note" (refusing "first")), .use 0 .normalize, .copy 0,
      .use 1 (.native "note" (refusing "second")), .use 1 .normalize], o.templates = none ∧
        o.natives = [("note", refusing "first"), ("note", refusing "second")] :=
    ⟨_, List.mem_cons_of_mem _ List.mem_cons_self, rfl, rfl⟩
  obtain ⟨-, -, hanswer, hnames, -, -⟩ := normalize_held _ o ho
  rw [htemplates, hnatives] at hanswer hnames
  obtain ⟨table, htable⟩ : ∃ table, o.normalize.1 = .ok table := ⟨_, hanswer⟩
  refine ⟨o, ho, table, htable, ?_, ?_⟩
  · rw [hnames table htable]
    rfl
  · rw [hnames table htable]
    rfl

end LogLabel.Options
