import LogLabel.Options
import Mathlib.Data.String.Basic

set_option autoImplicit false

/-!
# The table of labels

What the table of labels has under a name, and when there is no table.

* `NameMap.get?_insert`, `NameMap.mem_entries_iff`: a map holds what was put in last, and lists it.
* `Synthesizer.builtin?_eq_get?`: taking an ending off a name and looking it up among the built-in
  labels are the same, for every name.
* `Options.Fault m name d`: the entry of a label in a map of templates cannot be used.
* `Options.exists_buildTable_eq_error_iff`, `Options.buildTable_eq_error_iff`: the table cannot be
  made exactly when there is such an entry, and the first one in the order of the names is reported.
* `Options.get?_of_buildTable`: what a table has under a name.
-/

namespace LogLabel

/-! ## Maps -/

namespace NameMap

variable {α : Type} {m : NameMap α} {name : String} {value : α}

theorem lookup_cons_eq_ite (n : String) (e : String × α) (es : List (String × α)) :
    (e :: es).lookup n = if n = e.1 then some e.2 else es.lookup n := by
  by_cases hn : n = e.1
  · rw [if_pos hn, List.lookup_cons, beq_iff_eq.2 hn]
  · rw [if_neg hn, List.lookup_cons, beq_eq_false_iff_ne.2 hn]

theorem lookup_insertEntry (name : String) (value : α) (n : String) (es : List (String × α)) :
    (insertEntry name value es).lookup n = if n = name then some value else es.lookup n := by
  induction es with
  | nil => exact lookup_cons_eq_ite n (name, value) []
  | cons e es ih =>
      rw [insertEntry]
      split
      · next heq =>
          rw [lookup_cons_eq_ite, lookup_cons_eq_ite, ← heq]
          split <;> rfl
      · next hne =>
          split
          · exact lookup_cons_eq_ite n (name, value) (e :: es)
          · rw [lookup_cons_eq_ite, lookup_cons_eq_ite, ih]
            split
            · next hn => rw [if_neg (hn ▸ Ne.symm hne)]
            · rfl

/-- A map holds what was put in last under a name. -/
theorem get?_insert (m : NameMap α) (name : String) (value : α) (n : String) :
    (m.insert name value).get? n = if n = name then some value else m.get? n :=
  lookup_insertEntry name value n m.entries

/-- In entries in order, a name is found at its only place. -/
theorem Ordered.lookup_eq_some {es : List (String × α)} (h : Ordered es)
    (hmem : (name, value) ∈ es) : es.lookup name = some value := by
  obtain ⟨before, after, rfl⟩ := List.append_of_mem hmem
  refine List.lookup_eq_some_iff.2 ⟨before, after, rfl, fun e he => ?_⟩
  have hlt : e.1 < name := (List.pairwise_append.1 h).2.2 e he _ List.mem_cons_self
  exact bne_iff_ne.2 hlt.ne'

/-- A map lists what it holds. -/
theorem mem_entries_iff : (name, value) ∈ m.entries ↔ m.get? name = some value := by
  refine ⟨fun h => m.ordered.lookup_eq_some h, fun h => ?_⟩
  obtain ⟨before, after, hentries, -⟩ := List.lookup_eq_some_iff.1 h
  rw [hentries]
  exact List.mem_append_right _ List.mem_cons_self

/-- Entries put into a map hide what it held under their names, the later ones the earlier ones. -/
theorem get?_foldl_insert (es : List (String × α)) (m : NameMap α) (name : String) :
    (es.foldl (fun m e => m.insert e.1 e.2) m).get? name
      = (es.reverse.lookup name).or (m.get? name) := by
  induction es generalizing m with
  | nil => rfl
  | cons e es ih =>
      rw [List.foldl_cons, ih, get?_insert, List.reverse_cons, List.lookup_append, Option.or_assoc]
      congr 1
      rw [lookup_cons_eq_ite]
      split <;> rfl

/-- The map of a list of entries holds the last one under each name. -/
theorem get?_ofList (es : List (String × α)) (name : String) :
    (ofList es).get? name = es.reverse.lookup name :=
  (get?_foldl_insert es empty name).trans Option.or_none

end NameMap

/-! ## Names of built-in labels -/

theorem Level.name_of_ofName? {name : String} {level : Level} (h : ofName? name = some level) :
    level.name = name := by
  have hfound := List.find?_some h
  exact of_decide_eq_true hfound

theorem Level.ofName?_name (level : Level) : ofName? level.name = some level := by
  cases level <;> decide

namespace Synthesizer

variable {name : String} {s : Synthesizer} {level : Level}

/-- Taking an ending off a name leaves what stands before it. -/
theorem eq_append_of_dropEnding? {ending base : String} (h : dropEnding? ending name = some base) :
    name = base ++ ending := by
  unfold dropEnding? at h
  split at h
  · next hends =>
      obtain ⟨front, hfront⟩ := List.isSuffixOf_iff_suffix.1 hends
      have hlength : name.length - ending.length = front.length := by
        rw [← String.length_toList, ← String.length_toList, ← hfront, List.length_append]
        exact Nat.add_sub_cancel _ _
      rw [hlength, ← hfront, List.take_left, Option.some.injEq] at h
      rw [← String.toList_inj, String.toList_append, ← h, String.toList_ofList, hfront]
  · cases h

/-- A name is its base with the ending that was taken off. -/
theorem name_of_splitName {base : String} {values : Bool} (h : splitName name = (base, values)) :
    (name = base ∧ values = true) ∨ (name = base ++ "Values" ∧ values = true) ∨
      (name = base ++ "Refs" ∧ values = false) := by
  unfold splitName at h
  split at h
  · next hvalues =>
      cases h
      exact Or.inr (Or.inl ⟨eq_append_of_dropEnding? hvalues, rfl⟩)
  · split at h
    · next hrefs =>
        cases h
        exact Or.inr (Or.inr ⟨eq_append_of_dropEnding? hrefs, rfl⟩)
    · cases h
      exact Or.inl ⟨rfl, rfl⟩

theorem splitName_name (level : Level) : splitName level.name = (level.name, true) := by
  cases level <;> decide

theorem splitName_values (level : Level) :
    splitName (level.name ++ "Values") = (level.name, true) := by
  cases level <;> decide

theorem splitName_refs (level : Level) :
    splitName (level.name ++ "Refs") = (level.name, false) := by
  cases level <;> decide

/-- The labels of a level are built in. -/
theorem builtin?_of_mem (h : (name, s) ∈ LabelTable.levelEntries level) :
    builtin? name = some s := by
  simp only [LabelTable.levelEntries, List.mem_cons, List.not_mem_nil, or_false, Prod.mk.injEq] at h
  rcases h with ⟨rfl, rfl⟩ | ⟨rfl, rfl⟩ | ⟨rfl, rfl⟩
  · simp only [builtin?, splitName_name, Level.ofName?_name, Option.map_some]
  · simp only [builtin?, splitName_values, Level.ofName?_name, Option.map_some]
  · simp only [builtin?, splitName_refs, Level.ofName?_name, Option.map_some]

/-- No other label is. -/
theorem exists_mem_of_builtin? (h : builtin? name = some s) :
    ∃ level, (name, s) ∈ LabelTable.levelEntries level := by
  obtain ⟨base, values, hsplit⟩ : ∃ base values, splitName name = (base, values) := ⟨_, _, rfl⟩
  rw [builtin?, hsplit] at h
  obtain ⟨level, hlevel, rfl⟩ := Option.map_eq_some_iff.1 h
  obtain rfl := Level.name_of_ofName? hlevel
  refine ⟨level, ?_⟩
  rw [LabelTable.levelEntries]
  rcases name_of_splitName hsplit with ⟨rfl, rfl⟩ | ⟨rfl, rfl⟩ | ⟨rfl, rfl⟩
  · exact List.mem_cons_self
  · exact List.mem_cons_of_mem _ List.mem_cons_self
  · exact List.mem_cons_of_mem _ (List.mem_cons_of_mem _ List.mem_cons_self)

end Synthesizer

namespace LabelTable

variable {name : String} {s : Synthesizer}

/-- The built-in table has the labels of the levels. -/
theorem exists_mem_of_get?_defaults (h : defaults.get? name = some s) :
    ∃ level, (name, s) ∈ levelEntries level := by
  rw [defaults, NameMap.get?_ofList] at h
  obtain ⟨before, after, hentries, -⟩ := List.lookup_eq_some_iff.1 h
  have hmem : (name, s) ∈ (Level.all.flatMap levelEntries).reverse := by
    rw [hentries]
    exact List.mem_append_right _ List.mem_cons_self
  obtain ⟨level, -, hlevel⟩ := List.mem_flatMap.1 (List.mem_reverse.1 hmem)
  exact ⟨level, hlevel⟩

theorem get?_defaults_ne_none {level : Level} (h : (name, s) ∈ levelEntries level) :
    defaults.get? name ≠ none := by
  rw [defaults, NameMap.get?_ofList]
  intro hnone
  have hmem : (name, s) ∈ (Level.all.flatMap levelEntries).reverse :=
    List.mem_reverse.2 (List.mem_flatMap.2 ⟨level, by cases level <;> decide, h⟩)
  simpa using List.lookup_eq_none_iff.1 hnone _ hmem

/-- The built-in meaning of a label, taken from its name, is its entry in the built-in table. -/
theorem builtin?_eq_get?_defaults (name : String) :
    Synthesizer.builtin? name = defaults.get? name := by
  cases htable : defaults.get? name with
  | some s =>
      obtain ⟨level, hlevel⟩ := exists_mem_of_get?_defaults htable
      exact Synthesizer.builtin?_of_mem hlevel
  | none =>
      rw [Option.eq_none_iff_forall_ne_some]
      intro s hs
      obtain ⟨level, hlevel⟩ := Synthesizer.exists_mem_of_builtin? hs
      exact get?_defaults_ne_none hlevel htable

end LabelTable

/-! ## Tables -/

namespace Options

variable {m : NameMap (Option String)} {name : String} {d : Diagnostic}
  {es : List (String × Option String)} {start table : LabelTable}

/-- The entry of a label cannot be used: it has no template and no built-in meaning, or a template
that does not compile. -/
inductive Fault (m : NameMap (Option String)) (name : String) : Diagnostic → Prop
  | missing : m.get? name = some none → LabelTable.defaults.get? name = none →
      Fault m name ⟨.missingTemplate name, none⟩
  | template {source : String} {d : Diagnostic} : m.get? name = some (some source) →
      Template.compile name source = .error d → Fault m name d

/-- What options say about a label, native synthesizers apart. -/
def described? (templates : Option (NameMap (Option String))) (name : String) :
    Option Synthesizer :=
  match templates with
  | none => LabelTable.defaults.get? name
  | some m =>
      match m.get? name with
      | none => none
      | some none => LabelTable.defaults.get? name
      | some (some source) => (Template.compile name source).toOption.map .template

theorem synthesizerOf_none (name : String) :
    synthesizerOf name none =
      match LabelTable.defaults.get? name with
      | some s => .ok s
      | none => .error ⟨.missingTemplate name, none⟩ := by
  rw [← LabelTable.builtin?_eq_get?_defaults]
  rfl

/-- An entry is at fault when it has no synthesizer. -/
theorem fault_iff : Fault m name d ↔
    ∃ template, m.get? name = some template ∧ synthesizerOf name template = .error d := by
  constructor
  · rintro (⟨hentry, hmissing⟩ | ⟨hentry, hcompile⟩)
    · exact ⟨none, hentry, by rw [synthesizerOf_none, hmissing]⟩
    · exact ⟨some _, hentry, by rw [synthesizerOf, hcompile]; rfl⟩
  · rintro ⟨template, hentry, herror⟩
    cases template with
    | none =>
        rw [synthesizerOf_none] at herror
        split at herror
        · cases herror
        · next hmissing =>
            cases herror
            exact .missing hentry hmissing
    | some source =>
        rw [synthesizerOf] at herror
        cases hcompile : Template.compile name source with
        | ok form => rw [hcompile] at herror; cases herror
        | error e =>
            rw [hcompile] at herror
            cases herror
            exact .template hentry hcompile

/-- What a map of templates says about a label is the synthesizer of its entry. -/
theorem described?_some (m : NameMap (Option String)) (name : String) :
    described? (some m) name
      = (m.get? name).bind fun template => (synthesizerOf name template).toOption := by
  rw [described?]
  cases m.get? name with
  | none => rfl
  | some template =>
      cases template with
      | none =>
          rw [Option.bind_some, synthesizerOf_none]
          cases LabelTable.defaults.get? name <;> rfl
      | some source =>
          change (Template.compile name source).toOption.map Synthesizer.template
            = ((Template.compile name source).map Synthesizer.template).toOption
          cases Template.compile name source <;> rfl

/-- Adding labels stops at the first one without a synthesizer. -/
theorem addTemplates_eq_error_iff (es : List (String × Option String)) (start : LabelTable) :
    addTemplates start es = .error d ↔
      ∃ before e after, es = before ++ e :: after ∧ synthesizerOf e.1 e.2 = .error d ∧
        ∀ e ∈ before, ∃ s, synthesizerOf e.1 e.2 = .ok s := by
  induction es generalizing start with
  | nil => simp [addTemplates]
  | cons e es ih =>
      rw [addTemplates]
      split
      · next e' he =>
          rw [Except.error.injEq]
          constructor
          · rintro rfl
            exact ⟨[], e, es, rfl, he, fun _ h => absurd h List.not_mem_nil⟩
          · rintro ⟨before, f, after, hes, hf, hbefore⟩
            cases before with
            | nil =>
                obtain ⟨rfl, -⟩ := List.cons.inj hes
                exact Except.error.inj (he.symm.trans hf)
            | cons g before =>
                obtain ⟨rfl, -⟩ := List.cons.inj hes
                obtain ⟨s, hs⟩ := hbefore _ List.mem_cons_self
                cases hs.symm.trans he
      · next s hs =>
          rw [ih]
          constructor
          · rintro ⟨before, f, after, rfl, hf, hbefore⟩
            exact ⟨e :: before, f, after, rfl, hf, List.forall_mem_cons.2 ⟨⟨s, hs⟩, hbefore⟩⟩
          · rintro ⟨before, f, after, hes, hf, hbefore⟩
            cases before with
            | nil =>
                obtain ⟨rfl, -⟩ := List.cons.inj hes
                cases hs.symm.trans hf
            | cons g before =>
                obtain ⟨rfl, rfl⟩ := List.cons.inj hes
                exact ⟨before, f, after, rfl, hf, (List.forall_mem_cons.1 hbefore).2⟩

/-- A label without a synthesizer cannot be added. -/
theorem exists_error_of_mem {e : String × Option String} (he : e ∈ es)
    (herror : synthesizerOf e.1 e.2 = .error d) : ∃ d', addTemplates start es = .error d' := by
  induction es generalizing start with
  | nil => exact absurd he List.not_mem_nil
  | cons f es ih =>
      rw [addTemplates]
      split
      · exact ⟨_, rfl⟩
      · next s hs =>
          rcases List.mem_cons.1 he with rfl | he
          · cases hs.symm.trans herror
          · exact ih he

/-- Adding the labels of a map stops at the first entry at fault in the order of the names. -/
theorem addTemplates_entries_eq_error_iff (start : LabelTable) (m : NameMap (Option String)) :
    addTemplates start m.entries = .error d ↔
      ∃ name, Fault m name d ∧ ∀ other e, Fault m other e → name ≤ other := by
  have horder := m.ordered
  rw [addTemplates_eq_error_iff]
  constructor
  · rintro ⟨before, ⟨name, template⟩, after, hentries, herror, hbefore⟩
    have hmem : (name, template) ∈ m.entries := by
      rw [hentries]
      exact List.mem_append_right _ List.mem_cons_self
    refine ⟨name, fault_iff.2 ⟨template, NameMap.mem_entries_iff.1 hmem, herror⟩, ?_⟩
    intro other e hother
    obtain ⟨template', hentry', herror'⟩ := fault_iff.1 hother
    have hmem' := NameMap.mem_entries_iff.2 hentry'
    rw [hentries, List.mem_append, List.mem_cons] at hmem'
    rcases hmem' with hmem' | heq | hmem'
    · obtain ⟨s, hs⟩ := hbefore _ hmem'
      cases hs.symm.trans herror'
    · exact (Prod.ext_iff.1 heq).1.ge
    · rw [hentries] at horder
      exact le_of_lt (List.rel_of_pairwise_cons (List.pairwise_append.1 horder).2.1 hmem')
  · rintro ⟨name, hfault, hfirst⟩
    obtain ⟨template, hentry, herror⟩ := fault_iff.1 hfault
    obtain ⟨before, after, hentries⟩ := List.append_of_mem (NameMap.mem_entries_iff.2 hentry)
    refine ⟨before, (name, template), after, hentries, herror, fun e he => ?_⟩
    cases hs : synthesizerOf e.1 e.2 with
    | ok s => exact ⟨s, rfl⟩
    | error d' =>
        -- An entry before the first one at fault would have a smaller name.
        have hmem : (e.1, e.2) ∈ m.entries := by
          rw [hentries]
          exact List.mem_append_left _ he
        have hle := hfirst e.1 d' (fault_iff.2 ⟨e.2, NameMap.mem_entries_iff.1 hmem, hs⟩)
        rw [hentries] at horder
        have hlt : e.1 < name := (List.pairwise_append.1 horder).2.2 e he _ List.mem_cons_self
        exact absurd hle (not_le_of_gt hlt)

/-- A table of labels has the synthesizers of the entries that were added. -/
theorem get?_of_addTemplates (horder : NameMap.Ordered es) (h : addTemplates start es = .ok table)
    (name : String) :
    table.get? name = ((es.lookup name).bind fun template =>
      (synthesizerOf name template).toOption).or (start.get? name) := by
  induction es generalizing start with
  | nil =>
      cases h
      rfl
  | cons e es ih =>
      obtain ⟨hfirst, hrest⟩ := List.pairwise_cons.1 horder
      rw [addTemplates] at h
      split at h
      · cases h
      · next s hs =>
          rw [ih hrest h, NameMap.get?_insert, NameMap.lookup_cons_eq_ite]
          split
          · next hname =>
              subst hname
              -- The other entries have greater names.
              have hnone : es.lookup e.1 = none := List.lookup_eq_none_iff.2 fun e' he' =>
                bne_iff_ne.2 (hfirst e' he').ne
              rw [hnone, Option.bind_some, hs]
              rfl
          · rfl

/-- Of several native synthesizers for a label the last one counts. -/
theorem get?_addNatives (natives : List (String × Native)) (table : LabelTable) (name : String) :
    (addNatives table natives).get? name
      = ((natives.reverse.lookup name).map Synthesizer.native).or (table.get? name) := by
  induction natives generalizing table with
  | nil => rfl
  | cons e natives ih =>
      have hstep : addNatives table (e :: natives)
          = addNatives (table.insert e.1 (.native e.2)) natives := rfl
      rw [hstep, ih, NameMap.get?_insert, List.reverse_cons, List.lookup_append,
        NameMap.lookup_cons_eq_ite]
      cases natives.reverse.lookup name with
      | some make => rfl
      | none => split <;> rfl

variable {templates : Option (NameMap (Option String))} {natives : List (String × Native)}

/-- Native synthesizers can always be added. -/
theorem buildTable_some_eq_error_iff :
    buildTable (some m) natives = .error d ↔ addTemplates NameMap.empty m.entries = .error d := by
  rw [buildTable]
  cases addTemplates NameMap.empty m.entries with
  | error e => exact Iff.rfl
  | ok base =>
      constructor <;>
        · intro h
          cases h

/-- **When there is no table**: some entry is at fault, and the first one in the order of the names
is reported. -/
theorem buildTable_eq_error_iff : buildTable templates natives = .error d ↔
    ∃ m name, templates = some m ∧ Fault m name d ∧ ∀ other e, Fault m other e → name ≤ other := by
  constructor
  · intro h
    cases templates with
    | none => cases h
    | some m =>
        rw [buildTable_some_eq_error_iff, addTemplates_entries_eq_error_iff] at h
        obtain ⟨name, hname⟩ := h
        exact ⟨m, name, rfl, hname⟩
  · rintro ⟨m, name, rfl, hname⟩
    rw [buildTable_some_eq_error_iff, addTemplates_entries_eq_error_iff]
    exact ⟨name, hname⟩

/-- Any entry at fault stands in the way of a table. -/
theorem exists_buildTable_eq_error_iff : (∃ d, buildTable templates natives = .error d) ↔
    ∃ m name d, templates = some m ∧ Fault m name d := by
  constructor
  · rintro ⟨d, h⟩
    obtain ⟨m, name, hm, hfault, -⟩ := buildTable_eq_error_iff.1 h
    exact ⟨m, name, d, hm, hfault⟩
  · rintro ⟨m, name, d, rfl, hfault⟩
    obtain ⟨template, hentry, herror⟩ := fault_iff.1 hfault
    obtain ⟨d', hd'⟩ := exists_error_of_mem (NameMap.mem_entries_iff.2 hentry) herror
    exact ⟨d', buildTable_some_eq_error_iff.2 hd'⟩

/-- **What a table has under a name**: the last native synthesizer, or else what the map of
templates says, or without such a map the built-in meaning. -/
theorem get?_of_buildTable (h : buildTable templates natives = .ok table) (name : String) :
    table.get? name
      = ((natives.reverse.lookup name).map Synthesizer.native).or (described? templates name) := by
  cases templates with
  | none =>
      cases h
      exact get?_addNatives natives LabelTable.defaults name
  | some m =>
      rw [buildTable] at h
      cases hbase : addTemplates NameMap.empty m.entries with
      | error d => rw [hbase] at h; cases h
      | ok base =>
          rw [hbase] at h
          cases h
          rw [get?_addNatives, get?_of_addTemplates m.ordered hbase, described?_some]
          exact congrArg _ (Option.or_none)

end Options

end LogLabel
