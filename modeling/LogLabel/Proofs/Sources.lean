import LogLabel.Proofs.Path
import LogLabel.Sources

set_option autoImplicit false

/-!
# Where sources are written

The output of a source goes to its target below the output directory. Targets are made of names
alone, whether a file was given by its path or found below a directory, so nothing is written
outside of the output directory; and no two sources are written to the same place.

* `SourceFile.Found source`: how a source can come about.
* `FileSystem.Named fs`: every file is reached by names.
* `found_of_collectSources`: all sources that are collected are found so.
* `SourceFile.Apart`, `EarliestClash sources first second`: different targets, and the first two
  sources that share one.
* `checkTargetsAfter_cases`: the check passes sources that are apart, and names the earliest clash
  otherwise.
* `targets_apart_below`: what an output directory can rely on.
-/

namespace LogLabel

/-! ## Files and names -/

/-- Every file of the system is reached by names. -/
def FileSystem.Named (fs : FileSystem) : Prop :=
  ∀ found ∈ fs.root.files, ∀ name ∈ found.1, Path.IsName name

namespace Entry

theorem descend?_append (e : Entry) (first second : List String) :
    e.descend? (first ++ second) = (e.descend? first).bind (·.descend? second) := by
  induction first generalizing e with
  | nil => rfl
  | cons name first ih =>
      cases e with
      | file bytes => rfl
      | locked fault => rfl
      | directory entries =>
          simp only [List.cons_append, descend?]
          cases entries.lookup name with
          | none => rfl
          | some e => exact ih e

/-- The place before a directory is a directory. -/
theorem directory_dropLast {e : Entry} {place : List String} {entries : List (String × Entry)}
    (h : e.descend? place = some (.directory entries)) :
    ∃ entries', e.descend? place.dropLast = some (.directory entries') := by
  rcases List.eq_nil_or_concat place with rfl | ⟨init, name, rfl⟩
  · exact ⟨entries, h⟩
  · rw [List.concat_eq_append, descend?_append] at h
    obtain ⟨d, hd, hname⟩ := Option.bind_eq_some_iff.1 h
    rw [List.concat_eq_append, List.dropLast_concat, hd]
    cases d with
    | file bytes => cases hname
    | locked fault => cases hname
    | directory entries' => exact ⟨entries', rfl⟩

theorem mem_filesOfEntries {name : String} {e : Entry} {entries : List (String × Entry)}
    (h : (name, e) ∈ entries) {found : List String × Option ByteArray} (hfound : found ∈ e.files) :
    (name :: found.1, found.2) ∈ filesOfEntries entries := by
  induction entries with
  | nil => cases h
  | cons entry entries ih =>
      rw [filesOfEntries, List.mem_append]
      rcases List.mem_cons.1 h with rfl | h
      · exact Or.inl (List.mem_map.2 ⟨found, hfound, rfl⟩)
      · exact Or.inr (ih h)

/-- The files below a place are files of the whole. -/
theorem mem_files_of_descend? {e below : Entry} {place : List String}
    (h : e.descend? place = some below) {found : List String × Option ByteArray}
    (hfound : found ∈ below.files) : (place ++ found.1, found.2) ∈ e.files := by
  induction place generalizing e with
  | nil => cases h; exact hfound
  | cons name place ih =>
      cases e with
      | file bytes => cases h
      | locked fault => cases h
      | directory entries =>
          obtain ⟨inner, hinner, hbelow⟩ := Option.bind_eq_some_iff.1 h
          obtain ⟨before, after, hentries, -⟩ := List.lookup_eq_some_iff.1 hinner
          have hmem : (name, inner) ∈ entries := hentries ▸ List.mem_append_right _ List.mem_cons_self
          exact mem_filesOfEntries hmem (ih hbelow)

/-- A file below a directory has a name of its own. -/
theorem ne_nil_of_mem_filesOfEntries {entries : List (String × Entry)}
    {found : List String × Option ByteArray} (h : found ∈ filesOfEntries entries) :
    found.1 ≠ [] := by
  induction entries with
  | nil => cases h
  | cons entry entries ih =>
      rw [filesOfEntries, List.mem_append] at h
      rcases h with h | h
      · obtain ⟨inner, -, rfl⟩ := List.mem_map.1 h
        exact List.cons_ne_nil _ _
      · exact ih h

end Entry

namespace FileSystem

variable {fs : FileSystem}

/-- A path whose pieces lead to something other than a directory ends in a name. -/
theorem exists_name_of_follow {pieces : List (List Char)} {place place' : List String}
    (hpieces : pieces ≠ []) (h : fs.follow place pieces = .ok place')
    (hfile : ∀ entries, fs.root.descend? place' ≠ some (.directory entries)) :
    ∃ piece name, pieces.getLast? = some piece ∧
      Path.innerComponent? piece = some (.normal name) := by
  induction pieces generalizing place with
  | nil => exact absurd rfl hpieces
  | cons piece pieces ih =>
      rw [follow] at h
      split at h
      · cases h
      · next entries hplace =>
          cases pieces with
          | nil =>
              cases h
              refine ⟨piece, String.ofList piece, rfl, ?_⟩
              -- Where the last piece stays or goes up, the way ends in a directory.
              unfold enter at hfile
              split_ifs at hfile with hstays hup
              · exact absurd hplace (hfile entries)
              · obtain ⟨entries', hup⟩ := Entry.directory_dropLast hplace
                exact absurd hup (hfile entries')
              · rw [not_or] at hstays
                rw [Path.innerComponent?, if_neg hstays.1, if_neg hstays.2, if_neg hup]
          | cons next pieces =>
              obtain ⟨piece, name, hlast, hname⟩ := ih (List.cons_ne_nil _ _) h
              exact ⟨piece, name, by rw [List.getLast?_cons_cons, hlast], hname⟩
      · cases h

/-- The path of a file ends in a name. -/
theorem exists_fileName_of_find {path : String} {e : Entry} (h : fs.find path = .ok e)
    (hfile : ∀ entries, e ≠ .directory entries) : ∃ name, Path.fileName? path = some name := by
  rw [find] at h
  split at h
  · cases h
  · next place hplace =>
      split at h
      · cases h
      · next e' hroot =>
          cases h
          rw [locate] at hplace
          split at hplace
          · cases hplace
          · obtain ⟨piece, name, hlast, hname⟩ := exists_name_of_follow (Path.pieces_ne_nil path)
              hplace fun entries heq => hfile entries (by simpa [hroot] using heq)
            exact ⟨name, Path.fileName?_eq_some hlast hname⟩

/-- What is found stands at a place. -/
theorem exists_place_of_find {path : String} {e : Entry} (h : fs.find path = .ok e) :
    ∃ place, fs.root.descend? place = some e := by
  rw [find] at h
  split at h
  · cases h
  · next place hplace =>
      split at h <;> cases h
      exact ⟨place, ‹_›⟩

end FileSystem

/-! ## Collected sources -/

/-- How a source comes about: a file given by a path that ends in a name, or a file below a directory
that is reached by names. -/
inductive SourceFile.Found : SourceFile → Prop
  | given {path name : String} (fileName : Path.fileName? path = some name) :
      Found ⟨path, Path.destination path⟩
  | walked (directory : String) {names : List String} (ne_nil : names ≠ [])
      (isName : ∀ name ∈ names, Path.IsName name) : Found (.below directory names)

namespace SourceFile

/-- Two sources with different targets. -/
def Apart (a b : SourceFile) : Prop := Path.components a.target ≠ Path.components b.target

/-- The target of a source is made of names, and so is the way to it from an output directory. -/
theorem Found.exists_names {source : SourceFile} (h : source.Found) (directory : String) :
    ∃ names, names ≠ [] ∧ (∀ name ∈ names, Path.IsName name) ∧
      Path.components source.target = names.map .normal ∧
      Path.components (Path.join directory source.target)
        = Path.components directory ++ names.map .normal := by
  obtain ⟨names, hne, hnames, htarget⟩ : ∃ names, names ≠ [] ∧
      (∀ name ∈ names, Path.IsName name) ∧ source.target = Path.render false names := by
    cases h with
    | given hname => exact Path.exists_destination hname
    | walked directory hne hnames => exact ⟨_, hne, hnames, rfl⟩
  rw [htarget]
  exact ⟨names, hne, hnames, Path.components_render hnames,
    Path.components_join directory hnames hne⟩

/-- Sources that are apart stay so below an output directory. -/
theorem Found.join_ne {a b : SourceFile} (ha : a.Found) (hb : b.Found) (h : a.Apart b)
    (directory : String) :
    Path.components (Path.join directory a.target)
      ≠ Path.components (Path.join directory b.target) := by
  obtain ⟨names, -, -, htarget, hjoin⟩ := ha.exists_names directory
  obtain ⟨names', -, -, htarget', hjoin'⟩ := hb.exists_names directory
  rw [hjoin, hjoin', ← htarget, ← htarget']
  exact fun heq => h (List.append_cancel_left heq)

end SourceFile

section Collecting

variable {fs : FileSystem} {sources : List SourceFile}

theorem found_of_sourcesAt (hfs : fs.Named) {path : String} (h : sourcesAt fs path = .ok sources) :
    ∀ source ∈ sources, source.Found := by
  rw [sourcesAt] at h
  split at h
  · next entries hfind =>
      cases h
      intro source hsource
      obtain ⟨place, hplace⟩ := FileSystem.exists_place_of_find hfind
      obtain ⟨found, hfound, rfl⟩ := List.mem_map.1 (List.mem_filter.1 hsource).1
      refine .walked path (Entry.ne_nil_of_mem_filesOfEntries hfound) fun name hname => ?_
      exact hfs _ (Entry.mem_files_of_descend? hplace hfound) name (List.mem_append_right _ hname)
  · next e hfile hfind =>
      cases h
      intro source hsource
      obtain rfl := List.mem_singleton.1 hsource
      obtain ⟨name, hname⟩ := FileSystem.exists_fileName_of_find hfind hfile
      exact .given hname
  · cases h

/-- Every collected source is a given file or was found below a directory. -/
theorem found_of_collectSources (hfs : fs.Named) {paths : List String}
    (h : collectSources fs paths = .ok sources) : ∀ source ∈ sources, source.Found := by
  induction paths generalizing sources with
  | nil =>
      cases h
      exact fun source hsource => by cases hsource
  | cons path paths ih =>
      rw [collectSources] at h
      split at h
      · cases h
      · next here hhere =>
          split at h <;> cases h
          next rest hrest =>
            intro source hsource
            rcases List.mem_append.1 hsource with hsource | hsource
            · exact found_of_sourcesAt hfs hhere source hsource
            · exact ih hrest source hsource

end Collecting

/-! ## Distinct targets -/

/-- The two earliest sources that share a target: all sources up to the second one are apart. -/
def EarliestClash (sources : List SourceFile) (first second : SourceFile) : Prop :=
  ∃ before between after, sources = before ++ first :: between ++ second :: after ∧
    (before ++ first :: between).Pairwise SourceFile.Apart ∧ ¬first.Apart second

theorem EarliestClash.not_pairwise {sources : List SourceFile} {first second : SourceFile}
    (h : EarliestClash sources first second) : ¬sources.Pairwise SourceFile.Apart := by
  obtain ⟨before, between, after, rfl, -, hclash⟩ := h
  intro hapart
  refine hclash ((List.pairwise_append.1 hapart).2.2 first ?_ second List.mem_cons_self)
  exact List.mem_append_right _ List.mem_cons_self

/-- The check passes sources that are apart, and otherwise names the two earliest that are not. -/
theorem checkTargetsAfter_cases {seen : List SourceFile} (hseen : seen.Pairwise SourceFile.Apart)
    (sources : List SourceFile) :
    (checkTargetsAfter seen sources = .ok () ∧ (seen ++ sources).Pairwise SourceFile.Apart) ∨
    ∃ first second, EarliestClash (seen ++ sources) first second ∧
      checkTargetsAfter seen sources
        = .error ⟨.clashingTargets first.path second.path second.target, none⟩ := by
  -- By induction on what is left. All that was seen is apart, so the first source that clashes with
  -- some of it closes the earliest clash.
  induction sources generalizing seen with
  | nil => exact Or.inl ⟨rfl, by rwa [List.append_nil]⟩
  | cons source sources ih =>
      rw [checkTargetsAfter]
      cases hfind : seen.find? (·.clashesWith source) with
      | some first =>
          obtain ⟨hclash, before, between, hsplit, -⟩ := List.find?_eq_some_iff_append.1 hfind
          refine Or.inr ⟨first, source, ⟨before, between, sources, ?_, ?_, ?_⟩, rfl⟩
          · rw [hsplit]
          · rwa [← hsplit]
          · exact not_not_intro (of_decide_eq_true hclash)
      | none =>
          have hnone := List.find?_eq_none.1 hfind
          have happend : (seen ++ [source]).Pairwise SourceFile.Apart := by
            refine List.pairwise_append.2 ⟨hseen, List.pairwise_singleton _ _, ?_⟩
            intro a ha b hb heq
            obtain rfl := List.mem_singleton.1 hb
            exact hnone a ha (decide_eq_true heq)
          have hstep := ih happend
          rwa [List.append_assoc, List.singleton_append] at hstep

theorem checkDistinctTargets_cases (sources : List SourceFile) :
    (checkDistinctTargets sources = .ok () ∧ sources.Pairwise SourceFile.Apart) ∨
    ∃ first second, EarliestClash sources first second ∧
      checkDistinctTargets sources
        = .error ⟨.clashingTargets first.path second.path second.target, none⟩ :=
  checkTargetsAfter_cases .nil sources

/-- **Nothing is written twice or outside of the output directory.** Whatever is collected is a file
given by a path that ends in a name, or one reached by names below a directory. Such sources, once
they are checked, have different places below any output directory, each of them reached from it by
names. The check refuses sources exactly when two of them have the same target, and then it names the
two earliest. -/
theorem targets_apart_below :
    (∀ (fs : FileSystem) (paths : List String) (sources : List SourceFile),
      fs.Named → collectSources fs paths = .ok sources → ∀ source ∈ sources, source.Found) ∧
    ∀ (sources : List SourceFile) (directory : String), (∀ source ∈ sources, source.Found) →
      (checkDistinctTargets sources = .ok () →
        sources.Pairwise (fun a b => Path.components (Path.join directory a.target)
          ≠ Path.components (Path.join directory b.target)) ∧
        ∀ source ∈ sources, ∃ names, names ≠ [] ∧ (∀ name ∈ names, Path.IsName name) ∧
          Path.components (Path.join directory source.target)
            = Path.components directory ++ names.map .normal) ∧
      ((∃ d, checkDistinctTargets sources = .error d) ↔ ¬sources.Pairwise SourceFile.Apart) ∧
      ∀ d, checkDistinctTargets sources = .error d →
        ∃ first second, EarliestClash sources first second ∧
          d = ⟨.clashingTargets first.path second.path second.target, none⟩ := by
  refine ⟨fun fs paths sources hfs => found_of_collectSources hfs, fun sources directory hfound => ?_⟩
  rcases checkDistinctTargets_cases sources with ⟨hok, hapart⟩ | ⟨first, second, hclash, herror⟩
  · rw [hok]
    refine ⟨fun _ => ⟨?_, fun source hsource => ?_⟩, ?_, fun d hd => by cases hd⟩
    · exact hapart.imp_of_mem fun ha hb hab =>
        (hfound _ ha).join_ne (hfound _ hb) hab directory
    · obtain ⟨names, hne, hnames, -, hjoin⟩ := (hfound source hsource).exists_names directory
      exact ⟨names, hne, hnames, hjoin⟩
    · exact ⟨fun ⟨d, hd⟩ => (by cases hd), fun hclash => absurd hapart hclash⟩
  · rw [herror]
    refine ⟨fun hok => (by cases hok), ⟨fun _ => hclash.not_pairwise, fun _ => ⟨_, rfl⟩⟩, ?_⟩
    intro d hd
    cases hd
    exact ⟨first, second, hclash, rfl⟩

/-- A directory with two sources, one of them further down, and a file beside it. -/
def twoPlaces : FileSystem where
  root := .directory [("b.js", .file ⟨#[]⟩),
    ("lib", .directory [("a.js", .file ⟨#[]⟩), ("in", .directory [("b.js", .file ⟨#[]⟩)])])]
  current := ["lib"]

/-- A path that climbs is written under its file name, which a file of the directory may have too. -/
theorem targets_apart_below_climbing :
    twoPlaces.Named ∧
    collectSources twoPlaces ["/lib/.", "in/../../b.js"]
      = .ok [⟨"/lib/./a.js", "a.js"⟩, ⟨"/lib/./in/b.js", "in/b.js"⟩, ⟨"in/../../b.js", "b.js"⟩] ∧
    checkDistinctTargets
      [⟨"/lib/./a.js", "a.js"⟩, ⟨"/lib/./in/b.js", "in/b.js"⟩, ⟨"in/../../b.js", "b.js"⟩] = .ok () ∧
    [SourceFile.mk "/lib/./a.js" "a.js", ⟨"/lib/./in/b.js", "in/b.js"⟩,
      ⟨"in/../../b.js", "b.js"⟩].Pairwise (fun a b => Path.components (Path.join "out/" a.target)
        ≠ Path.components (Path.join "out/" b.target)) := by
  have hnamed : twoPlaces.Named := by
    unfold FileSystem.Named
    decide +kernel
  have hsources : collectSources twoPlaces ["/lib/.", "in/../../b.js"]
      = .ok [⟨"/lib/./a.js", "a.js"⟩, ⟨"/lib/./in/b.js", "in/b.js"⟩, ⟨"in/../../b.js", "b.js"⟩] := rfl
  obtain ⟨hfound, hbelow⟩ := targets_apart_below
  obtain ⟨hwritten, -⟩ := hbelow _ "out/" (hfound _ _ _ hnamed hsources)
  exact ⟨hnamed, hsources, rfl, (hwritten rfl).1⟩

end LogLabel
