import LogLabel.FileSystem
import LogLabel.OptionsDocument
import LogLabel.Transform

set_option autoImplicit false

/-!
# Source files

Finding, reading and placing the files of one run.

* `collectSources` expands paths: a file stands for itself, a directory for the sources
  below it.
* `checkDistinctTargets` refuses two sources with the same place below an output directory.
* `Options.ofFile`, `transformFile?` and `writeOutput` work on single files.
-/

namespace LogLabel

/-- A source and where its output goes below an output directory. -/
structure SourceFile where
  path : String
  target : String
deriving DecidableEq

/-- The extensions of sources in a directory. -/
def sourceExtensions : List String := ["js", "mjs", "cjs"]

/-- Whether a path has the extension of a source. -/
def isSourcePath (path : String) : Bool :=
  match Path.extension? path with
  | some extension => sourceExtensions.contains extension
  | none => false

/-- The source with the given names below a directory. -/
def SourceFile.below (directory : String) (names : List String) : SourceFile :=
  let target := Path.render false names
  ⟨Path.join directory target, target⟩

/-- The sources that a path stands for. -/
def sourcesAt (fs : FileSystem) (path : String) : Except Diagnostic (List SourceFile) :=
  match fs.find path with
  | .ok (.directory entries) =>
      .ok (((Entry.filesOfEntries entries).map fun (names, _) => SourceFile.below path names).filter
        fun source => isSourcePath source.path)
  | .ok _ => .ok [⟨path, Path.destination path⟩]
  | .error _ => .error ⟨.missingPath path, none⟩

/-- The sources that paths stand for, in order. -/
def collectSources (fs : FileSystem) : List String → Except Diagnostic (List SourceFile)
  | [] => .ok []
  | path :: paths =>
      match sourcesAt fs path with
      | .error d => .error d
      | .ok here =>
          match collectSources fs paths with
          | .error d => .error d
          | .ok rest => .ok (here ++ rest)

/-- Whether two sources have the same target. -/
def SourceFile.clashesWith (a b : SourceFile) : Bool :=
  Path.components a.target = Path.components b.target

/-- Refuses the first of the sources that has the target of one before it; `seen` holds those. -/
def checkTargetsAfter (seen : List SourceFile) : List SourceFile → Except Diagnostic Unit
  | [] => .ok ()
  | source :: sources =>
      match seen.find? (·.clashesWith source) with
      | some first => .error ⟨.clashingTargets first.path source.path source.target, none⟩
      | none => checkTargetsAfter (seen ++ [source]) sources

/-- Refuses sources of which two have the same target. -/
def checkDistinctTargets (sources : List SourceFile) : Except Diagnostic Unit :=
  checkTargetsAfter [] sources

/-- The text of a source. -/
def readSource (fs : FileSystem) (path : String) : Except Diagnostic String :=
  match fs.readText path with
  | .ok text => .ok text
  | .error fault => .error ⟨.unreadableSource path fault, none⟩

/-- Reads and transforms a file. The path as given is the name under which the file is reported.
There is no result if the pass has no end. -/
def transformFile? (fs : FileSystem) (path : String) (options : Options)
    (environment : Environment) : Option (Except Diagnostic Transformed × Options) :=
  match readSource fs path with
  | .error d => some (.error d, options)
  | .ok text => transformSource? text path fs.currentPath options environment

/-- Reads and transforms a file. For a pass without an end `unsettledExpansion` stands in. -/
def transformFile (fs : FileSystem) (path : String) (options : Options)
    (environment : Environment) : Except Diagnostic Transformed × Options :=
  (transformFile? fs path options environment).getD
    (.error ⟨.unsettledExpansion, none⟩, options.normalize.2)

/-- Writes an output file, with the directories on the way to it. -/
def writeOutput (fs : FileSystem) (path text : String) : Except Diagnostic FileSystem :=
  let directory := (Path.parent? path).getD ""
  match fs.createDirectories directory with
  | .error fault => .error ⟨.uncreatableDirectory directory fault, none⟩
  | .ok fs =>
      match fs.writeText path text with
      | .error fault => .error ⟨.unwritableFile path fault, none⟩
      | .ok fs => .ok fs

/-- A text with its Latin capitals in lower case. -/
def lowerLatin (s : String) : String := String.ofList (s.toList.map Char.toLower)

/-- The options in a file, in the format its extension names. The file is read first. -/
def Options.ofFile (fs : FileSystem) (path : String) : Except Diagnostic Options :=
  match fs.readText path with
  | .error fault => .error ⟨.unreadableOptions path fault, none⟩
  | .ok text =>
      let extension := lowerLatin ((Path.extension? path).getD "")
      if extension = "json" then Options.ofJson text
      else if extension = "yaml" ∨ extension = "yml" then Options.ofYaml text
      else .error ⟨.unsupportedOptions path, none⟩

end LogLabel
