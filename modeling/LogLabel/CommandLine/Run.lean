import LogLabel.CommandLine.Arguments
import LogLabel.Diff
import LogLabel.Program.Record
import LogLabel.Sources

set_option autoImplicit false

/-!
# Running commands

`Command.run?` carries out a command on a file system and gives a `Report`: what is
written to the output, the failures, and the file system afterwards. The pass over a file
may have no end. A command that comes to such a file never returns: it gives no report.

`transform` stops at the first failure and keeps what was printed and written before it;
`check` goes through all files and reports every failure.
-/

namespace LogLabel.CommandLine

/-- The outcome of a run. -/
structure Report where
  output : String := ""
  /-- The line with the totals. -/
  summary : Option String := none
  failures : List Diagnostic := []
  files : FileSystem

/-- The exit status: one if anything failed. -/
def Report.status (r : Report) : Nat := if r.failures.isEmpty then 0 else 1

/-- Options with what the settings give in place of it. -/
def Settings.override (s : Settings) (o : Options) : Options :=
  let o :=
    match s.strip with
    | some value => o.withStrip (Strip.ofArgument value)
    | none => o
  match s.logFunction with
  | some name => o.withLogFunction name
  | none => o

/-- The options that settings describe: those of the options file, then what overrides them. -/
def Settings.options (s : Settings) (fs : FileSystem) : Except Diagnostic Options :=
  match s.config with
  | some path => (Options.ofFile fs path).map s.override
  | none => .ok (s.override {})

/-- The environment of a run, with the name that the settings give it. -/
def Settings.environmentIn (s : Settings) (e : Environment) : Environment :=
  match s.environment with
  | some name => e.withName (some name)
  | none => e

/-! ## Transforming -/

/-- The state of a run over several files. The options keep the table of labels once a file has
needed it. -/
structure Progress where
  files : FileSystem
  options : Options
  output : String := ""
  stats : Stats := {}

/-- Hands over the transformed code of a source. -/
def deliver (destination : Destination) (headers : Bool) (source : SourceFile)
    (text code : String) (p : Progress) : Except Diagnostic Progress :=
  match destination with
  | .difference =>
      .ok { p with output := p.output ++ "--- " ++ source.path ++ "\n" ++ Diff.render text code }
  | .directory path =>
      (writeOutput p.files (Path.join path source.target) code).map fun files =>
        { p with files := files }
  | .output =>
      let header := if headers then "// " ++ source.path ++ "\n" else ""
      .ok { p with output := p.output ++ header ++ code }

/-- Transforms one source. -/
def transformSourceFile (destination : Destination) (headers : Bool) (e : Environment)
    (source : SourceFile) (p : Progress) : Option (Except Diagnostic Progress) :=
  match readSource p.files source.path with
  | .error d => some (.error d)
  | .ok text =>
      (transformSource? text source.path p.files.currentPath p.options e).map fun
        | (.error d, _) => .error d
        | (.ok transformed, options) =>
            deliver destination headers source text transformed.code
              { p with options := options, stats := p.stats.add transformed.stats }

/-- Transforms sources in order up to the first failure. -/
def transformSources (destination : Destination) (headers : Bool) (e : Environment) :
    List SourceFile → Progress → Option (Option Diagnostic × Progress)
  | [], p => some (none, p)
  | source :: sources, p =>
      match transformSourceFile destination headers e source p with
      | none => none
      | some (.error d) => some (some d, p)
      | some (.ok p) => transformSources destination headers e sources p

/-- The sources of paths, with distinct targets if they are written to a directory. -/
def sourcesFor (destination : Destination) (fs : FileSystem) (paths : List String) :
    Except Diagnostic (List SourceFile) :=
  match collectSources fs paths with
  | .error d => .error d
  | .ok sources =>
      match destination with
      | .directory _ => (checkDistinctTargets sources).map fun _ => sources
      | _ => .ok sources

/-- The line with the totals. -/
def summaryOf (files : Nat) (stats : Stats) : String :=
  "metalog: " ++ toString files ++ " file(s), " ++ toString stats.labels ++ " label(s), "
    ++ toString stats.calls ++ " call(s), " ++ toString stats.stripped ++ " stripped"

/-- Runs `transform`. -/
def runTransform (paths : List String) (destination : Destination) (settings : Settings)
    (e : Environment) (fs : FileSystem) : Option Report :=
  match settings.options fs with
  | .error d => some { failures := [d], files := fs }
  | .ok options =>
      match sourcesFor destination fs paths with
      | .error d => some { failures := [d], files := fs }
      | .ok sources =>
          let headers := 1 < sources.length
          (transformSources destination headers (settings.environmentIn e) sources
              { files := fs, options := options }).map fun
            | (some d, p) => { output := p.output, failures := [d], files := p.files }
            | (none, p) =>
                { output := p.output
                  summary := some (summaryOf sources.length p.stats)
                  files := p.files }

/-! ## Checking -/

/-- The line for a file without a failure. -/
def checkedLine (source : SourceFile) (stats : Stats) : String :=
  "ok   " ++ source.path ++ " (" ++ toString stats.labels ++ " label(s))\n"

/-- Checks sources in order: the lines of those without a failure, and the failures. The options keep
the table of labels once a file has needed it. -/
def checkSources (e : Environment) (fs : FileSystem) :
    List SourceFile → Options → Option (String × List Diagnostic)
  | [], _ => some ("", [])
  | source :: sources, options =>
      (transformFile? fs source.path options e).bind fun (result, options) =>
        (checkSources e fs sources options).map fun (output, failures) =>
          match result with
          | .ok transformed => (checkedLine source transformed.stats ++ output, failures)
          | .error d => (output, d :: failures)

/-- Runs `check`. -/
def runCheck (paths : List String) (settings : Settings) (e : Environment) (fs : FileSystem) :
    Option Report :=
  match settings.options fs with
  | .error d => some { failures := [d], files := fs }
  | .ok options =>
      match collectSources fs paths with
      | .error d => some { failures := [d], files := fs }
      | .ok sources =>
          (checkSources (settings.environmentIn e) fs sources options).map
            fun (output, failures) => { output := output, failures := failures, files := fs }

/-! ## Showing labels and trees -/

/-- A name with spaces after it up to a number of characters. -/
def padded (width : Nat) (name : String) : String :=
  name ++ String.ofList (List.replicate (width - name.length) ' ')

/-- The table of labels as a text. The column of names is as wide as the longest name has bytes. -/
def showTable (table : LabelTable) : String :=
  let width := (table.entries.map fun (name, _) => name.utf8ByteSize).foldl max 0
  String.join (table.entries.map fun (name, s) => padded width name ++ "  " ++ s.describe ++ "\n")

/-- Lists the table of labels. -/
def runLabels (settings : Settings) (fs : FileSystem) : Report :=
  match settings.options fs with
  | .error d => { failures := [d], files := fs }
  | .ok options =>
      match options.normalize.1 with
      | .error d => { failures := [d], files := fs }
      | .ok table => { output := showTable table, files := fs }

/-- Shows the tree of a program. -/
def runTree (path : String) (fs : FileSystem) : Report :=
  match readSource fs path with
  | .error d => { failures := [d], files := fs }
  | .ok text =>
      match Program.parse .source text with
      | .error d => { failures := [d], files := fs }
      | .ok t => { output := t.toDocument.pretty ++ "\n", files := fs }

/-- Carries out a command. There is no report if the command never returns. -/
def Command.run? (c : Command) (e : Environment) (fs : FileSystem) : Option Report :=
  match c with
  | .transform paths destination settings => runTransform paths destination settings e fs
  | .check paths settings => runCheck paths settings e fs
  | .labels settings => some (runLabels settings fs)
  | .tree path => some (runTree path fs)

/-- The report of a command. For one that never returns an empty report stands in. -/
def Command.run (c : Command) (e : Environment) (fs : FileSystem) : Report :=
  (c.run? e fs).getD { files := fs }

/-- The answer to a request for the version. -/
def versionLine : String := "metalog 0.1.0\n"

/-- The answer to a request for help. -/
def helpText : String :=
  "Rewrites labeled log statements into metadata-carrying calls.\n\n"
    ++ "Usage: metalog [OPTIONS] <COMMAND>\n\n"
    ++ "Commands:\n"
    ++ "  transform  Rewrite files and print or write the result\n"
    ++ "  check      Rewrite files without output, reporting every error\n"
    ++ "  aliases    List the alias table the options produce\n"
    ++ "  ast        Show the parsed program tree as JSON\n"
    ++ "  help       Print this message\n"

end LogLabel.CommandLine
