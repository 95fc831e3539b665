import LogLabel.Expansion
import LogLabel.Program.Parser
import LogLabel.Program.Printer

set_option autoImplicit false

/-!
# Transforming sources

Reading, expanding and printing one source text. The table of labels is made first
and kept with the options, so the options are given back with every result.
-/

namespace LogLabel

open Program (Tree)

/-- A transformed text and the counts of the pass. -/
structure Transformed where
  code : String
  stats : Stats
deriving DecidableEq

/-- Expands the labels of a tree. On a failure the tree keeps what was expanded before it. There is no
result if the pass has no end. -/
def expandTree? (context : ExpansionContext) (t : Tree) :
    Option (Except Diagnostic Stats × Tree) :=
  (Expansion.run? context t).map fun
    | .error (d, session) => (.error d, session.tree)
    | .ok session => (.ok session.stats, session.tree)

/-- What the pass over a file needs to know. The file is named relative to the directory `base`. -/
def Options.context (o : Options) (table : LabelTable) (filename base : String) (e : Environment) :
    ExpansionContext where
  file := SourceName.resolve filename base
  table := table
  logFunction := o.logFunction
  strip := o.strip
  environment := e

/-- Makes the table of labels and expands the labels of a tree. There is no result if the pass has no
end. -/
def transformTree? (t : Tree) (filename base : String) (options : Options)
    (environment : Environment) : Option (Except Diagnostic Stats × Tree × Options) :=
  match options.normalize with
  | (.error d, options) => some (.error d, t, options)
  | (.ok table, options) =>
      (expandTree? (options.context table filename base environment) t).map
        fun (result, t) => (result, t, options)

/-- Reads, expands and prints a source text. There is no result if the pass has no end. -/
def transformSource? (source filename base : String) (options : Options)
    (environment : Environment) : Option (Except Diagnostic Transformed × Options) :=
  match Program.parse .source source with
  | .error d => some (.error d, options)
  | .ok t =>
      (transformTree? t filename base options environment).map fun
        | (.error d, _, options) => (.error d, options)
        | (.ok stats, t, options) => (.ok ⟨t.print, stats⟩, options)

/-! ## Results for callers

The same with a result in every case: for a pass without an end `unsettledExpansion` stands in. -/

/-- Makes the table of labels and expands the labels of a tree. -/
def transformTree (t : Tree) (filename base : String) (options : Options)
    (environment : Environment) : Except Diagnostic Stats × Tree × Options :=
  (transformTree? t filename base options environment).getD
    (.error ⟨.unsettledExpansion, none⟩, t, options.normalize.2)

/-- Reads, expands and prints a source text. -/
def transformSource (source filename base : String) (options : Options)
    (environment : Environment) : Except Diagnostic Transformed × Options :=
  (transformSource? source filename base options environment).getD
    (.error ⟨.unsettledExpansion, none⟩, options.normalize.2)

end LogLabel
