import LogLabel.CommandLine.Run

set_option autoImplicit false

/-!
# The program

Takes up the files that a command names, runs the command on them, prints its report and
writes the files it changed.
-/

namespace LogLabel.CommandLine

/-- The paths that a command names. -/
def Command.paths : Command → List String
  | .transform paths (.directory path) settings => paths ++ path :: settings.config.toList
  | .transform paths _ settings => paths ++ settings.config.toList
  | .check paths settings => paths ++ settings.config.toList
  | .labels settings => settings.config.toList
  | .tree path => [path]

/-- Takes up what stands at a place; `deep` also takes up what is below a directory. -/
partial def takeUp (deep : Bool) (place : List String) : IO (Option Entry) := do
  let path := (← IO.currentDir) / Path.render true place
  if ← path.isDir then
    if deep then
      let mut entries := []
      for found in ← path.readDir do
        match ← takeUp deep (place ++ [found.fileName]) with
        | some e => entries := NameMap.insertEntry found.fileName e entries
        | none => pure ()
      return some (.directory entries)
    else
      return some (.directory [])
  else if ← path.pathExists then
    match ← (IO.FS.readBinFile path).toBaseIO with
    | .ok bytes => return some (.file bytes)
    | .error (.permissionDenied ..) => return some (.locked .denied)
    | .error e => throw e
  else
    return none

/-- Takes up the places on the way of a path, and all that is below the last one. -/
def takeUpPath (fs : FileSystem) (place : List String) : List (List Char) → IO FileSystem
  | [] => return fs
  | piece :: pieces => do
      let next := FileSystem.enter place piece
      match fs.root.descend? next, ← takeUp pieces.isEmpty next with
      | some _, some (.directory []) => takeUpPath fs next pieces
      | _, some e => takeUpPath (fs.put next e) next pieces
      | _, none => return fs

/-- Writes the files that differ from what they were. -/
def writeBack (before after : FileSystem) : IO Unit := do
  let old := before.filesBelow []
  for (names, bytes) in after.filesBelow [] do
    if (old.lookup names).any fun known => known.data == bytes.data then
      pure ()
    else
      IO.FS.createDirAll (Path.render true names.dropLast)
      IO.FS.writeBinFile (Path.render true names) bytes

/-- Runs a command on the files around it. -/
def Command.execute (c : Command) : IO UInt32 := do
  let here := (Path.place (← IO.currentDir).toString).names
  let start : FileSystem := FileSystem.put ⟨.directory [], here⟩ here (.directory [])
  let fs ← c.paths.foldlM (fun fs path => takeUpPath fs (fs.start path) (Path.pieces path)) start
  let names := ["NODE_ENV", "TRACE_CONTEXT", "TRACE_FILE", "TRACE_LEVEL"]
  let values ← names.mapM fun name => return (name, ← IO.getEnv name)
  let report := c.run (Environment.ofVariables fun name => (values.lookup name).join) fs
  writeBack fs report.files
  IO.print report.output
  for d in report.failures do
    IO.eprintln d.category.code
    IO.eprintln (d.display.getD "")
  for line in report.summary.toList do
    IO.eprintln line
  return report.status.toUInt32

end LogLabel.CommandLine

open LogLabel.CommandLine in
/-- Reads the arguments and runs the command they ask for. -/
def main (arguments : List String) : IO UInt32 := do
  match LogLabel.CommandLine.parse arguments with
  | .ok command => command.execute
  | .error .help =>
      IO.print helpText
      return 0
  | .error .version =>
      IO.print versionLine
      return 0
  | .error (.misuse m) =>
      IO.eprintln ("error: " ++ m.message)
      return 2
