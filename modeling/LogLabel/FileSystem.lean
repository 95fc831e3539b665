import LogLabel.Diagnostic
import LogLabel.NameMap
import LogLabel.Path

set_option autoImplicit false

/-!
# File systems

Files and directories as a value. Paths are followed name by name: every name but the
last one has to lead to a directory, and `.` and `..` count only where a directory is.

* `FileSystem.find`, `FileSystem.readText` look a path up.
* `FileSystem.createDirectories`, `FileSystem.writeText` give the file system after a change.
* `Entry.files` lists the files below a directory, depth first and in the order of names.
-/

namespace LogLabel

/-- What stands under a name: a file, or a directory whose entries are ordered by name. -/
inductive Entry where
  | file (bytes : ByteArray)
  /-- A file that cannot be used. -/
  | locked (fault : FileFault)
  | directory (entries : List (String × Entry))
deriving Inhabited

namespace Entry

/-- The entry that a list of names leads to. -/
def descend? (e : Entry) : List String → Option Entry
  | [] => some e
  | name :: names =>
      match e with
      | .directory entries => (entries.lookup name).bind fun e => e.descend? names
      | _ => none

/-- The entry with another one put where a list of names leads. Directories on the way are made
where nothing stands. -/
def put (new : Entry) (e : Entry) : List String → Entry
  | [] => new
  | name :: names =>
      match e with
      | .directory entries =>
          let below := (entries.lookup name).getD (.directory [])
          .directory (NameMap.insertEntry name (put new below names) entries)
      | e => e

mutual
/-- The files below an entry, each with the names that lead to it and what is in it. -/
def files : Entry → List (List String × Option ByteArray)
  | .file bytes => [([], some bytes)]
  | .locked _ => [([], none)]
  | .directory entries => filesOfEntries entries
/-- The files below the entries of a directory. -/
def filesOfEntries : List (String × Entry) → List (List String × Option ByteArray)
  | [] => []
  | (name, e) :: entries =>
      (e.files.map fun (names, content) => (name :: names, content)) ++ filesOfEntries entries
end

end Entry

/-- A file system: all its entries, and the names that lead to the current directory. -/
structure FileSystem where
  root : Entry
  current : List String

namespace FileSystem

/-- The path of the current directory. -/
def currentPath (fs : FileSystem) : String := Path.render true fs.current

/-- The place that one more piece of a path leads to. -/
def enter (place : List String) (piece : List Char) : List String :=
  if piece = [] ∨ piece = ['.'] then place
  else if piece = ['.', '.'] then place.dropLast
  else place ++ [String.ofList piece]

/-- The place that the pieces of a path lead to. Each piece is read in a directory; nothing is asked
of the last place. -/
def follow (fs : FileSystem) : List String → List (List Char) → Except FileFault (List String)
  | place, [] => .ok place
  | place, piece :: pieces =>
      match fs.root.descend? place with
      | none => .error .notFound
      | some (.directory _) => fs.follow (enter place piece) pieces
      | some _ => .error .notDirectory

/-- The place from which a path is followed. -/
def start (fs : FileSystem) (path : String) : List String :=
  if Path.isAbsolute path then [] else fs.current

/-- The place of a path. The empty path has none. -/
def locate (fs : FileSystem) (path : String) : Except FileFault (List String) :=
  if path = "" then .error .notFound else fs.follow (fs.start path) (Path.pieces path)

/-- What stands at a path. -/
def find (fs : FileSystem) (path : String) : Except FileFault Entry :=
  match fs.locate path with
  | .error fault => .error fault
  | .ok place =>
      match fs.root.descend? place with
      | none => .error .notFound
      | some e => .ok e

/-- The text of a file. -/
def readText (fs : FileSystem) (path : String) : Except FileFault String :=
  match fs.find path with
  | .error fault => .error fault
  | .ok (.directory _) => .error .isDirectory
  | .ok (.locked fault) => .error fault
  | .ok (.file bytes) =>
      match String.fromUTF8? bytes with
      | some text => .ok text
      | none => .error .notText

/-- The file system with an entry at a place. -/
def put (fs : FileSystem) (place : List String) (e : Entry) : FileSystem :=
  { fs with root := Entry.put e fs.root place }

/-- Makes the directories that the pieces of a path name, where nothing stands. -/
def createAlong (fs : FileSystem) : List String → List (List Char) → Except FileFault FileSystem
  | _, [] => .ok fs
  | place, piece :: pieces =>
      let next := enter place piece
      match fs.root.descend? next with
      | some (.directory _) => fs.createAlong next pieces
      | some _ => .error (if pieces.isEmpty then .alreadyExists else .notDirectory)
      | none => (fs.put next (.directory [])).createAlong next pieces

/-- Makes a directory and all directories on the way to it. -/
def createDirectories (fs : FileSystem) (path : String) : Except FileFault FileSystem :=
  if path = "" then .ok fs else fs.createAlong (fs.start path) (Path.pieces path)

/-- Writes a file into a directory that is there. -/
def writeText (fs : FileSystem) (path text : String) : Except FileFault FileSystem :=
  match fs.locate path with
  | .error fault => .error fault
  | .ok place =>
      match fs.root.descend? place with
      | some (.directory _) => .error .isDirectory
      | some (.locked fault) => .error fault
      | _ => .ok (fs.put place (.file text.toUTF8))

/-- The files at and below a place that can be read, each with the names that lead to it. -/
def filesBelow (fs : FileSystem) (place : List String) : List (List String × ByteArray) :=
  match fs.root.descend? place with
  | some e => e.files.filterMap fun (names, content) => content.map (names, ·)
  | none => []

end FileSystem

end LogLabel
