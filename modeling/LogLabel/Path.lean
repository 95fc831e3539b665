import LogLabel.Text.Split

set_option autoImplicit false

/-!
# Paths

File names as texts, read lexically: only `/` separates, repeated separators and a
separator at the end count for nothing, and a `.` counts only at the start of a
relative path. Nothing here looks at a file system.

* `Path.components` splits a path, `Path.join` puts two together.
* `Path.normalize` removes `.` and `..`.
* `Path.destination` is where a file given by its path goes below an output directory.
-/

namespace LogLabel.Path

/-- A part of a path. -/
inductive Component where
  | root
  | current
  | parent
  | normal (name : String)
deriving DecidableEq

/-- The pieces of a path between separators. -/
def pieces (path : String) : List (List Char) := Text.split '/' path.toList

/-- The component that a piece stands for inside a path. -/
def innerComponent? (piece : List Char) : Option Component :=
  if piece = [] then none
  else if piece = ['.'] then none
  else if piece = ['.', '.'] then some .parent
  else some (.normal (String.ofList piece))

/-- Whether a path starts at the root. -/
def isAbsolute (path : String) : Bool := path.toList.head? = some '/'

/-- The components of a path. -/
def components (path : String) : List Component :=
  let ps := pieces path
  let inner := ps.filterMap innerComponent?
  if isAbsolute path then .root :: inner
  else if ps.head? = some ['.'] then .current :: inner
  else inner

/-- A path below a base. An absolute path replaces the base. -/
def join (base path : String) : String :=
  if isAbsolute path then path
  else if base = "" ∨ base.toList.getLast? = some '/' then base ++ path
  else base ++ "/" ++ path

/-- The text of the names of a path. -/
def render (absolute : Bool) (names : List String) : String :=
  (if absolute then "/" else "") ++ "/".intercalate names

/-- A place without `.` and `..`: whether it starts at the root, and its names. -/
structure Place where
  absolute : Bool
  names : List String

/-- The place reached by one more component. Going up from the root or from nowhere stays there. -/
def Place.enter (p : Place) : Component → Place
  | .root => ⟨true, []⟩
  | .current => p
  | .parent => { p with names := p.names.dropLast }
  | .normal name => { p with names := p.names ++ [name] }

/-- The place that a path leads to when read from left to right. -/
def place (path : String) : Place :=
  (components path).foldl Place.enter ⟨false, []⟩

/-- A path without `.` and `..`. -/
def normalize (path : String) : String :=
  let p := place path
  render p.absolute p.names

/-- The last component, if it is an ordinary name. -/
def fileName? (path : String) : Option String :=
  match (components path).getLast? with
  | some (.normal name) => some name
  | _ => none

/-- The part of the file name after its last point. A point at the start does not count. -/
def extension? (path : String) : Option String :=
  match fileName? path with
  | none => none
  | some name =>
      let after := name.toList.reverse.takeWhile (· ≠ '.')
      let before := name.toList.reverse.dropWhile (· ≠ '.')
      if before.length ≤ 1 then none else some (String.ofList after.reverse)

/-- The names of a path that neither starts at the root nor climbs. -/
def plainNames? : List Component → Option (List String)
  | [] => some []
  | .normal name :: cs => (plainNames? cs).map (name :: ·)
  | .current :: cs => plainNames? cs
  | _ => none

/-- Where a file given by its path goes below an output directory: the path itself, or the file
name alone when the path is absolute or climbs. -/
def destination (path : String) : String :=
  match plainNames? (components path) with
  | some names => render false names
  | none => (fileName? path).getD path

/-- The path without its last component; the root and the empty path have none. -/
def parent? (path : String) : Option String :=
  match (components path).getLast? with
  | none => none
  | some .root => none
  | some _ =>
      let cs := (components path).dropLast
      let names := cs.filterMap fun
        | .root => none
        | .current => some "."
        | .parent => some ".."
        | .normal name => some name
      some (render (cs.head? = some .root) names)

end LogLabel.Path
