import EventScript.Cli.Path

/-!
A tree of files and directories. A location is the list of names from the root down; a path leads
to a location through directories that have to be there. Reading a path gives the bytes of a file,
and writing one makes a file or replaces its bytes; neither makes a directory.

There are files and directories only, one for each location, and any of them may be read and
written.
-/

namespace EventScript.Cli

/-- Why a file cannot be read or written. -/
inductive FileError where
  | notFound
  | notADirectory
  | isDirectory
  | nameTooLong
  | notText
  | other (description : String)
  deriving DecidableEq, Repr

/-- The wording of a file error. -/
def FileError.message : FileError → String
  | .notFound => "No such file or directory (os error 2)"
  | .notADirectory => "Not a directory (os error 20)"
  | .isDirectory => "Is a directory (os error 21)"
  | .nameTooLong => "File name too long (os error 36)"
  | .notText => "stream did not contain valid UTF-8"
  | .other description => description

/-- Names from the root down. -/
abbrev Location := List String

/-- What stands at a location. -/
inductive Entry where
  | file (contents : ByteArray)
  | directory

/-- Entries by location, and the location where relative paths start. -/
structure FileTree where
  workingDirectory : Location
  entries : List (Location × Entry)

namespace FileTree

/-- What stands at a location; at the root there is a directory. -/
def find? (tree : FileTree) (location : Location) : Option Entry :=
  if location = [] then some .directory else tree.entries.lookup location

/-- Entries with one put at a location, in the place of the one there or at the end. -/
def putEntry (location : Location) (entry : Entry) :
    List (Location × Entry) → List (Location × Entry)
  | [] => [(location, entry)]
  | (other, kept) :: rest =>
    if other = location then (location, entry) :: rest
    else (other, kept) :: putEntry location entry rest

/-- The tree with an entry at a location; all other locations keep theirs. -/
def set (tree : FileTree) (location : Location) (entry : Entry) : FileTree :=
  { tree with entries := putEntry location entry tree.entries }

theorem lookup_putEntry (location : Location) (entry : Entry) (entries : List (Location × Entry))
    (other : Location) :
    (putEntry location entry entries).lookup other =
      if other = location then some entry else entries.lookup other := by
  induction entries with
  | nil =>
    by_cases hother : other = location
    · subst hother; simp [putEntry]
    · simp [putEntry, List.lookup_cons, hother, beq_false_of_ne hother]
  | cons first rest ih =>
    obtain ⟨place, kept⟩ := first
    unfold putEntry
    by_cases hplace : place = location
    · subst hplace
      by_cases hother : other = place
      · subst hother; simp
      · simp [List.lookup_cons, hother, beq_false_of_ne hother]
    · rw [if_neg hplace, List.lookup_cons, List.lookup_cons, ih]
      by_cases hother : other = place
      · subst hother; simp [hplace]
      · simp [beq_false_of_ne hother]

/-- What stands at a location after another was set; the root always stays a directory. -/
theorem find?_set (tree : FileTree) {location : Location} (h : location ≠ []) (entry : Entry)
    (other : Location) :
    (tree.set location entry).find? other =
      if other = location then some entry else tree.find? other := by
  unfold find? set
  by_cases hroot : other = []
  · subst hroot; simp [Ne.symm h]
  · simp only [hroot, if_false]
    exact lookup_putEntry location entry tree.entries other

/-! ### Paths -/

/-- The most bytes of a name. -/
def maxNameBytes : Nat := 255

/-- The most bytes of a path. -/
def maxPathBytes : Nat := 4095

/-- There is a directory at a location. -/
def checkDirectory (tree : FileTree) (location : Location) : Except FileError Unit :=
  match tree.find? location with
  | some .directory => .ok ()
  | some (.file _) => .error .notADirectory
  | none => .error .notFound

/-- The location that one more part of a path leads to. -/
def follow (tree : FileTree) (location : Location) (part : String) : Except FileError Location :=
  match tree.checkDirectory location with
  | .error e => .error e
  | .ok () =>
    if Path.isIdle part then .ok location
    else if part = ".." then .ok location.dropLast
    else if maxNameBytes < part.utf8ByteSize then .error .nameTooLong
    else .ok (location ++ [part])

/-- The location that the parts of a path lead to; the last need not be there. -/
def walk (tree : FileTree) (location : Location) : List String → Except FileError Location
  | [] => .ok location
  | part :: rest =>
    match tree.follow location part with
    | .error e => .error e
    | .ok next => tree.walk next rest

/-- Where a path starts. -/
def origin (tree : FileTree) (path : String) : Location :=
  if Path.isAbsolute path then [] else tree.workingDirectory

/-- A path that is not empty and not too long. -/
def checkPath (path : String) : Except FileError Unit :=
  if path = "" then .error .notFound
  else if maxPathBytes < path.utf8ByteSize then .error .nameTooLong
  else .ok ()

/-! ### Reading and writing -/

/-- The bytes of the file at a path. -/
def read (tree : FileTree) (path : String) : Except FileError ByteArray :=
  match checkPath path with
  | .error e => .error e
  | .ok () =>
    match tree.walk (tree.origin path) (Path.parts path) with
    | .error e => .error e
    | .ok location =>
      match tree.find? location with
      | some (.file contents) => .ok contents
      | some .directory => .error .isDirectory
      | none => .error .notFound

/-- The text of the file at a path. -/
def readText (tree : FileTree) (path : String) : Except FileError String :=
  match tree.read path with
  | .error e => .error e
  | .ok contents =>
    match String.fromUTF8? contents with
    | some text => .ok text
    | none => .error .notText

/-- The location at which writing to a path makes a file or replaces one. A path that ends with a
slash or with a part that names no file means a directory. -/
def target (tree : FileTree) (path : String) : Except FileError Location :=
  match checkPath path with
  | .error e => .error e
  | .ok () =>
    let parts := (Path.parts path).filter (· ≠ "")
    match tree.walk (tree.origin path) parts.dropLast with
    | .error e => .error e
    | .ok parent =>
      match tree.checkDirectory parent with
      | .error e => .error e
      | .ok () =>
        match parts.getLast? with
        | none => .error .isDirectory
        | some last =>
          if path.toList.getLast? = some '/' || last = "." || last = ".." then .error .isDirectory
          else
            match tree.follow parent last with
            | .error e => .error e
            | .ok location =>
              match tree.find? location with
              | some .directory => .error .isDirectory
              | _ => .ok location

/-- The tree with the bytes written to a path: all of them, or none where the path leads to no place
for a file. A tree has no permissions, no links from one location to another and room for every
file, so no write is refused for these reasons, fails after the file was emptied, stops halfway or
leaves bytes behind that never reach the file. -/
def write (tree : FileTree) (path : String) (contents : ByteArray) : Except FileError FileTree :=
  match tree.target path with
  | .error e => .error e
  | .ok location => .ok (tree.set location (.file contents))

end FileTree

end EventScript.Cli
