/-!
Paths as they are written. Slashes separate the parts of a path; an empty part and a single full
stop lead nowhere. The last other part is the name of the file, and its stem is what stands before
its last full stop, or all of it when nothing does.
-/

namespace EventScript.Cli.Path

/-- The characters between slashes. -/
def splitSlashes (chars : List Char) : List (List Char) :=
  chars.foldr
    (fun c parts =>
      if c = '/' then [] :: parts
      else
        match parts with
        | part :: rest => (c :: part) :: rest
        | [] => [[c]])
    [[]]

/-- The parts of a path. -/
def parts (path : String) : List String := (splitSlashes path.toList).map String.ofList

/-- The path starts at the root. -/
def isAbsolute (path : String) : Bool := path.toList.head? == some '/'

/-- A part that leads nowhere. -/
def isIdle (part : String) : Bool := part == "" || part == "."

/-- The name of the file that a path leads to, unless it leads to the root, stays where it starts or
ends by going up. -/
def fileName? (path : String) : Option String :=
  ((parts path).filter (!isIdle ·)).getLast?.filter (· ≠ "..")

/-- The characters of a name before its last full stop, or all of them when that leaves none. -/
def stemChars (name : List Char) : List Char :=
  match name.reverse.dropWhile (· ≠ '.') with
  | [] | [_] => name
  | _ :: before => before.reverse

/-- The stem of the file that a path leads to. -/
def stem? (path : String) : Option String :=
  (fileName? path).map fun name => String.ofList (stemChars name.toList)

end EventScript.Cli.Path
