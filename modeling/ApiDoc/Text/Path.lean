namespace ApiDoc.Text

/-!
# File paths

* `normalPath` — a path without empty and `.` parts;
* `childPath` — the path of an entry of a directory.
-/

/-- The parts of a path between slashes. -/
def splitSlash : List Char → List (List Char)
  | [] => [[]]
  | c :: rest =>
    match splitSlash rest with
    | part :: parts => if c == '/' then [] :: part :: parts else (c :: part) :: parts
    | [] => [[c]]

/-- The root of a path: two slashes where exactly two stand at its front, otherwise one. -/
def pathRoot : List Char → List Char
  | '/' :: '/' :: '/' :: _ => ['/']
  | '/' :: '/' :: _ => ['/', '/']
  | '/' :: _ => ['/']
  | _ => []

/-- A path without empty and `.` parts; nothing left is the current directory. -/
def normalPath (path : String) : String :=
  let parts := (splitSlash path.toList).filter fun p => p != [] && p != ['.']
  let root := pathRoot path.toList
  if root.isEmpty && parts.isEmpty then "."
  else String.ofList (root ++ ['/'].intercalate parts)

/-- The path of an entry of a directory given by its normal path. -/
def childPath (directory entry : String) : String :=
  if directory == "." then entry
  else if directory.endsWith "/" then directory ++ entry
  else directory ++ "/" ++ entry

end ApiDoc.Text
