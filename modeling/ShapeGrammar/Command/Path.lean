/-!
# Paths

A path is followed name by name. The place it leads to is written as the names from the folder a
command works in: none for that folder itself. A place outside of it starts with a name for the
folder above or for the root of all folders.
-/
namespace ShapeGrammar

namespace Path

/-- The name of the folder above another one. -/
def above : String :=
  ".."

/-- The name that the root of all folders goes by. -/
def root : String :=
  "/"

/-- The parts of a path between its separators. -/
def parts (path : String) : List String :=
  path.splitOn "/"

/-- Where a path starts. -/
def origin (path : String) : List String :=
  if path.startsWith "/" then [root] else []

/-- Whether a part of a path leads nowhere else. -/
def isIdle (part : String) : Bool :=
  part == "" || part == "."

/-- The parts of a path that lead somewhere. -/
def names (path : String) : List String :=
  (parts path).filter fun part => !isIdle part

/-- The place of the folder that a place lies in; the root lies in itself. -/
def up (place : List String) : List String :=
  match place.getLast? with
  | none => [above]
  | some last =>
    if last = above then place ++ [above]
    else if last = root then place
    else place.dropLast

/-- Where a part of a path leads from a place. -/
def next (place : List String) (part : String) : List String :=
  if isIdle part then place else if part = above then up place else place ++ [part]

/-- The place a path leads to when there is a folder wherever it needs one. -/
def place (path : String) : List String :=
  (parts path).foldl next (origin path)

/-- Whether a place lies below the folder a command works in. -/
def isInside (place : List String) : Bool :=
  match place with
  | [] => true
  | first :: _ => first != above && first != root

/-- A name below a folder. -/
def join (folder name : String) : String :=
  if folder = "" ∨ folder.endsWith "/" then folder ++ name else folder ++ "/" ++ name

/-- The most bytes a name may have. -/
def longestName : Nat :=
  255

/-- The most bytes a path may have. -/
def longestPath : Nat :=
  4095

end Path

end ShapeGrammar
