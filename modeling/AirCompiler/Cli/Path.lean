/-!
# Output paths

A path is shown without empty parts and without parts that are a single dot.
-/

namespace AirCompiler.Cli

/-- A path: the slashes it begins with, and the names after them. -/
structure Path where
  root : String
  parts : List String
  deriving DecidableEq

namespace Path

/-- The slashes at the start of a path. Exactly two of them are kept, any other number counts as
one. -/
def rootOf (s : List Char) : String :=
  match s with
  | '/' :: '/' :: '/' :: _ => "/"
  | '/' :: '/' :: _ => "//"
  | '/' :: _ => "/"
  | _ => ""

/-- The path of a text. -/
def ofString (s : String) : Path :=
  ⟨rootOf s.toList, (s.splitOn "/").filter fun part => part != "" && part != "."⟩

/-- A file in a directory. -/
def file (p : Path) (name : String) : Path := { p with parts := p.parts ++ [name] }

/-- The text of a path; the current directory is a dot. -/
def text (p : Path) : String :=
  match p.root ++ "/".intercalate p.parts with
  | "" => "."
  | s => s

/-- Follows one name from a place below the current directory; there is no place above it. -/
def descend (place : Option (List String)) (part : String) : Option (List String) :=
  match place, part with
  | none, _ => none
  | some [], ".." => none
  | some (_ :: above), ".." => some above
  | some place, part => some (part :: place)

/-- The names that lead from the current directory to the path, if it lies below. -/
def below? (p : Path) : Option (List String) :=
  if p.root = "" then (p.parts.foldl descend (some [])).map List.reverse else none

end Path

end AirCompiler.Cli
