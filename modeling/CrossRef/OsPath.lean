/-
  CrossRef.OsPath

  Paths as the system keeps them, and the identifiers that files get by them.
-/
import CrossRef.OsString
import CrossRef.Path

namespace CrossRef.OsPath

open OsString
open CrossRef.Path (Component)

/-- The pieces between the slashes of a path. -/
def pieces (path : OsString) : List OsString := (Path.split slash path.bytes []).map OsString.mk

/-- The path that pieces make up. -/
def ofPieces (ps : List OsString) : OsString := ⟨[slash].intercalate (ps.map (·.bytes))⟩

/-- The steps of a path. -/
def components (path : OsString) : List (Component OsString) :=
  Path.steps .empty .here .up (pieces path)

def isAbsolute (path : OsString) : Bool := path.bytes.head? == some slash

/-! ## Paths from paths -/

/-- A path that starts where another leads; an absolute one stands by itself. -/
def join (directory path : OsString) : OsString :=
  if isAbsolute path then path
  else if directory.bytes.isEmpty ∨ directory.bytes.getLast? = some slash then
    ⟨directory.bytes ++ path.bytes⟩
  else ⟨directory.bytes ++ slash :: path.bytes⟩

/-- The pieces of a relative path without those at its end that do not count. -/
def countedPieces (ps : List OsString) : List OsString :=
  match ps.reverse.dropWhile fun p => p == .empty || p == .here with
  | [] => if ps.head? = some .here then [.here] else []
  | back => back.reverse

/-- The directory that holds what a relative path leads to. -/
def parent? (path : OsString) : Option OsString :=
  match countedPieces (pieces path) with
  | [] => none
  | ps => some (ofPieces (countedPieces ps.dropLast))

/-- The steps of a path behind those of a directory, if it starts with them. -/
def relativeTo? (directory path : OsString) : Option (List (Component OsString)) :=
  if components directory <+: components path then
    some ((components path).drop (components directory).length)
  else none

/-! ## Identifiers -/

/-- The text a step has within an identifier; the root leaves none, and the
    current directory is left out. -/
def stepText? : Component OsString → Option String
  | .root => some ""
  | .here => none
  | .up => some ".."
  | .name n => some n.lossy

/-- The identifier of what steps lead to: their texts between single slashes. -/
def identifier (steps : List (Component OsString)) : String :=
  "/".intercalate (steps.filterMap stepText?)

/-! ## Order -/

/-- What a step is ordered by: the root, the current directory and the directory
    above come first, then names by their bytes. -/
def rank : Component OsString → List Nat
  | .root => [0]
  | .here => [1]
  | .up => [2]
  | .name n => 3 :: n.bytes.map UInt8.toNat

/-- What a path is ordered by: its steps, one after the other. -/
def ranks (path : OsString) : List (List Nat) := (components path).map rank

end CrossRef.OsPath
