/-
  CrossRef.Path

  Paths: names separated by slashes. Empty names and single dots between
  slashes do not count, and a dot in front only by itself. Names are texts
  here; for the names that the system keeps see `CrossRef.OsPath`.
-/

namespace CrossRef.Path

/-! ## Pieces and steps -/

/-- Cuts a row of characters or bytes at its slashes. `acc` is what has been read
    of the current piece, backwards. -/
def split {α : Type} [DecidableEq α] (slash : α) : List α → List α → List (List α)
  | [], acc => [acc.reverse]
  | c :: cs, acc =>
    if c = slash then acc.reverse :: split slash cs [] else split slash cs (c :: acc)

/-- One step of a path. -/
inductive Component (ν : Type) where
  | root | here | up
  | name (n : ν)
deriving DecidableEq, Repr, Inhabited

variable {ν : Type} [DecidableEq ν]

/-- The step that one piece between slashes stands for, if it is a step at all.
    The piece with nothing in it, that of one dot and that of two dots are given. -/
def Component.ofPiece? (nothing here up piece : ν) : Option (Component ν) :=
  if piece = nothing ∨ piece = here then none
  else if piece = up then some .up
  else some (.name piece)

/-- The step in front of all pieces: the root if there is nothing before the
    first slash, the current directory if the first piece is a dot. -/
def frontStep (nothing here : ν) : List ν → List (Component ν)
  | [] => []
  | p :: ps => if p = nothing ∧ ps ≠ [] then [.root] else if p = here then [.here] else []

/-- The steps that the pieces of a path stand for. -/
def steps (nothing here up : ν) (pieces : List ν) : List (Component ν) :=
  frontStep nothing here pieces ++ pieces.filterMap (Component.ofPiece? nothing here up)

/-! ## Texts -/

/-- The pieces between the slashes of a text. -/
def pieces (path : String) : List String := (split '/' path.toList []).map String.ofList

/-- The steps of a path. -/
def components (path : String) : List (Component String) := steps "" "." ".." (pieces path)

/-- The name a path ends in, if it ends in one. -/
def fileName? (path : String) : Option String :=
  match (components path).getLast? with
  | some (.name text) => some text
  | _ => none

/-- What follows the last dot of a name. A dot in front of everything does not count. -/
def nameExtension? (name : String) : Option String :=
  let backwards := name.toList.reverse
  match backwards.dropWhile (· != '.') with
  | [] | [_] => none
  | _ => some (String.ofList (backwards.takeWhile (· != '.')).reverse)

/-- The extension of the name a path ends in. -/
def extension? (path : String) : Option String := (fileName? path).bind nameExtension?

end CrossRef.Path
