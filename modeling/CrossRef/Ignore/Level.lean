/-
  CrossRef.Ignore.Level

  The ignore files of the directories above a path. Of the kinds of ignore
  files the stronger one decides at whatever depth it stands; of the files of
  one kind the deepest that has a rule for the path.
-/
import CrossRef.Ignore.Rules

namespace CrossRef.Ignore

/-- The kinds of ignore files, the strongest first, by the names that lead to
    them from the directory they are about. -/
def fileKinds : List (List OsString) := [[".ignore"], [".gitignore"], [".git", "info", "exclude"]]

/-- A directory, by its names from the root, with the rules of its ignore
    files, one list for each kind, and whether some line is no pattern. -/
structure Level where
  directory : List OsString
  rules : List (List Rule)
  faulty : Bool
deriving Repr

namespace Level

/-- The level that a directory of a tree makes. -/
def ofTree (t : FileTree) (directory : List OsString) : Level :=
  let files := fileKinds.map fun names => withoutMarks (t.linesIn directory names)
  ⟨directory, files.map rulesOf, files.any (·.any isFaulty)⟩

/-- What the ignore file of one kind says of what has these names from the root. -/
def verdict? (l : Level) (kind : Nat) (names : List OsString) (isDirectory : Bool) :
    Option Verdict :=
  Ignore.verdict? (l.rules.getD kind []) (OsPath.ofPieces (names.drop l.directory.length))
    isDirectory

/-- What the ignore files of several directories say, given the deepest first. -/
def verdictOf? (levels : List Level) (names : List OsString) (isDirectory : Bool) :
    Option Verdict :=
  (List.range fileKinds.length).findSome? fun kind =>
    levels.findSome? fun l => l.verdict? kind names isDirectory

/-- The levels of the directories above one, the deepest first. -/
def above (t : FileTree) (directory : List OsString) : List Level :=
  (List.range directory.length).reverse.map fun depth => ofTree t (directory.take depth)

end Level

end CrossRef.Ignore
