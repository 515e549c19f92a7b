/-
  CrossRef.Ignore.Walk

  A walk through a directory to the bottom, with ignore files obeyed and links
  left alone, for a user without ignore files of their own.
-/
import CrossRef.Ignore.Exclusion
import CrossRef.Ignore.Level

namespace CrossRef

namespace Ignore

mutual

/-- What the walk comes to at an entry, by its names from the root. `levels` are
    the directories above it, the deepest first. -/
def entriesAt (t : FileTree) (levels : List Level) (names : List OsString) :
    Entry → List (List OsString × EntryKind)
  | .file _ => [(names, .file)]
  | .link _ => [(names, .link)]
  | .directory children =>
    (names, .directory) :: entriesAmong t (Level.ofTree t names :: levels) names children

/-- The same for the children of a directory that are not ignored. -/
def entriesAmong (t : FileTree) (levels : List Level) (names : List OsString) :
    List (OsString × Entry) → List (List OsString × EntryKind)
  | [] => []
  | (name, entry) :: rest =>
    (if Level.verdictOf? levels (names ++ [name]) entry.isDirectory = some .ignored then []
      else entriesAt t levels (names ++ [name]) entry)
      ++ entriesAmong t levels names rest

end

/-- What the walk comes to has the path of the root with its names below. -/
def WalkEntry.below (root : OsString) (base : List OsString)
    (found : List OsString × EntryKind) : WalkEntry :=
  ⟨(found.1.drop base.length).foldl OsPath.join root, some found.2⟩

/-- Walks from a root. A single hyphen stands for what is typed in, of which
    nothing can be told; a faulty line in an ignore file above the root makes
    the walk fail once. -/
def walk (t : FileTree) (root : OsString) : List (Option WalkEntry) :=
  if OsPath.components root = [.name ⟨[OsString.hyphen]⟩] then [some ⟨root, none⟩]
  else
    match t.find? root with
    | none => [none]
    | some (base, entry) =>
      let above := if entry.isDirectory then Level.above t base else []
      (if above.any (·.faulty) then [none] else [])
        ++ (entriesAt t above base entry).map fun found => some (.below root base found)

end Ignore

open Ignore

/-- The walk and the rules of this library. -/
def IgnoreLibrary.standard : IgnoreLibrary where
  walk := Ignore.walk
  Builder := Exclusion
  builder := Exclusion.ofRoot
  addFile t path x := x.withFile t path
  addLine line x := x.withLines [line.toList]
  Rules := Exclusion
  empty := ⟨.empty, []⟩
  build? := some
  matchedOrAbove := Exclusion.matchedOrAbove

end CrossRef
