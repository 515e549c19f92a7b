/-
  CrossRef.Ignore.Library

  What the search for files asks of a library of ignore files: a walk through
  a directory that obeys the ignore files it meets, and rules that are put
  together from files and single lines.
-/
import CrossRef.FileTree

namespace CrossRef

namespace Ignore

/-- What a rule says of the paths it applies to. -/
inductive Verdict where
  | ignored | kept
deriving DecidableEq, Repr

inductive EntryKind where
  | file | directory | link
deriving DecidableEq, Repr

/-- What a walk comes to: the path to it, and what it is, unless that cannot be told. -/
structure WalkEntry where
  path : OsString
  kind : Option EntryKind
deriving DecidableEq, Repr

end Ignore

open Ignore

structure IgnoreLibrary where
  /-- Walks from a root through a tree. Hidden files take part, and links are
      not followed. Ignore files of every kind are obeyed, those above the root
      and the user's own included, in a repository or not. There is nothing in
      the place of an entry where the walk fails. -/
  walk : FileTree → OsString → List (Option WalkEntry)
  /-- Rules that are being put together. -/
  Builder : Type
  /-- No rules for a root so far. -/
  builder : OsString → Builder
  /-- With the lines of the file at a path, as far as it can be read. -/
  addFile : FileTree → OsString → Builder → Builder
  /-- With one line; a line that is no pattern adds nothing. -/
  addLine : String → Builder → Builder
  /-- Rules ready for use. -/
  Rules : Type
  empty : Rules
  build? : Builder → Option Rules
  /-- What rules say of a path below their root, or else of the directories above it. -/
  matchedOrAbove : Rules → OsString → Bool → Option Verdict

end CrossRef
