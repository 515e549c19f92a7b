/-
  CrossRef.Ignore.Exclusion

  Rules for everything below a root. They are asked about a path and, where
  they say nothing of it, about the directories above it.
-/
import CrossRef.Ignore.Rules

namespace CrossRef.Ignore

open OsString

/-- The rules for everything below a root. -/
structure Exclusion where
  root : OsString
  rules : List Rule
deriving Repr

/-- A row of bytes without another one in front of it. -/
def withoutFront? (front bytes : List UInt8) : Option (List UInt8) :=
  if front.isPrefixOf bytes then some (bytes.drop front.length) else none

/-- A path without a dot and a slash in front. -/
def withoutHere (path : OsString) : OsString :=
  ⟨(withoutFront? [dot, slash] path.bytes).getD path.bytes⟩

namespace Exclusion

/-- No rules for a root. -/
def ofRoot (root : OsString) : Exclusion := ⟨withoutHere root, []⟩

/-- With the rules in several lines behind the others. -/
def withLines (x : Exclusion) (lines : List (List Char)) : Exclusion :=
  { x with rules := x.rules ++ rulesOf lines }

/-- With the rules in the file at a path. -/
def withFile (x : Exclusion) (t : FileTree) (path : OsString) : Exclusion :=
  x.withLines (withoutMarks (t.linesAt path))

/-- The part of a path that its root does not have. A path that is a single
    name is taken as it is. -/
def relative (x : Exclusion) (path : OsString) : OsString :=
  let path := withoutHere path
  if OsPath.components x.root = [.here] ∨ !path.bytes.contains slash then path
  else
    match withoutFront? x.root.bytes path.bytes with
    | some rest => ⟨(withoutFront? [slash] rest).getD rest⟩
    | none => path

/-- What the rules say of a relative path, or else of the directories above it,
    the nearest first. `fuel` bounds how many there are. -/
def verdictUpward? (rules : List Rule) : Nat → OsString → Bool → Option Verdict
  | 0, _, _ => none
  | fuel + 1, path, isDirectory =>
    match verdict? rules path isDirectory with
    | some v => some v
    | none => (OsPath.parent? path).bind fun above => verdictUpward? rules fuel above true

/-- What the rules say of a path below their root, or else of the directories
    above it. Paths that are not below the root are none of their business. -/
def matchedOrAbove (x : Exclusion) (path : OsString) (isDirectory : Bool) : Option Verdict :=
  let path := x.relative path
  if OsPath.isAbsolute path then none
  else verdictUpward? x.rules (path.bytes.length + 2) path isDirectory

end Exclusion

end CrossRef.Ignore
