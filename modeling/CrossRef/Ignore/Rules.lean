/-
  CrossRef.Ignore.Rules

  The lines of ignore files. A line is a pattern; an exclamation mark in front
  takes files back in, a slash at the end confines it to directories, and any
  other slash ties it to the directory of the file. The last rule that applies
  decides.
-/
import CrossRef.Ignore.Glob
import CrossRef.Ignore.Library
import CrossRef.Text.Blank

namespace CrossRef.Ignore

structure Rule where
  verdict : Verdict
  onlyDirectories : Bool
  glob : Glob
deriving Repr

/-- What a line holds. -/
inductive Line where
  | blank
  | rule (r : Rule)
  | faulty
deriving Repr

/-! ## Reading -/

/-- A line without the white space at its end, unless a backslash protects it. -/
def withoutBlankEnd (line : List Char) : List Char :=
  if line.reverse.take 2 = [' ', '\\'] then line else Text.trimEnd line

/-- A line without its last character if that is `c`. -/
def dropLast? (c : Char) (line : List Char) : Option (List Char) :=
  if line.getLast? = some c then some line.dropLast else none

/-- The pattern a line stands for. Without a slash it holds at every depth, and
    two stars at the end do not take in the directory itself. -/
def widened (tied : Bool) (pattern : List Char) : List Char :=
  let deep :=
    if tied || pattern.contains '/' || pattern == ['*', '*'] then pattern
    else '*' :: '*' :: '/' :: pattern
  if deep.reverse.take 3 = ['*', '*', '/'] then deep ++ ['/', '*'] else deep

/-- The rule that a pattern gives, slash at the end included. -/
def Line.ofPattern (verdict : Verdict) (tied : Bool) (pattern : List Char) : Line :=
  let onlyDirectories := dropLast? '/' pattern
  let pattern := onlyDirectories.elim pattern fun p => (dropLast? '\\' p).getD p
  match Glob.parse? (widened tied pattern) with
  | some glob => .rule ⟨verdict, onlyDirectories.isSome, glob⟩
  | none => .faulty

/-- Reads a line. A backslash in front takes the meaning from an exclamation
    mark or a number sign. -/
def Line.read (line : List Char) : Line :=
  if line.head? = some '#' then .blank
  else
    match withoutBlankEnd line with
    | [] => .blank
    | '\\' :: '!' :: cs => .ofPattern .ignored false ('!' :: cs)
    | '\\' :: '#' :: cs => .ofPattern .ignored false ('#' :: cs)
    | '!' :: '/' :: cs => .ofPattern .kept true cs
    | '!' :: cs => .ofPattern .kept false cs
    | '/' :: cs => .ofPattern .ignored true cs
    | cs => .ofPattern .ignored false cs

/-- The rules in several lines; faulty ones give none. -/
def rulesOf (lines : List (List Char)) : List Rule :=
  lines.filterMap fun line =>
    match Line.read line with
    | .rule r => some r
    | _ => none

def isFaulty (line : List Char) : Bool :=
  match Line.read line with
  | .faulty => true
  | _ => false

/-- The lines of a file without byte order marks at the start. -/
def withoutMarks : List (List Char) → List (List Char)
  | [] => []
  | line :: lines => line.dropWhile (·.toNat == 0xFEFF) :: lines

/-! ## Applying -/

/-- Whether a rule applies to a path, which is relative to the rule's directory. -/
def Rule.appliesTo (r : Rule) (path : OsString) (isDirectory : Bool) : Bool :=
  (isDirectory || !r.onlyDirectories) && r.glob.matches path.bytes

/-- What several rules say of a path: the last that applies decides. -/
def verdict? (rules : List Rule) (path : OsString) (isDirectory : Bool) : Option Verdict :=
  (rules.reverse.find? (·.appliesTo path isDirectory)).map (·.verdict)

end CrossRef.Ignore
