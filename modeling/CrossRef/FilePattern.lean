/-
  CrossRef.FilePattern

  Patterns that select files by their identifiers. A question mark is one
  character, a star any number of them, square brackets a choice of characters,
  none of them a slash; two stars that fill a whole component are any number
  of directories. The search for files can do with any library of such patterns.
-/
import CrossRef.Error
import CrossRef.Text.Rest

namespace CrossRef

open CrossRef.Text

structure PatternLibrary where
  Pattern : Type
  parse : String → Except PatternFault Pattern
  /-- Whether a pattern matches a whole text: capitals differ from small letters,
      wildcards do not match slashes, and a dot in front is like any character. -/
  selects : Pattern → String → Bool

namespace FilePattern

/-- A part of a pattern. Characters to choose from are given as ranges. -/
inductive Part where
  | literal (c : Char)
  | any
  | star
  | directories
  | oneOf (negated : Bool) (ranges : List (Char × Char))
deriving DecidableEq, Repr

end FilePattern

/-- A pattern as the row of its parts. -/
structure FilePattern where
  parts : List FilePattern.Part
deriving DecidableEq, Repr

namespace FilePattern

/-! ## Matching -/

/-- What can be left of a text behind one part of a pattern. -/
def Part.rests : Part → List Char → List (List Char)
  | .literal a, c :: cs => if c = a then [cs] else []
  | .any, c :: cs => if c = '/' then [] else [cs]
  | .oneOf negated ranges, c :: cs =>
    if c ≠ '/' ∧ ranges.any (fun r => r.1 ≤ c && c ≤ r.2) ≠ negated then [cs] else []
  | .star, cs => withinName '/' cs
  | .directories, cs => cs :: behindSlashes '/' cs ++ [[]]
  | _, [] => []

/-- What can be left of a text behind several parts of a pattern. -/
def restsBehind : List Part → List Char → List (List Char)
  | [], cs => [cs]
  | p :: ps, cs => distinctRests ((p.rests cs).flatMap (restsBehind ps))

/-- Whether a pattern matches a whole text. -/
def selects (p : FilePattern) (text : String) : Bool :=
  (restsBehind p.parts text.toList).any (·.isEmpty)

/-! ## Reading -/

def starsReason : String := "wildcards are either regular `*` or recursive `**`"
def directoriesReason : String := "recursive wildcards must form a single path component"
def rangeReason : String := "invalid range pattern"

/-- The ranges in square brackets: a hyphen between two characters spans them. -/
def ranges : List Char → List (Char × Char)
  | low :: '-' :: high :: cs => (low, high) :: ranges cs
  | c :: cs => (c, c) :: ranges cs
  | [] => []

/-- Splits off what stands before the first closing bracket, not counting the
    first character. -/
def untilBracket : List Char → Option (List Char × List Char)
  | c :: cs =>
    match cs.span (· != ']') with
    | (inside, _ :: rest) => some (c :: inside, rest)
    | _ => none
  | [] => none

/-- A choice behind its opening bracket, with what follows it. -/
def readChoice : List Char → Option (Part × List Char)
  | '!' :: cs => (untilBracket cs).map fun (inside, rest) => (.oneOf true (ranges inside), rest)
  | cs => (untilBracket cs).map fun (inside, rest) => (.oneOf false (ranges inside), rest)

/-- Two stars, `position` characters into the pattern, between the character
    before them and the text behind them. -/
def readDirectories (position : Nat) (before : Option Char) (cs : List Char) :
    Except PatternFault (List Char) :=
  match before, cs with
  | none, [] | some '/', [] => .ok []
  | none, '/' :: cs | some '/', '/' :: cs => .ok cs
  | none, _ | some '/', _ => .error ⟨position + 2, directoriesReason⟩
  | _, _ => .error ⟨position - 1, directoriesReason⟩

/-- Reads the parts of a pattern of `length` characters from a point on, where
    `before` is the character in front. -/
def readParts (length : Nat) : Nat → Option Char → List Char → Except PatternFault (List Part)
  | 0, _, _ => .ok []
  | _ + 1, _, [] => .ok []
  | fuel + 1, before, c :: cs => do
    let position := length - (cs.length + 1)
    match c with
    | '?' => return .any :: (← readParts length fuel (some c) cs)
    | '*' =>
      let stars := (c :: cs).takeWhile (· == '*')
      let rest := (c :: cs).dropWhile (· == '*')
      match stars.length with
      | 1 => return .star :: (← readParts length fuel (some c) rest)
      | 2 =>
        let behind ← readDirectories position before rest
        let last := if behind.length = rest.length then '*' else '/'
        return .directories :: (← readParts length fuel (some last) behind)
      | _ => throw ⟨position + 2, starsReason⟩
    | '[' =>
      match readChoice cs with
      | some (part, rest) => return part :: (← readParts length fuel (some ']') rest)
      | none => throw ⟨position, rangeReason⟩
    | c => return .literal c :: (← readParts length fuel (some c) cs)

/-- Reads a pattern. -/
def parse (text : String) : Except PatternFault FilePattern :=
  let cs := text.toList
  (readParts cs.length cs.length none cs).map FilePattern.mk

end FilePattern

/-- The patterns of this library. -/
def PatternLibrary.standard : PatternLibrary where
  Pattern := FilePattern
  parse := FilePattern.parse
  selects := FilePattern.selects

end CrossRef
