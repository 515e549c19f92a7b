/-
  CrossRef.Ignore.Glob

  The patterns of ignore files. They are matched against the bytes of a path:
  a question mark is one byte, a star any number of them, neither a slash;
  two stars between slashes are any number of directories; braces hold
  alternatives.
-/
import CrossRef.OsString
import CrossRef.Text.Rest

namespace CrossRef.Ignore

open CrossRef.Text OsString

/-- A part of a pattern. The three recursive ones are two stars at the start,
    at the end and between slashes, with the slashes next to them. -/
inductive Token where
  | literal (byte : UInt8)
  | any
  | star
  | recursiveStart
  | recursiveEnd
  | recursiveMiddle
  | oneOf (negated : Bool) (ranges : List (UInt8 × UInt8))
  | alternatives (branches : List (List Token))
deriving Repr, Inhabited

abbrev Glob := List Token

/-! ## Matching -/

mutual

/-- What can be left of a path behind one part of a pattern. -/
def Token.rests : Token → List UInt8 → List (List UInt8)
  | .literal b, bs =>
    match bs with
    | c :: cs => if c = b then [cs] else []
    | [] => []
  | .any, bs =>
    match bs with
    | c :: cs => if c = slash then [] else [cs]
    | [] => []
  | .star, bs => withinName slash bs
  | .recursiveStart, bs => bs :: behindSlashes slash bs
  | .recursiveEnd, bs =>
    match bs with
    | c :: cs => if c = slash then suffixes cs else []
    | [] => []
  | .recursiveMiddle, bs =>
    match bs with
    | c :: cs => if c = slash then cs :: behindSlashes slash cs else []
    | [] => []
  | .oneOf negated ranges, bs =>
    match bs with
    | c :: cs => if ranges.any (fun r => r.1 ≤ c && c ≤ r.2) != negated then [cs] else []
    | [] => []
  | .alternatives [], bs => [bs]
  | .alternatives (branch :: branches), bs => globRests branch bs ++ branchRests branches bs

/-- What can be left of a path behind a whole pattern. -/
def globRests : List Token → List UInt8 → List (List UInt8)
  | [], bs => [bs]
  | t :: ts, bs => distinctRests ((t.rests bs).flatMap fun rest => globRests ts rest)

/-- What can be left of a path behind one of several patterns. -/
def branchRests : List (List Token) → List UInt8 → List (List UInt8)
  | [], _ => []
  | branch :: branches, bs => globRests branch bs ++ branchRests branches bs

end

/-- Whether a pattern matches a whole path. Two stars alone match everything. -/
def Glob.matches (g : Glob) (path : List UInt8) : Bool :=
  match g with
  | [.recursiveStart] => true
  | g => (globRests g path).any (·.isEmpty)

/-! ## Reading patterns -/

/-- A pattern as far as it has been read: the parts of the current branch, the
    latest first, and for each open brace, innermost first, the branches before
    the current one and the parts in front of the brace. -/
structure Reading where
  parts : List Token
  groups : List (List (List Token) × List Token)

def Reading.push (r : Reading) (t : Token) : Reading := { r with parts := t :: r.parts }

/-- A character stands for the bytes that encode it. -/
def Reading.pushChar (r : Reading) (c : Char) : Reading :=
  (String.singleton c).toUTF8.toList.foldl (fun r b => r.push (.literal b)) r

/-- What a class in square brackets came to. -/
inductive ClassReading where
  | closed (negated : Bool) (ranges : List (Char × Char)) (rest : List Char)
  | unclosed
  | invalid

/-- The rest of a class, the last range first. `pending` says that a hyphen
    waits for the upper end of the last range. -/
def readRanges (negated : Bool) :
    List (Char × Char) → Bool → List Char → ClassReading
  | _, _, [] => .unclosed
  | ranges, pending, c :: cs =>
    if c = ']' ∧ !ranges.isEmpty then
      .closed negated ((if pending then [('-', '-')] else []) ++ ranges) cs
    else
      match ranges, pending with
      | (low, _) :: ranges, true =>
        if c < low then .invalid else readRanges negated ((low, c) :: ranges) false cs
      | ranges, _ =>
        if c = '-' ∧ !ranges.isEmpty then readRanges negated ranges true cs
        else readRanges negated ((c, c) :: ranges) false cs

/-- A class behind its opening bracket. -/
def readClass : List Char → ClassReading
  | '!' :: cs | '^' :: cs => readRanges true [] false cs
  | cs => readRanges false [] false cs

/-- The ranges of bytes that a range of characters is taken for: from the last
    byte of its lower end to the first of its upper end, with the others by
    themselves. -/
def byteRanges (r : Char × Char) : List (UInt8 × UInt8) :=
  let bytes (c : Char) := (String.singleton c).toUTF8.toList
  if r.1 = r.2 then (bytes r.1).map fun b => (b, b)
  else
    let low := bytes r.1
    let high := bytes r.2
    (low.dropLast.map fun b => (b, b)) ++ [(low.getLast?.getD 0, high.head?.getD 0)]
      ++ high.tail.map fun b => (b, b)

/-- A branch that matches nothing but the empty text and is left out. -/
def isVoid (ts : List Token) : Bool :=
  ts.all fun t =>
    match t with
    | .alternatives [] => true
    | _ => false

/-- Two stars at the start of a branch: whole directories if a slash or nothing follows. -/
def readLeadingStars (r : Reading) (cs : List Char) : Reading × List Char :=
  match cs with
  | [] => (r.push .recursiveStart, [])
  | '/' :: cs => (r.push .recursiveStart, cs)
  | cs => ((r.push .star).push .star, cs)

/-- Two stars behind a slash, which the reading holds as its latest part. -/
def readInnerStars (r : Reading) (cs : List Char) : Reading × List Char :=
  let replace (t : Token) : Reading :=
    match r.parts with
    | .recursiveStart :: _ | .recursiveEnd :: _ => r
    | _ :: parts => { r with parts := t :: parts }
    | [] => r
  match cs with
  | [] => (replace .recursiveEnd, [])
  | '/' :: cs => (replace .recursiveMiddle, cs)
  | c :: cs =>
    if !r.groups.isEmpty && (c == ',' || c == '}') then (replace .recursiveEnd, c :: cs)
    else ((r.push .star).push .star, c :: cs)

/-- Two stars. They stand for directories only between slashes. -/
def readStars (r : Reading) (before : Option Char) (cs : List Char) : Reading × List Char :=
  if r.parts.isEmpty then readLeadingStars r cs
  else if before = some '/' then readInnerStars r cs
  else ((r.push .star).push .star, cs)

/-- The last character that was read, given what is left of a text. -/
def lastRead (read left : List Char) : Option Char :=
  (read.take (read.length - left.length)).getLast?

/-- Reads a pattern from a point on, where `before` is the character in front.
    Braces that do not pair up, a range whose ends are in the wrong order and a
    backslash at the end make it unreadable; a bracket that is not closed stands
    for itself. -/
def readGlob : Nat → Reading → Option Char → List Char → Option Glob
  | 0, _, _, _ => none
  | _ + 1, r, _, [] => if r.groups.isEmpty then some r.parts.reverse else none
  | fuel + 1, r, before, c :: cs =>
    let next (r : Reading) (rest : List Char) : Option Glob :=
      readGlob fuel r (lastRead (c :: cs) rest) rest
    match c with
    | '?' => next (r.push .any) cs
    | '*' =>
      match cs with
      | '*' :: cs =>
        let (r, rest) := readStars r before cs
        next r rest
      | cs => next (r.push .star) cs
    | '[' =>
      match readClass cs with
      | .closed negated ranges rest =>
        next (r.push (.oneOf negated (ranges.flatMap byteRanges))) rest
      | .unclosed => next (r.pushChar '[') cs
      | .invalid => none
    | '\x7b' => next ⟨[], ([], r.parts) :: r.groups⟩ cs
    | '\x7d' =>
      match r.groups with
      | [] => none
      | (branches, outer) :: groups =>
        let branches := (branches ++ [r.parts.reverse]).filter (!isVoid ·)
        next ⟨.alternatives branches :: outer, groups⟩ cs
    | ',' =>
      match r.groups with
      | [] => next (r.pushChar ',') cs
      | (branches, outer) :: groups =>
        next ⟨[], (branches ++ [r.parts.reverse], outer) :: groups⟩ cs
    | '\\' =>
      match cs with
      | [] => none
      | d :: cs => next (r.pushChar d) cs
    | c => next (r.pushChar c) cs

/-- The pattern a text denotes, if it is one. -/
def Glob.parse? (cs : List Char) : Option Glob := readGlob (cs.length + 1) ⟨[], []⟩ none cs

end CrossRef.Ignore
