/-
  CrossRef.Syntax.SourceMap

  From points to positions. A point names a row and a number of bytes in it;
  a report counts lines from one and columns in characters.
-/
import CrossRef.Position
import CrossRef.Syntax.Node

namespace CrossRef.Syntax

/-! ## Characters and bytes -/

/-- The text after the first `n` bytes; `none` when it ends sooner or byte `n`
    lies inside a character. -/
def dropBytes : List Char → Nat → Option (List Char)
  | cs, 0 => some cs
  | [], _ + 1 => none
  | c :: cs, n + 1 => if c.utf8Size ≤ n + 1 then dropBytes cs (n + 1 - c.utf8Size) else none

/-- The first `n` bytes of the text as characters, under the same conditions. -/
def takeBytes : List Char → Nat → Option (List Char)
  | _, 0 => some []
  | [], _ + 1 => none
  | c :: cs, n + 1 =>
    if c.utf8Size ≤ n + 1 then (takeBytes cs (n + 1 - c.utf8Size)).map (c :: ·) else none

/-- The rest of the text at each start of a row: at the beginning and behind
    every line feed. -/
def rowStarts (cs : List Char) : List (List Char) :=
  cs :: rowStartsBehind cs
where
  /-- The rests behind the line feeds of a text. -/
  rowStartsBehind : List Char → List (List Char)
    | [] => []
    | c :: cs => if c = '\n' then cs :: rowStartsBehind cs else rowStartsBehind cs

/-! ## The map -/

/-- A text prepared for looking up places in it. -/
structure SourceMap where
  chars : List Char
  /-- The rest of the text at the start of each row. -/
  rows : Array (List Char)

namespace SourceMap

/-- The map of a text. -/
def ofText (text : String) : SourceMap :=
  let cs := text.toList
  ⟨cs, (rowStarts cs).toArray⟩

/-- The position of a point. The column is the number of characters before it
    in its row; a point that is no character boundary of the text keeps its
    column as it is. -/
def position (m : SourceMap) (p : Point) : Position :=
  let counted := do
    let row ← m.rows[p.row]?
    let before ← takeBytes row p.column
    pure before.length
  ⟨p.row + 1, counted.getD p.column⟩

/-- Where a node begins. -/
def start (m : SourceMap) (n : Node) : Position := m.position n.span.start

/-- Where the last token under a node ends. -/
def stop (m : SourceMap) (n : Node) : Position := m.position n.lastLeaf.span.stop

/-- The text a node covers, empty when its bytes cut through a character. -/
def text (m : SourceMap) (n : Node) : String :=
  let covered := do
    let rest ← dropBytes m.chars n.span.startByte
    takeBytes rest (n.span.stopByte - n.span.startByte)
  String.ofList (covered.getD [])

end SourceMap

end CrossRef.Syntax
