/-
  CrossRef.StatsTable

  Tables of two columns in a frame with round corners, and the counts of a
  report as one.
-/
import CrossRef.Report

namespace CrossRef

/-! ## Tables -/

/-- A table with two columns: headings and rows. -/
structure TextTable where
  headings : String × String
  rows : List (String × String)
deriving DecidableEq, Repr

namespace TextTable

/-- The length of the longest text. -/
def widest (texts : List String) : Nat := (texts.map String.length).foldl max 0

/-- The widths of the columns, without the blanks at their sides. -/
def widths (t : TextTable) : Nat × Nat :=
  let lines := t.headings :: t.rows
  (widest (lines.map (·.1)), widest (lines.map (·.2)))

/-- A number of equal characters. -/
def line (c : Char) (n : Nat) : String := String.ofList (List.replicate n c)

/-- A text on the left of a field. -/
def padded (width : Nat) (text : String) : String := text ++ line ' ' (width - text.length)

/-- A line of the frame: its left end, the crossing with the middle line, its right end. -/
def rule (w : Nat × Nat) (left middle right : String) : String :=
  left ++ line '─' (w.1 + 2) ++ middle ++ line '─' (w.2 + 2) ++ right

/-- A line of cells. -/
def cells (w : Nat × Nat) (row : String × String) : String :=
  "│ " ++ padded w.1 row.1 ++ " │ " ++ padded w.2 row.2 ++ " │"

/-- The lines of a table. -/
def lines (t : TextTable) : List String :=
  let w := t.widths
  [rule w "╭" "┬" "╮", cells w t.headings, rule w "├" "┼" "┤"]
    ++ t.rows.map (cells w) ++ [rule w "╰" "┴" "╯"]

/-- The text of a table; no line break follows its last line. -/
def text (t : TextTable) : String := "\n".intercalate t.lines

end TextTable

/-! ## Counts -/

/-- The counts with their names. -/
def ReportStats.table (s : ReportStats) : TextTable :=
  ⟨("Metric", "Count"),
    [("Files", toString s.files), ("Declarations", toString s.declarations),
      ("Usages", toString s.usages), ("Links", toString s.links),
      ("Cross-file links", toString s.crossFileLinks), ("Ambiguous", toString s.ambiguous),
      ("Unresolved", toString s.unresolved), ("Graph edges", toString s.edges)]⟩

end CrossRef
