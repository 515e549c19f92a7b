/-
  CrossRef.ReportText

  Reports for people to read.
-/
import CrossRef.StatsTable

namespace CrossRef

/-- A diagnostic on a line of its own. -/
def Diagnostic.line (d : Diagnostic) : String :=
  (match d.kind with
    | .cycle => "🔁 "
    | .ambiguous => "🤔 ") ++ d.detail ++ "\n"

/-- A link on a line of its own: the usage and what it refers to. -/
def Link.line (l : Link) : String :=
  s!"      🔗 {l.usage.identifier}:{l.usage.line}:{l.usage.column} → " ++
    l.declaration.shortDescription ++ "\n"

/-- The lines of the file at a place in the order, counted from one. -/
def FileReport.lines (place : Nat) (f : FileReport) : String :=
  let number := toString place
  String.ofList (List.replicate (4 - number.length) ' ') ++ number ++
    s!". {f.file} ({f.declarations.length} declarations, {f.links.length} links)\n" ++
    String.join (f.links.map Link.line)

/-- The order that was used, with the one asked for if that is another. -/
def FileOrdering.label (o : FileOrdering) : String :=
  if o.requested = o.applied then o.applied.text
  else s!"{o.applied.text} (requested {o.requested.text})"

namespace Report

/-- The files in their order, each with its links. -/
def fileLines (r : Report) : String :=
  String.join (r.files.zipIdx.map fun (f, i) => f.lines (i + 1))

/-- The diagnostics, one a line. -/
def diagnosticLines (r : Report) : String := String.join (r.diagnostics.map Diagnostic.line)

/-- The whole report but for the text of its diagnostics. -/
def text (r : Report) : String :=
  s!"🚀 Cross-reference report\n⚙️ Order: {r.ordering.label}\n\n━ Files ━\n" ++ r.fileLines ++
    (if r.diagnostics.isEmpty then "" else "\n━ Diagnostics ━\n") ++
    s!"\n📊 Statistics\n{r.stats.table.text}\n  Fingerprint {r.fingerprint}\n"

end Report

end CrossRef
