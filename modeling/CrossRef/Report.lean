/-
  CrossRef.Report

  What a job answers: the order of the files, each file with its declarations
  and links, the diagnostics, and the counts.
-/
import CrossRef.Ordering

namespace CrossRef

/-- What a job found in one file: declarations in source order, links in the
    order of their usages. -/
structure FileReport where
  file : String
  declarations : List Declaration
  links : List Link
deriving DecidableEq, Repr, Inhabited

structure ReportStats where
  files : Nat
  declarations : Nat
  usages : Nat
  links : Nat
  crossFileLinks : Nat
  ambiguous : Nat
  unresolved : Nat
  edges : Nat
deriving DecidableEq, Repr, Inhabited

/-- The answer of a job. The fingerprint is a digest of the order, the files
    and the diagnostics. -/
structure Report where
  ordering : FileOrdering
  files : List FileReport
  diagnostics : List Diagnostic
  stats : ReportStats
  fingerprint : String
deriving DecidableEq, Repr, Inhabited

namespace Report

/-- Every link of the report. -/
def links (r : Report) : List Link := r.files.flatMap (·.links)

def hasCycle (r : Report) : Bool := r.diagnostics.any (·.kind == .cycle)

end Report

end CrossRef
