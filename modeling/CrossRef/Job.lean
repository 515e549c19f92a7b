/-
  CrossRef.Job

  A whole job: sources in, report out. Every file is analyzed by itself, the
  usages of all are linked, and the files are ordered by the links between
  them. Of several sources with one identifier the first counts.
-/
import CrossRef.Digest.Blake3
import CrossRef.Json.Record
import CrossRef.Linking.LinkSet
import CrossRef.ReportJson

namespace CrossRef

open CrossRef.Linking

/-- A file's identifier with its text. -/
structure SourceFile where
  id : String
  text : String
deriving DecidableEq, Repr, Inhabited

/-- What a job is asked for. -/
structure JobOptions where
  crossFile : Bool
  order : OrderMode
deriving DecidableEq, Repr, Inhabited

namespace Job

/-- The digest of a report's order, files and diagnostics. -/
def fingerprint (json : Json.Codec) (digest : List UInt8 → String) (ordering : FileOrdering)
    (files : List FileReport) (diagnostics : List Diagnostic) : String :=
  digest (Report.contentBytes json ordering files diagnostics)

/-- The analysis of every source, the first of each identifier. -/
def analyzeAll (registry : Registry) (sources : List SourceFile) : List AnalyzedFile :=
  (Keyed.firsts (·.id) sources).map fun s => ⟨s.id, registry.analyze s.id s.text⟩

/-- What is reported of the file with this identifier. -/
def fileReport? (files : List AnalyzedFile) (links : LinkSet) (id : String) :
    Option FileReport :=
  (files.find? (·.file == id)).map fun f =>
    ⟨f.file, f.analysis.declarations.toList, links.linksOf f.file⟩

/-- The report on analyzed files with pairwise different identifiers. -/
def reportOn (files : List AnalyzedFile) (options : JobOptions) : Report :=
  let links := LinkSet.ofFiles files options.crossFile
  let graph := FileGraph.ofLinks (files.map (·.file)) links.allLinks
  let (ordering, cycle) := graph.order options.order
  let diagnostics := links.diagnostics ++ cycle.toList
  let reports := ordering.files.filterMap (fileReport? files links)
  let outcomes := links.stats
  let stats : ReportStats :=
    ⟨files.length, (files.flatMap fun f => f.analysis.declarations.toList).length, outcomes.total,
      outcomes.resolved, outcomes.crossFile, outcomes.ambiguous, outcomes.unresolved,
      graph.edgeCount⟩
  ⟨ordering, reports, diagnostics, stats,
    fingerprint .standard Digest.Blake3.hex ordering reports diagnostics⟩

/-- Runs a job over sources in the order in which they were found. -/
def run (registry : Registry) (options : JobOptions) (sources : List SourceFile) : Report :=
  reportOn (analyzeAll registry sources) options

end Job

end CrossRef
