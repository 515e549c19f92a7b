/-
  CrossRef.Proofs.Job.Modes

  One job in every mode. What a report finds does not depend on the mode,
  which is read only where the files are put in order: the counts, the
  ambiguous names and the reports on the files are the same in all four.

  The two modes that look at dependencies share one emission. If it comes to
  the end, the one order is the other reversed; if it does not, both fall
  back to the order of the identifiers and show the same cycle
  (`FileGraph.order_dependencyRev`).
-/
import CrossRef.Proofs.Job.Dependencies
import CrossRef.Proofs.Job.Permutation

namespace CrossRef

open CrossRef.Linking

/-! ## Orders -/

namespace FileGraph

/-- The emission is read from its one end or from the other, or it fails for both modes. -/
theorem order_dependencyRev (g : FileGraph) :
    ((g.order .dependency).2 = none ∧ (g.order .dependencyRev).2 = none ∧
      (g.order .dependencyRev).1.files = (g.order .dependency).1.files.reverse) ∨
    ∃ d, (g.order .dependency).2 = some d ∧ (g.order .dependencyRev).2 = some d ∧
      (g.order .dependency).1.files = g.sortedFiles ∧
      (g.order .dependencyRev).1.files = g.sortedFiles := by
  unfold order
  cases g.topological with
  | ok order => exact .inl ⟨rfl, rfl, rfl⟩
  | error walk => exact .inr ⟨_, rfl, rfl, rfl, rfl⟩

/-- Orders report cycles and nothing else. -/
theorem kind_of_mem_order {g : FileGraph} {mode : OrderMode} {d : Diagnostic}
    (h : d ∈ (g.order mode).2) : d.kind = .cycle := by
  unfold order at h
  split at h
  · cases h
  · cases h
  all_goals
    split at h
    · cases h
    · cases h
      rfl

end FileGraph

/-! ## Reports -/

namespace Report

/-- The diagnostics of one kind, in the order in which they are reported. -/
def diagnosticsOf (r : Report) (kind : DiagnosticKind) : List Diagnostic :=
  r.diagnostics.filter (·.kind == kind)

/-- Two reports that found the same. They may present the files in different
    orders, and one may show a cycle that keeps it from the order asked for. -/
structure SameFindings (r r' : Report) : Prop where
  stats : r.stats = r'.stats
  ambiguous : r.diagnosticsOf .ambiguous = r'.diagnosticsOf .ambiguous
  files : r.files.Perm r'.files

/-- The order of the report holds each of the identifiers once, and the reports
    on the files follow it. -/
structure Presents (r : Report) (ids : List String) : Prop where
  follows : r.files.map (·.file) = r.ordering.files
  nodup : r.ordering.files.Nodup
  complete : ∀ id, id ∈ r.ordering.files ↔ id ∈ ids

/-- No cycle is shown, and the files stand the other way round than in `r'`. -/
structure Reverses (r r' : Report) : Prop where
  acyclic : r.hasCycle = false
  ordering : r.ordering.files = r'.ordering.files.reverse
  files : r.files = r'.files.reverse

/-- The same diagnostics are shown as in `r'`, and both present the files in
    the order of their identifiers, as `sorted` does. -/
structure SharesCycle (r r' sorted : Report) : Prop where
  diagnostics : r.diagnostics = r'.diagnostics
  ordering : r.ordering.files = r'.ordering.files
  files : r.files = r'.files
  ascending : r.ordering.files.Pairwise (· < ·)
  sorted : r.ordering.files = sorted.ordering.files

end Report

namespace Job

/-- A report shows a cycle if its order does. -/
theorem hasCycle_reportOn (files : List AnalyzedFile) (options : JobOptions) :
    (reportOn files options).hasCycle =
      ((graphOf files options.crossFile).order options.order).2.isSome := by
  have hlinks : (LinkSet.ofFiles files options.crossFile).diagnostics.any (·.kind == .cycle) =
      false := by
    rw [List.any_eq_false]
    intro d hd
    rw [kind_of_mem_diagnostics hd]
    decide
  rw [Report.hasCycle, diagnostics_reportOn, List.any_append, hlinks, Bool.false_or]
  cases hcycle : ((graphOf files options.crossFile).order options.order).2 with
  | none => rfl
  | some d =>
    have hkind : d.kind = .cycle := FileGraph.kind_of_mem_order hcycle
    rw [Option.toList_some, List.any_cons, List.any_nil, hkind]
    rfl

/-- What is ambiguous is reported before the files are put in order. -/
theorem diagnosticsOf_ambiguous_reportOn (files : List AnalyzedFile) (options : JobOptions) :
    (reportOn files options).diagnosticsOf .ambiguous =
      (LinkSet.ofFiles files options.crossFile).diagnostics := by
  have hlinks : (LinkSet.ofFiles files options.crossFile).diagnostics.filter
      (·.kind == .ambiguous) = (LinkSet.ofFiles files options.crossFile).diagnostics := by
    rw [List.filter_eq_self]
    intro d hd
    rw [kind_of_mem_diagnostics hd]
    decide
  have hcycle : ((graphOf files options.crossFile).order options.order).2.toList.filter
      (·.kind == .ambiguous) = [] := by
    rw [List.filter_eq_nil_iff]
    intro d hd
    rw [FileGraph.kind_of_mem_order (Option.mem_toList.1 hd)]
    decide
  rw [Report.diagnosticsOf, diagnostics_reportOn, List.filter_append, hlinks, hcycle,
    List.append_nil]

section

variable {files : List AnalyzedFile} (hids : (files.map (·.file)).Nodup) (acrossFiles : Bool)
include hids

/-! ## What is found -/

theorem sameFindings_reportOn (mode mode' : OrderMode) :
    (reportOn files ⟨acrossFiles, mode⟩).SameFindings
      (reportOn files ⟨acrossFiles, mode'⟩) where
  stats := rfl
  ambiguous := by
    rw [diagnosticsOf_ambiguous_reportOn, diagnosticsOf_ambiguous_reportOn]
  files := by
    have hperm := perm_files_reportOn hids ⟨acrossFiles, mode⟩
    have hperm' := perm_files_reportOn hids ⟨acrossFiles, mode'⟩
    exact hperm.trans hperm'.symm

/-! ## How it is presented -/

theorem presents_reportOn (options : JobOptions) :
    (reportOn files options).Presents (files.map (·.file)) where
  follows := map_file_files_reportOn hids options
  nodup := (files_ordering_reportOn hids options).nodup_iff.2 hids
  complete := fun _ => (files_ordering_reportOn hids options).mem_iff

omit hids in
/-- Without a cycle, dependencies come last where they came first. -/
theorem reverses_reportOn
    (hacyclic : (reportOn files ⟨acrossFiles, .dependency⟩).hasCycle = false) :
    (reportOn files ⟨acrossFiles, .dependencyRev⟩).Reverses
      (reportOn files ⟨acrossFiles, .dependency⟩) := by
  rw [hasCycle_reportOn] at hacyclic
  rcases FileGraph.order_dependencyRev (graphOf files acrossFiles) with
    ⟨-, hnone, horder⟩ | ⟨d, hsome, -⟩
  · have hordering : (reportOn files ⟨acrossFiles, .dependencyRev⟩).ordering.files =
        (reportOn files ⟨acrossFiles, .dependency⟩).ordering.files.reverse := horder
    constructor
    · rw [hasCycle_reportOn, hnone]
      rfl
    · exact hordering
    · rw [files_reportOn, files_reportOn, hordering, List.filterMap_reverse]
  · rw [hsome] at hacyclic
    cases hacyclic

omit hids in
/-- With a cycle, neither of the two modes is followed. -/
theorem sharesCycle_reportOn
    (hcyclic : (reportOn files ⟨acrossFiles, .dependency⟩).hasCycle = true) :
    (reportOn files ⟨acrossFiles, .dependencyRev⟩).SharesCycle
      (reportOn files ⟨acrossFiles, .dependency⟩)
      (reportOn files ⟨acrossFiles, .lexicographic⟩) := by
  have wf := wellFormed_graphOf files acrossFiles
  rw [hasCycle_reportOn] at hcyclic
  rcases FileGraph.order_dependencyRev (graphOf files acrossFiles) with
    ⟨hnone, -⟩ | ⟨d, hsome, hsome', horder, horder'⟩
  · rw [hnone] at hcyclic
    cases hcyclic
  · have hordering : (reportOn files ⟨acrossFiles, .dependency⟩).ordering.files =
        (graphOf files acrossFiles).sortedFiles := horder
    have hordering' : (reportOn files ⟨acrossFiles, .dependencyRev⟩).ordering.files =
        (graphOf files acrossFiles).sortedFiles := horder'
    constructor
    · rw [diagnostics_reportOn, diagnostics_reportOn, hsome, hsome']
    · rw [hordering, hordering']
    · rw [files_reportOn, files_reportOn, hordering, hordering']
    · rw [hordering']
      exact (FileGraph.sortedFiles_spec wf).2
    · exact hordering'

end

/-! ## Jobs -/

/-- **The mode changes presentation only.** In all modes a job finds the same,
    and every report presents each file once, in the sequence of its order.
    The dependencies come last where they came first, unless a cycle is shown:
    then both orders for dependencies show it and are that of the identifiers.
    The other modes show no cycle, and one keeps the sources as they came. -/
theorem run_modes (registry : Registry) (acrossFiles : Bool) (sources : List SourceFile) :
    let r (mode : OrderMode) := run registry ⟨acrossFiles, mode⟩ sources
    (∀ mode mode', (r mode).SameFindings (r mode')) ∧
    (∀ mode, (r mode).Presents (sources.map (·.id))) ∧
    ((r .dependency).hasCycle = false → (r .dependencyRev).Reverses (r .dependency)) ∧
    ((r .dependency).hasCycle = true →
      (r .dependencyRev).SharesCycle (r .dependency) (r .lexicographic)) ∧
    (r .lexicographic).hasCycle = false ∧
    (r .none).hasCycle = false ∧
    (r .none).ordering.files = (sources.map (·.id)).eraseDups := by
  intro r
  have hids := nodup_analyzeAll registry sources
  refine ⟨fun mode mode' => sameFindings_reportOn hids acrossFiles mode mode', fun mode => ?_,
    reverses_reportOn acrossFiles, sharesCycle_reportOn acrossFiles, ?_, ?_, ?_⟩
  · have hpresents := presents_reportOn hids ⟨acrossFiles, mode⟩
    exact { hpresents with
      complete := fun id => (hpresents.complete id).trans mem_map_file_analyzeAll }
  · exact hasCycle_reportOn _ _
  · exact hasCycle_reportOn _ _
  · have hordering := ordering_reportOn_none hids acrossFiles
    have hfirsts : (analyzeAll registry sources).map (·.file) =
        (Keyed.firsts (·.id) sources).map (·.id) := by
      rw [analyzeAll, List.map_map]
      rfl
    rw [← Keyed.map_firsts, ← hfirsts]
    exact congrArg FileOrdering.files hordering

end Job

end CrossRef
