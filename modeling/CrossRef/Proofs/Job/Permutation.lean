/-
  CrossRef.Proofs.Job.Permutation

  The order in which sources are found does not show in a report. What is
  looked up in a corpus is looked up by identifier, and the order of the files
  is that of a graph with the same files and edges, so every part of a report
  is the same; only the mode that keeps the files as they came differs, and
  then in nothing but their sequence.
-/
import CrossRef.Proofs.Job.Corpus

namespace CrossRef

open CrossRef.Linking

/-- Two reports that differ at most in the sequence of their files. -/
structure Report.SameContent (r r' : Report) : Prop where
  requested : r.ordering.requested = r'.ordering.requested
  applied : r.ordering.applied = r'.ordering.applied
  files : r.files.Perm r'.files
  diagnostics : r.diagnostics = r'.diagnostics
  stats : r.stats = r'.stats

/-- A report presents files in this sequence. -/
structure Report.Follows (r : Report) (ids : List String) : Prop where
  ordering : r.ordering.files = ids
  files : r.files.map (·.file) = ids

namespace Job

section

variable {files files' : List AnalyzedFile} (hids : (files.map (·.file)).Nodup)
variable (hperm : files.Perm files')
include hids hperm

/-! ## Parts of a report -/

/-- What is reported of one file does not depend on where the others stand. -/
theorem fileReport?_eq_of_perm (links : LinkSet) :
    fileReport? files links = fileReport? files' links := by
  funext id
  rw [fileReport?, fileReport?, Keyed.find?_key_eq_of_perm hids hperm]

theorem edgeCount_graphOf_eq_of_perm (acrossFiles : Bool) :
    (graphOf files acrossFiles).edgeCount = (graphOf files' acrossFiles).edgeCount := by
  have wf := wellFormed_graphOf files acrossFiles
  have wf' := wellFormed_graphOf files' acrossFiles
  rw [wf.edgeCount_eq, wf'.edgeCount_eq, wf.edges_eq wf' (agree_graphOf hids hperm).hasEdge]

theorem stats_reportOn_eq_of_perm (options : JobOptions) :
    (reportOn files options).stats = (reportOn files' options).stats := by
  have hedges := edgeCount_graphOf_eq_of_perm hids hperm options.crossFile
  have hdeclarations :
      (files.flatMap fun f => f.analysis.declarations.toList).length =
        (files'.flatMap fun f => f.analysis.declarations.toList).length :=
    (hperm.flatMap_right _).length_eq
  have hlinks := ofFiles_eq_of_perm options.crossFile hids hperm
  -- the links are the same, and the graphs have the same edges
  unfold graphOf at hedges
  unfold reportOn
  simp only
  rw [hlinks] at hedges ⊢
  rw [hedges, hdeclarations, hperm.length_eq]

/-! ## Whole reports -/

/-- In every mode but the one that keeps the files as they came, the report is the same. -/
theorem reportOn_eq_of_perm {options : JobOptions} (hmode : options.order ≠ .none) :
    reportOn files options = reportOn files' options := by
  have horder : (graphOf files options.crossFile).order options.order =
      (graphOf files' options.crossFile).order options.order :=
    (agree_graphOf hids hperm).order_eq (wellFormed_graphOf _ _) (wellFormed_graphOf _ _) hmode
  have hstats := stats_reportOn_eq_of_perm hids hperm options
  have hlinks := ofFiles_eq_of_perm options.crossFile hids hperm
  -- what is left of the corpus is read by identifier
  unfold graphOf at horder
  unfold reportOn at hstats ⊢
  simp only at hstats ⊢
  rw [hlinks] at horder hstats ⊢
  rw [hstats, horder, fileReport?_eq_of_perm hids hperm]

omit hperm in
/-- The mode that keeps the files as they came presents them as they came. -/
theorem ordering_reportOn_none (acrossFiles : Bool) :
    (reportOn files ⟨acrossFiles, .none⟩).ordering = ⟨.none, .none, files.map (·.file)⟩ := by
  have horder : (graphOf files acrossFiles).order .none =
      (⟨.none, .none, (graphOf files acrossFiles).files.toList⟩, none) := rfl
  rw [ordering_reportOn, horder, graphOf, FileGraph.files_ofLinks hids]

omit hperm in
theorem follows_reportOn_none (acrossFiles : Bool) :
    (reportOn files ⟨acrossFiles, .none⟩).Follows (files.map (·.file)) where
  ordering := by rw [ordering_reportOn_none hids]
  files := by rw [map_file_files_reportOn hids, ordering_reportOn_none hids]

/-- In the mode that keeps the files as they came, only their sequence differs. -/
theorem sameContent_reportOn_none (acrossFiles : Bool) :
    (reportOn files ⟨acrossFiles, .none⟩).SameContent
      (reportOn files' ⟨acrossFiles, .none⟩) := by
  have hids' : (files'.map (·.file)).Nodup := (hperm.map _).nodup_iff.1 hids
  have hordering := ordering_reportOn_none hids acrossFiles
  have hordering' := ordering_reportOn_none hids' acrossFiles
  have hcycle : ∀ g : FileGraph, (g.order .none).2.toList = [] := fun _ => rfl
  constructor
  · rw [hordering, hordering']
  · rw [hordering, hordering']
  · rw [files_reportOn, files_reportOn, hordering, hordering',
      ofFiles_eq_of_perm acrossFiles hids hperm, fileReport?_eq_of_perm hids hperm]
    exact (hperm.map _).filterMap _
  · rw [diagnostics_reportOn, diagnostics_reportOn, hcycle, hcycle,
      ofFiles_eq_of_perm acrossFiles hids hperm]
  · exact stats_reportOn_eq_of_perm hids hperm _

end

/-! ## Jobs -/

/-- **Discovery order does not matter.** Sources with different identifiers,
    in whatever order they are found, give the same report in every mode that
    orders the files. The mode that does not gives reports with the same
    content, each in the sequence of its sources. -/
theorem run_eq_of_perm (registry : Registry) (acrossFiles : Bool)
    {sources sources' : List SourceFile} (hids : (sources.map (·.id)).Nodup)
    (hperm : sources.Perm sources') :
    (∀ mode : OrderMode, mode ≠ .none →
      run registry ⟨acrossFiles, mode⟩ sources = run registry ⟨acrossFiles, mode⟩ sources') ∧
    (run registry ⟨acrossFiles, .none⟩ sources).SameContent
      (run registry ⟨acrossFiles, .none⟩ sources') ∧
    (run registry ⟨acrossFiles, .none⟩ sources).Follows (sources.map (·.id)) ∧
    (run registry ⟨acrossFiles, .none⟩ sources').Follows (sources'.map (·.id)) := by
  have hids' : (sources'.map (·.id)).Nodup := (hperm.map _).nodup_iff.1 hids
  have hfiles : (analyzeAll registry sources).Perm (analyzeAll registry sources') := by
    rw [analyzeAll_eq hids, analyzeAll_eq hids']
    exact hperm.map _
  have hmap : ∀ ss : List SourceFile, (ss.map (·.id)).Nodup →
      (analyzeAll registry ss).map (·.file) = ss.map (·.id) := by
    intro ss hss
    rw [analyzeAll_eq hss, List.map_map]
    rfl
  have hnodup := nodup_analyzeAll registry sources
  refine ⟨fun mode hmode => reportOn_eq_of_perm hnodup hfiles hmode,
    sameContent_reportOn_none hnodup hfiles acrossFiles, ?_, ?_⟩
  · rw [← hmap sources hids]
    exact follows_reportOn_none hnodup acrossFiles
  · rw [← hmap sources' hids']
    exact follows_reportOn_none (nodup_analyzeAll registry sources') acrossFiles

/-- Two sources that use each other. -/
def mutualSources : List SourceFile :=
  [⟨"b.py", "def ping():\n    pong()\n"⟩, ⟨"a.py", "def pong():\n    ping()\n"⟩]

theorem run_eq_of_perm_mutualSources :
    (mutualSources.map (·.id)).Nodup ∧ mutualSources.Perm mutualSources.reverse ∧
      run .standard ⟨true, .dependency⟩ mutualSources =
        run .standard ⟨true, .dependency⟩ mutualSources.reverse ∧
      (run .standard ⟨true, .none⟩ mutualSources).SameContent
        (run .standard ⟨true, .none⟩ mutualSources.reverse) ∧
      (run .standard ⟨true, .none⟩ mutualSources).Follows ["b.py", "a.py"] ∧
      (run .standard ⟨true, .none⟩ mutualSources.reverse).Follows ["a.py", "b.py"] := by
  have hids : (mutualSources.map (·.id)).Nodup := by decide
  have hperm : mutualSources.Perm mutualSources.reverse := (List.reverse_perm _).symm
  have hsame := run_eq_of_perm .standard true hids hperm
  exact ⟨hids, hperm, hsame.1 .dependency (by decide), hsame.2⟩

end Job

end CrossRef
