/-
  CrossRef.Proofs.Job.Dependencies

  What the order of a report is worth, judged by the links of the same report.
  Either every file comes behind the files it has links to, or no order can do
  that, and then the report falls back to the order of the identifiers and
  shows files that depend on each other.
-/
import CrossRef.Proofs.Job.Corpus

namespace CrossRef

open CrossRef.Linking

namespace Report

/-- Some file depends on itself, through others. -/
def Cyclic (r : Report) : Prop := ∃ f, Relation.TransGen r.DependsOn f f

/-- Every file comes behind the files that it has links to. -/
structure DependenciesFirst (r : Report) : Prop where
  no_cycle : ∀ d ∈ r.diagnostics, d.kind ≠ .cycle
  applied : r.ordering.applied = .dependency
  nodup : r.ordering.files.Nodup
  precedes : ∀ l ∈ r.links, l.usage.file ≠ l.declaration.file →
    FileGraph.Precedes r.ordering.files l.declaration.file l.usage.file

/-- Files depend on each other. Those with the given identifiers are in the
    order of the identifiers, each once, and the last diagnostic, the only one
    of its kind, shows a walk along links that ends where it begins. -/
structure FallsBack (r : Report) (ids : List String) : Prop where
  cyclic : r.Cyclic
  applied : r.ordering.applied = .lexicographic
  ascending : r.ordering.files.Pairwise (· < ·)
  complete : ∀ id, id ∈ r.ordering.files ↔ id ∈ ids
  cycle : ∃ others walk, r.diagnostics = others ++ [.dependencyCycle walk] ∧
    (∀ d ∈ others, d.kind ≠ .cycle) ∧
    3 ≤ walk.length ∧ walk.head? = walk.getLast? ∧ walk.IsChain r.DependsOn

/-- A report that falls back shows a cycle, and one with dependencies first does not. -/
theorem FallsBack.not_dependenciesFirst {r : Report} {ids : List String}
    (h : r.FallsBack ids) : ¬ r.DependenciesFirst := by
  intro hfirst
  obtain ⟨others, walk, hdiagnostics, -⟩ := h.cycle
  have hlast : Diagnostic.dependencyCycle walk ∈ r.diagnostics := by
    rw [hdiagnostics]
    exact List.mem_append_right _ (List.mem_singleton_self _)
  exact hfirst.no_cycle _ hlast rfl

theorem FallsBack.congr {r : Report} {ids ids' : List String} (h : r.FallsBack ids)
    (hmem : ∀ id, id ∈ ids ↔ id ∈ ids') : r.FallsBack ids' :=
  { h with complete := fun id => (h.complete id).trans (hmem id) }

end Report

/-- Linking reports ambiguous names and nothing else. -/
theorem Linking.kind_of_mem_diagnostics {s : LinkSet} {d : Diagnostic} (h : d ∈ s.diagnostics) :
    d.kind = .ambiguous := by
  obtain ⟨f, -, hd⟩ := List.mem_flatMap.1 h
  obtain ⟨a, -, rfl⟩ := List.mem_map.1 hd
  rfl

namespace Job

section

variable {files : List AnalyzedFile} (hids : (files.map (·.file)).Nodup)
variable (htables : ∀ f ∈ files, f.analysis.LastWins)
variable (howned : ∀ f ∈ files, f.analysis.OwnedBy f.file)
include hids htables howned

/-! ## The order of a report -/

theorem cyclic_reportOn (options : JobOptions) :
    (reportOn files options).Cyclic ↔ (graphOf files options.crossFile).Cyclic := by
  rw [Report.Cyclic, FileGraph.Cyclic, dependsOn_reportOn hids htables howned]

/-- If no file depends on itself, the order is the emission. -/
theorem dependenciesFirst_reportOn (acrossFiles : Bool)
    (hacyclic : ¬ (reportOn files ⟨acrossFiles, .dependency⟩).Cyclic) :
    (reportOn files ⟨acrossFiles, .dependency⟩).DependenciesFirst := by
  have wf := wellFormed_graphOf files acrossFiles
  have huse : OrderMode.usesGraph .dependency = true := rfl
  have hordering := ordering_reportOn files ⟨acrossFiles, .dependency⟩
  have hdiagnostics := diagnostics_reportOn files ⟨acrossFiles, .dependency⟩
  rw [cyclic_reportOn hids htables howned] at hacyclic
  rcases FileGraph.order_cases wf huse with ⟨-, hlen, horder⟩ | ⟨walk, hcyclic, -⟩
  · rw [horder] at hordering hdiagnostics
    constructor
    -- linking reports no cycle, and the order adds no diagnostic
    · intro d hd
      rw [hdiagnostics, Option.toList_none, List.append_nil] at hd
      rw [kind_of_mem_diagnostics hd]
      decide
    · rw [hordering]
    · exact (files_ordering_reportOn hids _).nodup_iff.2 hids
    -- a link between two files is an edge of the graph
    · intro l hl hne
      have hdepends : (graphOf files acrossFiles).DependsOn l.usage.file l.declaration.file := by
        rw [← dependsOn_reportOn hids htables howned ⟨acrossFiles, .dependency⟩]
        exact ⟨hne, l, hl, rfl, rfl⟩
      rw [hordering]
      exact (FileGraph.isTopological_emittedFiles wf hlen).precedes _ _ hdepends
  · exact absurd hcyclic hacyclic

/-- If some file depends on itself, the files are sorted, and the walk that
    stopped the emission is shown. -/
theorem fallsBack_reportOn (acrossFiles : Bool)
    (hcyclic : (reportOn files ⟨acrossFiles, .dependency⟩).Cyclic) :
    (reportOn files ⟨acrossFiles, .dependency⟩).FallsBack (files.map (·.file)) := by
  have wf := wellFormed_graphOf files acrossFiles
  have huse : OrderMode.usesGraph .dependency = true := rfl
  have hordering := ordering_reportOn files ⟨acrossFiles, .dependency⟩
  have hdiagnostics := diagnostics_reportOn files ⟨acrossFiles, .dependency⟩
  have hgraph := (cyclic_reportOn hids htables howned _).1 hcyclic
  rcases FileGraph.order_cases wf huse with ⟨hacyclic, -⟩ | ⟨walk, -, hwalk, -, horder⟩
  · exact absurd hgraph hacyclic
  · rw [horder] at hordering hdiagnostics
    constructor
    · exact hcyclic
    · rw [hordering]
    · rw [hordering]
      exact (FileGraph.sortedFiles_spec wf).2
    · exact fun id => (files_ordering_reportOn hids _).mem_iff
    · refine ⟨_, _, hdiagnostics, fun d hd => ?_, ?_, ?_, ?_⟩
      · rw [kind_of_mem_diagnostics hd]
        decide
      · rw [List.length_map]
        exact hwalk.length
      · rw [List.head?_map, List.getLast?_map, hwalk.closed]
      · rw [dependsOn_reportOn hids htables howned]
        exact hwalk.dependsOn wf

end

/-- **Order or cycle.** In the order a report has for dependencies, every file
    comes behind the files that it has links to, or else files of the report
    depend on each other, and it falls back and shows them. It is never both,
    and it falls back whenever files depend on each other. -/
theorem run_dependenciesFirst_xor_fallsBack (registry : Registry) (acrossFiles : Bool)
    (sources : List SourceFile) :
    let r := run registry ⟨acrossFiles, .dependency⟩ sources
    Xor r.DependenciesFirst (r.FallsBack (sources.map (·.id))) ∧
      (r.Cyclic → r.FallsBack (sources.map (·.id))) := by
  intro r
  have hids := nodup_analyzeAll registry sources
  have htables : ∀ f ∈ analyzeAll registry sources, f.analysis.LastWins :=
    fun f hf => lastWins_of_mem_analyzeAll hf
  have howned : ∀ f ∈ analyzeAll registry sources, f.analysis.OwnedBy f.file :=
    fun f hf => ownedBy_of_mem_analyzeAll hf
  have hback : r.Cyclic → r.FallsBack (sources.map (·.id)) := fun hcyclic =>
    (fallsBack_reportOn hids htables howned acrossFiles hcyclic).congr
      fun _ => mem_map_file_analyzeAll
  refine ⟨?_, hback⟩
  by_cases hcyclic : r.Cyclic
  · exact .inr ⟨hback hcyclic, (hback hcyclic).not_dependenciesFirst⟩
  · have hfirst := dependenciesFirst_reportOn hids htables howned acrossFiles hcyclic
    exact .inl ⟨hfirst, fun h => h.not_dependenciesFirst hfirst⟩

end Job

end CrossRef
