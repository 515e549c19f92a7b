/-
  CrossRef.Proofs.Job.Alone

  A job that leaves other files out of account, against the same job that does
  not. What a usage means without other files is what is left of its meaning
  with them, and everything else in the report follows from that: a link that
  leaves its file is gone, nothing is ambiguous, and no file depends on
  another, so the order is that of the identifiers.
-/
import CrossRef.Proofs.Job.Accounts
import CrossRef.Proofs.Job.Dependencies

namespace CrossRef

open CrossRef.Linking

/-! ## Reports -/

/-- The report on a file without the links that leave it. -/
def FileReport.alone (f : FileReport) : FileReport :=
  { f with links := f.links.filter fun l => !l.isCrossFile }

/-- The first report says what the second says of each file by itself. A usage
    that only other files could settle is unresolved, and nothing is reported
    that takes two files. -/
structure Report.Alone (off on : Report) : Prop where
  files : off.files.Perm (on.files.map FileReport.alone)
  usages : off.stats.usages = on.stats.usages
  declarations : off.stats.declarations = on.stats.declarations
  unresolved : off.stats.unresolved =
    on.stats.unresolved + on.stats.ambiguous + on.stats.crossFileLinks
  ambiguous : off.stats.ambiguous = 0
  crossFileLinks : off.stats.crossFileLinks = 0
  edges : off.stats.edges = 0
  diagnostics : off.diagnostics = []

namespace Job

section

variable {files : List AnalyzedFile}

/-! ## Outcomes -/

theorem outcomes_alone (files : List AnalyzedFile) :
    outcomes files false = (outcomes files true).map fun o => (o.1, o.2.alone) := by
  rw [outcomes, outcomes, List.map_flatMap]
  refine List.flatMap_congr fun f _ => ?_
  rw [List.map_map]
  exact List.map_congr_left fun u _ => Prod.ext rfl (resolve_alone _ f u)

theorem stats_ofFiles_alone (files : List AnalyzedFile) :
    (LinkSet.ofFiles files false).stats = (LinkSet.ofFiles files true).stats.alone := by
  have halone : resolutions files false = (resolutions files true).map Resolution.alone := by
    rw [← map_snd_outcomes, ← map_snd_outcomes, outcomes_alone, List.map_map, List.map_map]
    rfl
  rw [stats_ofFiles, stats_ofFiles, halone, LinkStats.counts_alone]

theorem diagnostics_ofFiles_alone (files : List AnalyzedFile) :
    (LinkSet.ofFiles files false).diagnostics = [] := by
  refine List.eq_nil_iff_forall_not_mem.2 fun d hd => ?_
  obtain ⟨f, -, u, -, cs, hambiguous, -⟩ := mem_diagnostics_ofFiles.1 hd
  exact Bool.false_ne_true (resolve_eq_ambiguous hambiguous).1

variable (hids : (files.map (·.file)).Nodup)
variable (htables : ∀ f ∈ files, f.analysis.LastWins)
variable (howned : ∀ f ∈ files, f.analysis.OwnedBy f.file)
include hids htables howned

theorem linksOf_alone {f : AnalyzedFile} (hf : f ∈ files) :
    (LinkSet.ofFiles files false).linksOf f.file =
      ((LinkSet.ofFiles files true).linksOf f.file).filter fun l => !l.isCrossFile := by
  let os := f.analysis.usages.map fun u => (u, resolve (exports files) true f u)
  have htells : ∀ o ∈ os, Tells o := by
    intro o ho
    obtain ⟨u, hu, rfl⟩ := List.mem_map.1 ho
    exact tells_resolve hids htables howned hf hu
  have halone := filterMap_link?_alone htells
  rw [List.map_map, List.filterMap_map, List.filterMap_map] at halone
  rw [linksOf_ofFiles hids hf, linksOf_ofFiles hids hf]
  refine Eq.trans (List.filterMap_congr fun u _ => ?_) halone
  rw [resolve_alone]
  rfl

/-! ## Order -/

/-- No file depends on another. -/
theorem not_dependsOn_alone (a b : String) : ¬ (graphOf files false).DependsOn a b := by
  rw [← dependsOn_reportOn hids htables howned ⟨false, .none⟩]
  rintro ⟨hne, l, hl, rfl, rfl⟩
  have hzero : (reportOn files ⟨false, .none⟩).stats.crossFileLinks = 0 :=
    congrArg LinkStats.crossFile (stats_ofFiles_alone files)
  rw [stats_crossFileLinks_reportOn hids htables howned, List.countP_eq_zero] at hzero
  exact hzero l hl (bne_iff_ne.2 hne)

theorem not_cyclic_alone : ¬ (graphOf files false).Cyclic := by
  rintro ⟨f, hf⟩
  obtain ⟨g, hfg, -⟩ := Relation.TransGen.head'_iff.1 hf
  exact not_dependsOn_alone hids htables howned f g hfg

/-- Dependencies first is ascending where there are none. -/
theorem ordering_alone {order : OrderMode} (horder : order = .dependency ∨ order = .lexicographic) :
    (reportOn files ⟨false, order⟩).ordering.files = (graphOf files false).sortedFiles := by
  have wf := wellFormed_graphOf files false
  have huse : OrderMode.usesGraph .dependency = true := rfl
  rw [ordering_reportOn]
  rcases horder with rfl | rfl
  · rcases FileGraph.order_cases wf huse with ⟨-, hlen, horder⟩ | ⟨walk, hcyclic, -⟩
    · rw [horder]
      exact FileGraph.emittedFiles_eq_sortedFiles wf (not_dependsOn_alone hids htables howned) hlen
    · exact absurd hcyclic (not_cyclic_alone hids htables howned)
  · rfl

/-! ## The report -/

theorem alone_reportOn (order : OrderMode) :
    (reportOn files ⟨false, order⟩).Alone (reportOn files ⟨true, order⟩) where
  files := by
    have hon := (perm_files_reportOn hids ⟨true, order⟩).map FileReport.alone
    refine (perm_files_reportOn hids ⟨false, order⟩).trans (List.Perm.trans ?_ hon.symm)
    rw [List.map_map]
    refine .of_eq (List.map_congr_left fun f hf => ?_)
    rw [Function.comp_apply, reportOf, linksOf_alone hids htables howned hf]
    rfl
  usages := by
    have hcount := congrArg LinkStats.total (stats_ofFiles_alone files)
    exact hcount
  declarations := rfl
  unresolved := by
    have hcount := congrArg LinkStats.unresolved (stats_ofFiles_alone files)
    exact hcount
  ambiguous := by
    have hcount := congrArg LinkStats.ambiguous (stats_ofFiles_alone files)
    exact hcount
  crossFileLinks := by
    have hcount := congrArg LinkStats.crossFile (stats_ofFiles_alone files)
    exact hcount
  edges := by
    have wf := wellFormed_graphOf files false
    have hcount : (reportOn files ⟨false, order⟩).stats.edges =
      (graphOf files false).edges.length := wf.edgeCount_eq
    rw [hcount, List.length_eq_zero_iff]
    refine List.eq_nil_iff_forall_not_mem.2 fun p hp => ?_
    exact not_dependsOn_alone hids htables howned p.1 p.2 (wf.mem_edges.1 hp)
  diagnostics := by
    have wf := wellFormed_graphOf files false
    rw [diagnostics_reportOn, diagnostics_ofFiles_alone,
      FileGraph.order_snd_of_acyclic wf (not_cyclic_alone hids htables howned)]
    rfl

end

/-- **Each file by itself.** Leaving other files out of account takes the links
    that leave their file out of a report, with all that comes of them, and
    nothing else. An order for dependencies is then that of the identifiers. -/
theorem run_alone (registry : Registry) (order : OrderMode) (sources : List SourceFile) :
    let on := run registry ⟨true, order⟩ sources
    let off := run registry ⟨false, order⟩ sources
    off.Alone on ∧
      (order = .dependency ∨ order = .lexicographic →
        off.ordering.files.Pairwise (· < ·) ∧
        ∀ id, id ∈ off.ordering.files ↔ id ∈ sources.map (·.id)) := by
  intro on off
  have hids := nodup_analyzeAll registry sources
  have htables : ∀ f ∈ analyzeAll registry sources, f.analysis.LastWins :=
    fun f hf => lastWins_of_mem_analyzeAll hf
  have howned : ∀ f ∈ analyzeAll registry sources, f.analysis.OwnedBy f.file :=
    fun f hf => ownedBy_of_mem_analyzeAll hf
  refine ⟨alone_reportOn hids htables howned order, fun horder => ⟨?_, fun id => ?_⟩⟩
  · show (reportOn _ _).ordering.files.Pairwise _
    rw [ordering_alone hids htables howned horder]
    exact (FileGraph.sortedFiles_spec (wellFormed_graphOf _ false)).2
  · exact (files_ordering_reportOn hids _).mem_iff.trans mem_map_file_analyzeAll

end Job

end CrossRef
