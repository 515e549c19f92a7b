/-
  CrossRef.Proofs.Job.Accounts

  The counts of a report against what the report lists (`Balanced`). Usages
  are counted one by one as they are resolved, while links, edges and files
  are collected by identifier. The two meet in the outcomes: a report lists
  the links that these make (`perm_links_reportOn`), and its edges are the
  pairs of files between which it lists a link (`stats_edges_reportOn`).
-/
import CrossRef.Proofs.Job.Corpus
import CrossRef.Proofs.Linking.Outcomes

namespace CrossRef

open CrossRef.Linking

/-! ## Reports -/

/-- The two files of every link that leaves its file. -/
def Report.filePairs (r : Report) : List (String × String) :=
  (r.links.filter (·.isCrossFile)).map fun l => (l.usage.file, l.declaration.file)

/-- The counts of a report are those of what it lists, and every link leads
    from the file it is listed under to a declaration that is listed. -/
structure Report.Balanced (r : Report) : Prop where
  usages : r.stats.usages = r.stats.links + r.stats.ambiguous + r.stats.unresolved
  links : r.stats.links = r.links.length
  crossFileLinks : r.stats.crossFileLinks = r.links.countP (·.isCrossFile)
  declarations : r.stats.declarations = (r.files.flatMap (·.declarations)).length
  files : r.stats.files = r.files.length
  edges : r.stats.edges = r.filePairs.toFinset.card
  usage_file : ∀ f ∈ r.files, ∀ l ∈ f.links, l.usage.file = f.file
  declaration_listed : ∀ l ∈ r.links, ∃ f ∈ r.files,
    f.file = l.declaration.file ∧ l.declaration ∈ f.declarations

namespace Job

section

variable {files : List AnalyzedFile} (hids : (files.map (·.file)).Nodup)
include hids

/-- A report lists the links that the outcomes of all usages make. -/
theorem perm_links_reportOn (options : JobOptions) :
    (reportOn files options).links.Perm
      ((outcomes files options.crossFile).filterMap link?) := by
  have hreports := (perm_files_reportOn hids options).flatMap_right (·.links)
  have hlinks : (files.map (reportOf (LinkSet.ofFiles files options.crossFile))).flatMap (·.links) =
      (outcomes files options.crossFile).filterMap link? := by
    rw [outcomes, List.filterMap_flatMap, List.flatMap_map]
    refine List.flatMap_congr fun f hf => ?_
    rw [List.filterMap_map]
    exact linksOf_ofFiles hids hf
  rwa [hlinks] at hreports

theorem stats_links_reportOn (options : JobOptions) :
    (reportOn files options).stats.links = (reportOn files options).links.length := by
  have hstats := stats_ofFiles files options.crossFile
  have hcount := length_filterMap_link? (outcomes files options.crossFile)
  rw [map_snd_outcomes, ← hstats] at hcount
  rw [(perm_links_reportOn hids options).length_eq, hcount]
  rfl

theorem stats_declarations_reportOn (options : JobOptions) :
    (reportOn files options).stats.declarations =
      ((reportOn files options).files.flatMap (·.declarations)).length := by
  rw [((perm_files_reportOn hids options).flatMap_right _).length_eq, List.flatMap_map]
  rfl

variable (htables : ∀ f ∈ files, f.analysis.LastWins)
variable (howned : ∀ f ∈ files, f.analysis.OwnedBy f.file)
include htables howned

theorem stats_crossFileLinks_reportOn (options : JobOptions) :
    (reportOn files options).stats.crossFileLinks =
      (reportOn files options).links.countP (·.isCrossFile) := by
  have hstats := stats_ofFiles files options.crossFile
  have htells : ∀ o ∈ outcomes files options.crossFile, Tells o := fun o ho =>
    tells_of_mem_outcomes hids htables howned ho
  have hcount := countP_filterMap_link? htells
  rw [map_snd_outcomes, ← hstats] at hcount
  rw [(perm_links_reportOn hids options).countP_eq, hcount]
  rfl

/-- There is one edge for every two files with a link from the one to the other. -/
theorem stats_edges_reportOn (options : JobOptions) :
    (reportOn files options).stats.edges =
      (reportOn files options).filePairs.toFinset.card := by
  have wf := wellFormed_graphOf files options.crossFile
  have hcount : (reportOn files options).stats.edges =
      (graphOf files options.crossFile).edges.length := wf.edgeCount_eq
  rw [hcount, ← List.toFinset_card_of_nodup wf.nodup_edges]
  congr 1
  ext ⟨a, b⟩
  have hdepends := congrFun₂ (dependsOn_reportOn hids htables howned options) a b
  rw [FileGraph.DependsOn, eq_iff_iff] at hdepends
  rw [List.mem_toFinset, List.mem_toFinset, wf.mem_edges, ← hdepends, Report.DependsOn,
    Report.filePairs, List.mem_map]
  constructor
  · rintro ⟨hne, l, hl, rfl, rfl⟩
    exact ⟨l, List.mem_filter.2 ⟨hl, bne_iff_ne.2 hne⟩, rfl⟩
  · rintro ⟨l, hl, heq⟩
    obtain ⟨hl, hne⟩ := List.mem_filter.1 hl
    obtain ⟨rfl, rfl⟩ := Prod.mk.inj heq
    exact ⟨bne_iff_ne.1 hne, l, hl, rfl, rfl⟩

theorem balanced_reportOn (options : JobOptions) : (reportOn files options).Balanced where
  usages := by
    have hstats := stats_ofFiles files options.crossFile
    have htotal := LinkStats.total_counts (resolutions files options.crossFile)
    rw [← hstats] at htotal
    exact htotal
  links := stats_links_reportOn hids options
  crossFileLinks := stats_crossFileLinks_reportOn hids htables howned options
  declarations := stats_declarations_reportOn hids options
  files := by
    rw [(perm_files_reportOn hids options).length_eq, List.length_map]
    rfl
  edges := stats_edges_reportOn hids htables howned options
  usage_file := by
    intro r hr l hl
    obtain ⟨f, hf, rfl⟩ := List.mem_map.1 ((perm_files_reportOn hids options).mem_iff.1 hr)
    exact (link_files hids htables howned hf hl).1
  declaration_listed := by
    intro l hl
    obtain ⟨r, hr, hl⟩ := List.mem_flatMap.1 hl
    obtain ⟨f, hf, rfl⟩ := List.mem_map.1 ((perm_files_reportOn hids options).mem_iff.1 hr)
    obtain ⟨g, hg, hdeclared⟩ := exists_declaration_of_mem_linksOf hids htables hf hl
    exact ⟨_, (perm_files_reportOn hids options).mem_iff.2 (List.mem_map_of_mem hg),
      ((howned g hg).declaration _ hdeclared).symm, Array.mem_toList_iff.2 hdeclared⟩

end

/-- **The accounts balance.** Whatever the sources, the counts of a report are
    those of the files, declarations, links and edges that it lists, and no
    usage is left out of them. -/
theorem run_balanced (registry : Registry) (options : JobOptions) (sources : List SourceFile) :
    (run registry options sources).Balanced :=
  balanced_reportOn (nodup_analyzeAll registry sources)
    (fun _ hf => lastWins_of_mem_analyzeAll hf) (fun _ hf => ownedBy_of_mem_analyzeAll hf) options

end Job

end CrossRef
