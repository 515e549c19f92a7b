/-
  CrossRef.Proofs.Job.Corpus

  What a report is made of. Its files are those of the order, its links are
  the links of the corpus, each from a file of the report to a declaration of
  one, and so the files depend on each other in the report as they do in the
  graph that is ordered (`dependsOn_reportOn`).
-/
import CrossRef.Job
import CrossRef.Proofs.FileGraph.Edges
import CrossRef.Proofs.Linking.Resolution
import CrossRef.Proofs.Ordering.Agreement

namespace CrossRef

open CrossRef.Linking

/-! ## Reports -/

/-- `a` depends on another file `b`: the report has a link from a usage in `a`
    to a declaration in `b`. -/
def Report.DependsOn (r : Report) (a b : String) : Prop :=
  a ≠ b ∧ ∃ l ∈ r.links, l.usage.file = a ∧ l.declaration.file = b

namespace Job

variable {registry : Registry} {sources : List SourceFile} {files : List AnalyzedFile}
variable {acrossFiles : Bool}

/-! ## Analyzed files -/

theorem nodup_analyzeAll (registry : Registry) (sources : List SourceFile) :
    ((analyzeAll registry sources).map (·.file)).Nodup := by
  rw [analyzeAll, List.map_map]
  exact Keyed.nodup_keys_firsts (·.id) sources

/-- Where no identifier is repeated, every source is analyzed. -/
theorem analyzeAll_eq (h : (sources.map (·.id)).Nodup) :
    analyzeAll registry sources = sources.map fun s => ⟨s.id, registry.analyze s.id s.text⟩ := by
  rw [analyzeAll, Keyed.firsts_eq_self h]

/-- The analyzed files are those of the sources. -/
theorem mem_map_file_analyzeAll {id : String} :
    id ∈ (analyzeAll registry sources).map (·.file) ↔ id ∈ sources.map (·.id) := by
  rw [analyzeAll, List.map_map, List.mem_map, List.mem_map]
  constructor
  · rintro ⟨s, hs, rfl⟩
    exact ⟨s, Keyed.firsts_subset (·.id) sources hs, rfl⟩
  · rintro ⟨s, hs, rfl⟩
    exact Keyed.exists_mem_firsts (·.id) hs

theorem lastWins_of_mem_analyzeAll {f : AnalyzedFile} (h : f ∈ analyzeAll registry sources) :
    f.analysis.LastWins := by
  obtain ⟨s, -, rfl⟩ := List.mem_map.1 h
  exact registry.lastWins_analyze s.id s.text

theorem ownedBy_of_mem_analyzeAll {f : AnalyzedFile} (h : f ∈ analyzeAll registry sources) :
    f.analysis.OwnedBy f.file := by
  obtain ⟨s, -, rfl⟩ := List.mem_map.1 h
  exact registry.ownedBy_analyze s.id s.text

/-! ## Links -/

/-- The declaration that a usage names is one of a file of the corpus. -/
theorem exists_file_of_means {f : AnalyzedFile} {u : Usage} {r : Resolution} {d : Declaration}
    (h : Means files acrossFiles f u r) (hf : f ∈ files) (hd : r.declaration? = some d) :
    ∃ g ∈ files, d ∈ g.analysis.declarations := by
  cases h with
  | sameFile _ hi =>
    cases hd
    exact ⟨f, hf, Array.mem_of_getElem? hi⟩
  | crossFile _ _ hg _ _ hlast =>
    cases hd
    obtain ⟨i, -, hi⟩ := hlast
    exact ⟨_, hg, Array.mem_of_getElem? hi⟩
  | alone | ambiguous | unresolved => cases hd

/-- A link leads to a declaration of the corpus. -/
theorem exists_declaration_of_mem_linksOf (hids : (files.map (·.file)).Nodup)
    (htables : ∀ f ∈ files, f.analysis.LastWins) {f : AnalyzedFile} (hf : f ∈ files) {l : Link}
    (hl : l ∈ (LinkSet.ofFiles files acrossFiles).linksOf f.file) :
    ∃ g ∈ files, l.declaration ∈ g.analysis.declarations := by
  rw [linksOf_ofFiles hids hf, List.mem_filterMap] at hl
  obtain ⟨u, -, hl⟩ := hl
  obtain ⟨d, hd, rfl⟩ := Option.map_eq_some_iff.1 hl
  exact exists_file_of_means (means_resolve hids htables hf u) hf hd

/-- A link goes from a usage of its file to a declaration of a known file. -/
theorem link_files (hids : (files.map (·.file)).Nodup)
    (htables : ∀ f ∈ files, f.analysis.LastWins) (howned : ∀ f ∈ files, f.analysis.OwnedBy f.file)
    {f : AnalyzedFile} (hf : f ∈ files) {l : Link}
    (hl : l ∈ (LinkSet.ofFiles files acrossFiles).linksOf f.file) :
    l.usage.file = f.file ∧ ∃ g ∈ files, g.file = l.declaration.file := by
  obtain ⟨g, hg, hmem⟩ := exists_declaration_of_mem_linksOf hids htables hf hl
  rw [linksOf_ofFiles hids hf, List.mem_filterMap] at hl
  obtain ⟨u, hu, hl⟩ := hl
  obtain ⟨d, -, rfl⟩ := Option.map_eq_some_iff.1 hl
  exact ⟨(howned f hf).usage u hu, g, hg, ((howned g hg).declaration d hmem).symm⟩

/-! ## The graph of a report -/

/-- The graph whose order a report follows. -/
def graphOf (files : List AnalyzedFile) (acrossFiles : Bool) : FileGraph :=
  .ofLinks (files.map (·.file)) (LinkSet.ofFiles files acrossFiles).allLinks

theorem wellFormed_graphOf (files : List AnalyzedFile) (acrossFiles : Bool) :
    (graphOf files acrossFiles).WellFormed :=
  FileGraph.wellFormed_ofLinks _ _

theorem hasFile_graphOf {id : String} :
    (graphOf files acrossFiles).HasFile id ↔ id ∈ files.map (·.file) :=
  FileGraph.hasFile_ofLinks _ _ id

/-- The graph of the same files in any other order has the same files and edges. -/
theorem agree_graphOf {files' : List AnalyzedFile} (hids : (files.map (·.file)).Nodup)
    (hperm : files.Perm files') :
    (graphOf files acrossFiles).Agree (graphOf files' acrossFiles) where
  hasFile := by
    intro id
    rw [hasFile_graphOf, hasFile_graphOf]
    exact (hperm.map _).mem_iff
  hasEdge := by
    intro a b
    rw [Bool.eq_iff_iff, graphOf, graphOf, ofFiles_eq_of_perm acrossFiles hids hperm,
      FileGraph.hasEdge_ofLinks, FileGraph.hasEdge_ofLinks, (hperm.map _).mem_iff,
      (hperm.map _).mem_iff]

/-! ## The parts of a report -/

theorem ordering_reportOn (files : List AnalyzedFile) (options : JobOptions) :
    (reportOn files options).ordering =
      ((graphOf files options.crossFile).order options.order).1 := rfl

theorem files_reportOn (files : List AnalyzedFile) (options : JobOptions) :
    (reportOn files options).files = (reportOn files options).ordering.files.filterMap
      (fileReport? files (LinkSet.ofFiles files options.crossFile)) := rfl

/-- The ambiguous names come first, and a cycle, if there is one, last. -/
theorem diagnostics_reportOn (files : List AnalyzedFile) (options : JobOptions) :
    (reportOn files options).diagnostics =
      (LinkSet.ofFiles files options.crossFile).diagnostics ++
        ((graphOf files options.crossFile).order options.order).2.toList := rfl

/-! ## The files of a report -/

/-- An order names the files of the graph, each once. -/
theorem perm_files_order {g : FileGraph} (wf : g.WellFormed) (mode : OrderMode) :
    (g.order mode).1.files.Perm g.files.toList := by
  by_cases hmode : mode.usesGraph = true
  · rcases FileGraph.order_cases wf hmode with ⟨-, hlen, horder⟩ | ⟨walk, -, -, -, horder⟩
    · have hperm := (FileGraph.isTopological_emittedFiles wf hlen).perm
      rw [horder]
      show (if mode = .dependencyRev then g.emittedFiles.reverse else g.emittedFiles).Perm _
      split
      · exact (List.reverse_perm _).trans hperm
      · exact hperm
    · rw [horder]
      exact (FileGraph.sortedFiles_spec wf).1
  · cases mode with
    | dependency | dependencyRev => exact absurd rfl hmode
    | lexicographic => exact (FileGraph.sortedFiles_spec wf).1
    | none => exact .refl _

theorem fileReport?_eq (hids : (files.map (·.file)).Nodup) (links : LinkSet) {f : AnalyzedFile}
    (hf : f ∈ files) : fileReport? files links f.file =
      some ⟨f.file, f.analysis.declarations.toList, links.linksOf f.file⟩ := by
  rw [fileReport?, (Keyed.find?_key_eq_some hids).2 ⟨hf, rfl⟩]
  rfl

/-- Every file of an order has its report, with the identifiers in the order's sequence. -/
theorem filterMap_fileReport? (hids : (files.map (·.file)).Nodup) (links : LinkSet)
    {order : List String} (horder : ∀ id ∈ order, id ∈ files.map (·.file)) :
    (order.filterMap (fileReport? files links)).map (·.file) = order := by
  induction order with
  | nil => rfl
  | cons id order ih =>
    obtain ⟨f, hf, rfl⟩ := List.mem_map.1 (horder id (List.mem_cons_self ..))
    rw [List.filterMap_cons_some (fileReport?_eq hids links hf), List.map_cons,
      ih fun id hid => horder id (List.mem_cons_of_mem _ hid)]

theorem files_ordering_reportOn (hids : (files.map (·.file)).Nodup) (options : JobOptions) :
    (reportOn files options).ordering.files.Perm (files.map (·.file)) := by
  have hperm := perm_files_order (wellFormed_graphOf files options.crossFile) options.order
  rwa [graphOf, FileGraph.files_ofLinks hids] at hperm

/-- The reports of the files stand in the order of the files. -/
theorem map_file_files_reportOn (hids : (files.map (·.file)).Nodup) (options : JobOptions) :
    (reportOn files options).files.map (·.file) = (reportOn files options).ordering.files :=
  filterMap_fileReport? hids _ fun _ hid =>
    (files_ordering_reportOn hids options).mem_iff.1 hid

/-- What is reported of one analyzed file. -/
def reportOf (links : LinkSet) (f : AnalyzedFile) : FileReport :=
  ⟨f.file, f.analysis.declarations.toList, links.linksOf f.file⟩

/-- A report lists every file once, in whatever order. -/
theorem perm_files_reportOn (hids : (files.map (·.file)).Nodup) (options : JobOptions) :
    (reportOn files options).files.Perm
      (files.map (reportOf (LinkSet.ofFiles files options.crossFile))) := by
  have hperm := (files_ordering_reportOn hids options).filterMap
    (fileReport? files (LinkSet.ofFiles files options.crossFile))
  have hreports : (files.map (·.file)).filterMap
      (fileReport? files (LinkSet.ofFiles files options.crossFile)) =
        files.map (reportOf (LinkSet.ofFiles files options.crossFile)) := by
    rw [List.filterMap_map, ← List.filterMap_eq_map]
    exact List.filterMap_congr fun f hf => fileReport?_eq hids _ hf
  rwa [files_reportOn, ← hreports]

/-- The links of a report are those of the corpus, whatever the order. -/
theorem mem_links_reportOn (hids : (files.map (·.file)).Nodup) (options : JobOptions) {l : Link} :
    l ∈ (reportOn files options).links ↔
      l ∈ (LinkSet.ofFiles files options.crossFile).allLinks := by
  rw [mem_allLinks_ofFiles hids, Report.links, List.mem_flatMap]
  constructor
  · rintro ⟨r, hr, hl⟩
    obtain ⟨id, -, hr⟩ := List.mem_filterMap.1 hr
    obtain ⟨f, hf, rfl⟩ := Option.map_eq_some_iff.1 hr
    exact ⟨f, List.mem_of_find?_eq_some hf, hl⟩
  · rintro ⟨f, hf, hl⟩
    -- the order names every file, so it comes to `f`
    have hid := (files_ordering_reportOn hids options).mem_iff.2 (List.mem_map_of_mem hf)
    exact ⟨_, List.mem_filterMap.2 ⟨f.file, hid, fileReport?_eq hids _ hf⟩, hl⟩

/-- Files depend on each other in a report as they do in its graph. -/
theorem dependsOn_reportOn (hids : (files.map (·.file)).Nodup)
    (htables : ∀ f ∈ files, f.analysis.LastWins) (howned : ∀ f ∈ files, f.analysis.OwnedBy f.file)
    (options : JobOptions) :
    (reportOn files options).DependsOn = (graphOf files options.crossFile).DependsOn := by
  funext a b
  refine propext ?_
  rw [FileGraph.DependsOn, graphOf, FileGraph.hasEdge_ofLinks]
  constructor
  · rintro ⟨hne, l, hl, rfl, rfl⟩
    -- both ends of a link are known files, so the graph has an edge for it
    have hall := (mem_links_reportOn hids options).1 hl
    obtain ⟨f, hf, hlf⟩ := (mem_allLinks_ofFiles hids).1 hall
    obtain ⟨husage, g, hg, hdeclaration⟩ := link_files hids htables howned hf hlf
    exact ⟨husage ▸ List.mem_map_of_mem hf, hdeclaration ▸ List.mem_map_of_mem hg, hne, l, hall,
      rfl, rfl⟩
  · rintro ⟨-, -, hne, l, hl, hfiles⟩
    exact ⟨hne, l, (mem_links_reportOn hids options).2 hl, hfiles⟩

end Job

end CrossRef
