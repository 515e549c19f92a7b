/-
  CrossRef.Proofs.Job.Inert

  A job with one more source that no adapter takes. No import can mean its
  file: an import only leads to modules, and modules are taken. So the corpus
  only gains a file of which nothing is known, the graph only gains a file
  without edges, and the report says of all other files what it said, in the
  same order (`run_addsInert`).
-/
import CrossRef.Proofs.Extraction.Wildcards
import CrossRef.Proofs.Job.Permutation
import CrossRef.Proofs.Linking.Unread
import CrossRef.Proofs.Ordering.Isolated

namespace CrossRef

open CrossRef.Linking

/-! ## Reports -/

/-- The larger report says what the smaller one says, and lists an empty file
    besides. The file comes once in the order, and the others keep theirs. -/
structure Report.AddsInert (small large : Report) (id : String) : Prop where
  requested : large.ordering.requested = small.ordering.requested
  applied : large.ordering.applied = small.ordering.applied
  once : large.ordering.files.count id = 1
  ordering : large.ordering.files.filter (· != id) = small.ordering.files
  file : ⟨id, [], []⟩ ∈ large.files
  files : large.files.filter (·.file != id) = small.files
  diagnostics : large.diagnostics = small.diagnostics
  stats : large.stats = { small.stats with files := small.stats.files + 1 }

/-! ## Files that no adapter takes -/

theorem Registry.analyze_of_unhandled {r : Registry} {file : String}
    (h : r.findAdapter? file = none) (text : String) : r.analyze file text = .empty := by
  rw [analyze, h]

/-- Some adapter takes the files that imports mean. -/
def Registry.TakesModules (r : Registry) : Prop := ∃ a ∈ r, "py" ∈ a.extensions

/-- No wildcard import means a file that no adapter takes. -/
theorem Registry.not_leadsTo_of_unhandled {r : Registry} (hspells : r.SpellsModules)
    (htakes : r.TakesModules) {id : String} (h : r.findAdapter? id = none) {file text : String}
    {w : WildcardImport} (hw : w ∈ (r.analyze file text).scopes.wildcards) (importer : String) :
    ¬ LeadsTo importer w id := by
  intro hleads
  have hextension := hleads.extension?_eq (hspells.endsInWord w hw)
  obtain ⟨a, ha, hpy⟩ := htakes
  have hhandled : a.canHandle id = true := by
    rw [Adapter.canHandle, hextension]
    exact List.contains_iff_mem.2 hpy
  exact List.find?_eq_none.1 h a ha hhandled

theorem Registry.takesModules_ofParser (parse? : String → Option Syntax.Node) :
    (ofParser parse?).TakesModules :=
  ⟨.python parse?, List.mem_singleton_self _, List.mem_cons_self⟩

namespace Job

section

variable {files files' : List AnalyzedFile} {e : AnalyzedFile}
variable (adds : AddsUnread files files' e)
variable (htables : ∀ f ∈ files', f.analysis.LastWins)
variable (howned : ∀ f ∈ files', f.analysis.OwnedBy f.file)
include adds htables howned

/-! ## The graph -/

theorem dependsOn_graphOf_eq (acrossFiles : Bool) :
    (graphOf files acrossFiles).DependsOn = (graphOf files' acrossFiles).DependsOn := by
  have htables' : ∀ f ∈ files, f.analysis.LastWins := fun f hf => htables f (adds.mem_of_mem hf)
  have howned' : ∀ f ∈ files, f.analysis.OwnedBy f.file :=
    fun f hf => howned f (adds.mem_of_mem hf)
  have hlinks (l : Link) : l ∈ (reportOn files' ⟨acrossFiles, .none⟩).links ↔
      l ∈ (reportOn files ⟨acrossFiles, .none⟩).links := by
    rw [mem_links_reportOn adds.ids, mem_links_reportOn adds.nodup_ids,
      adds.mem_allLinks_iff htables]
  rw [← dependsOn_reportOn adds.nodup_ids htables' howned' ⟨acrossFiles, .none⟩,
    ← dependsOn_reportOn adds.ids htables howned ⟨acrossFiles, .none⟩]
  funext a b
  simp only [Report.DependsOn, hlinks]

theorem addsIsolated_graphOf (acrossFiles : Bool) :
    (graphOf files acrossFiles).AddsIsolated (graphOf files' acrossFiles) e.file where
  hasFile := hasFile_graphOf.2 (List.mem_map_of_mem adds.mem)
  files := by
    rw [graphOf, graphOf, FileGraph.files_ofLinks adds.ids, FileGraph.files_ofLinks adds.nodup_ids]
    exact adds.map_file
  dependsOn := dependsOn_graphOf_eq adds htables howned acrossFiles

theorem edgeCount_graphOf_eq (acrossFiles : Bool) :
    (graphOf files' acrossFiles).edgeCount = (graphOf files acrossFiles).edgeCount := by
  have wf := wellFormed_graphOf files acrossFiles
  have wf' := wellFormed_graphOf files' acrossFiles
  rw [wf.edgeCount_eq, wf'.edgeCount_eq, wf'.edges_eq wf fun a b => ?_]
  rw [Bool.eq_iff_iff]
  exact (congrFun₂ (dependsOn_graphOf_eq adds htables howned acrossFiles) a b).symm.to_iff

/-! ## The report -/

omit howned in
theorem filter_files_reportOn (options : JobOptions)
    (hordering : (reportOn files' options).ordering.files.filter (· != e.file) =
      (reportOn files options).ordering.files) :
    (reportOn files' options).files.filter (·.file != e.file) = (reportOn files options).files := by
  rw [files_reportOn, files_reportOn, ← hordering, List.filter_filterMap, List.filterMap_filter]
  refine List.filterMap_congr fun id hid => ?_
  obtain ⟨f, hf, rfl⟩ := List.mem_map.1 ((files_ordering_reportOn adds.ids options).mem_iff.1 hid)
  rw [fileReport?_eq adds.ids _ hf]
  -- the new file's report is dropped, and those of the others are the same
  rcases adds.eq_or_mem hf with rfl | hf
  · simp
  · have hne := (adds.mem_iff.1 hf).2
    rw [fileReport?_eq adds.nodup_ids _ hf, if_pos (bne_iff_ne.2 hne),
      adds.linksOf_eq htables options.crossFile hf]
    simp [hne]

theorem length_eq : files'.length = files.length + 1 := by
  have hperm := (addsIsolated_graphOf adds htables howned true).files_perm
    (wellFormed_graphOf files' true)
  have hlength := hperm.length_eq
  rw [graphOf, graphOf, FileGraph.files_ofLinks adds.ids, FileGraph.files_ofLinks adds.nodup_ids,
    List.length_cons, List.length_map, List.length_map] at hlength
  exact hlength

theorem stats_reportOn_eq (options : JobOptions) :
    (reportOn files' options).stats =
      { (reportOn files options).stats with
        files := (reportOn files options).stats.files + 1 } := by
  have hdeclarations : (files'.flatMap fun f => f.analysis.declarations.toList) =
      files.flatMap fun f => f.analysis.declarations.toList :=
    adds.flatMap_eq (fun f hf => hf) adds.others (by rw [adds.analysis]; rfl) fun _ _ => rfl
  have hedges := edgeCount_graphOf_eq adds htables howned options.crossFile
  have hstats := adds.stats_eq htables options.crossFile
  unfold graphOf at hedges
  unfold reportOn
  simp only
  rw [length_eq adds htables howned, hdeclarations, hstats, hedges]

theorem addsInert_reportOn (options : JobOptions) :
    (reportOn files options).AddsInert (reportOn files' options) e.file := by
  obtain ⟨hfiles, hrequested, happlied, hcycle⟩ :=
    (addsIsolated_graphOf adds htables howned options.crossFile).order_eq
      (wellFormed_graphOf files _) (wellFormed_graphOf files' _) options.order
  rw [← ordering_reportOn, ← ordering_reportOn] at hfiles hrequested happlied
  constructor
  · exact hrequested
  · exact happlied
  · rw [(files_ordering_reportOn adds.ids options).count_eq]
    exact List.count_eq_one_of_mem adds.ids (List.mem_map_of_mem adds.mem)
  · exact hfiles
  · have hreport := List.mem_map_of_mem (f := reportOf (LinkSet.ofFiles files' options.crossFile))
      adds.mem
    rw [reportOf, adds.linksOf_new, adds.analysis] at hreport
    exact (perm_files_reportOn adds.ids options).mem_iff.2 hreport
  · exact filter_files_reportOn adds htables options hfiles
  · rw [diagnostics_reportOn, diagnostics_reportOn, adds.diagnostics_eq htables, hcycle]
  · exact stats_reportOn_eq adds htables howned options

end

/-! ## Jobs -/

section

variable {registry : Registry} (hspells : registry.SpellsModules)
variable (htakes : registry.TakesModules)
include hspells htakes

/-- The analyzed files, with a source that no adapter takes and without it. -/
theorem addsUnread_analyzeAll {before after : List SourceFile} {s : SourceFile}
    (hids : ((before ++ s :: after).map (·.id)).Nodup)
    (hunhandled : registry.findAdapter? s.id = none) :
    AddsUnread (analyzeAll registry (before ++ after))
      (analyzeAll registry (before ++ s :: after)) ⟨s.id, .empty⟩ where
  ids := nodup_analyzeAll _ _
  mem := by
    rw [analyzeAll_eq hids, ← Registry.analyze_of_unhandled hunhandled s.text]
    exact List.mem_map_of_mem (List.mem_append_right _ List.mem_cons_self)
  others := by
    have hnodup : ((s :: (before ++ after)).map (·.id)).Nodup :=
      (List.perm_middle.map _).nodup_iff.1 hids
    obtain ⟨hnot, hrest⟩ := List.nodup_cons.1 hnodup
    have hkeep : ∀ t ∈ before ++ after, (t.id != s.id) = true := fun t ht =>
      bne_iff_ne.2 fun hid => hnot (List.mem_map.2 ⟨t, ht, hid⟩)
    obtain ⟨hbefore, hafter⟩ := List.forall_mem_append.1 hkeep
    have hsources : (before ++ s :: after).filter (fun t => t.id != s.id) = before ++ after := by
      rw [List.filter_append, List.filter_cons_of_neg (by simp), List.filter_eq_self.2 hbefore,
        List.filter_eq_self.2 hafter]
    rw [analyzeAll_eq hids, analyzeAll_eq hrest, List.filter_map]
    exact congrArg _ hsources
  analysis := rfl
  unmeant := by
    intro f hf w hw
    rw [analyzeAll_eq hids] at hf
    obtain ⟨t, -, rfl⟩ := List.mem_map.1 hf
    exact Registry.not_leadsTo_of_unhandled hspells htakes hunhandled hw _

/-- **Files that no adapter takes are inert.** Let the registry take modules, and
    let the trees of its adapters spell them by dots and words. A source without
    an extension that an adapter takes, wherever it comes and whatever its text,
    adds its own place to the order and nothing else. -/
theorem run_addsInert (options : JobOptions) {before after : List SourceFile} {s : SourceFile}
    (hids : ((before ++ s :: after).map (·.id)).Nodup)
    (hunhandled : registry.findAdapter? s.id = none) :
    (run registry options (before ++ after)).AddsInert
      (run registry options (before ++ s :: after)) s.id := by
  have hadds := addsUnread_analyzeAll hspells htakes hids hunhandled
  exact addsInert_reportOn hadds (fun _ hf => lastWins_of_mem_analyzeAll hf)
    (fun _ hf => ownedBy_of_mem_analyzeAll hf) options

end

/-- A text that no adapter takes, although it is that of a module. -/
def notes : SourceFile := ⟨"notes.txt", "from a import *\nping()\n"⟩

/-- Between two sources that use each other, it comes last in ascending order,
    and the cycle is that of the two. -/
theorem run_addsInert_notes :
    let before := mutualSources.take 1
    let after := mutualSources.drop 1
    let small := run .standard ⟨true, .dependency⟩ (before ++ after)
    let large := run .standard ⟨true, .dependency⟩ (before ++ notes :: after)
    Registry.standard.SpellsModules ∧ Registry.standard.TakesModules ∧
      ((before ++ notes :: after).map (·.id)).Nodup ∧
      Registry.standard.findAdapter? notes.id = none ∧ small.AddsInert large notes.id ∧
      large.ordering.files = ["a.py", "b.py", "notes.txt"] ∧
      large.diagnostics = [.dependencyCycle ["a.py", "b.py", "a.py"]] := by
  have hids : ((mutualSources.take 1 ++ notes :: mutualSources.drop 1).map (·.id)).Nodup := by
    decide
  have hunhandled : Registry.standard.findAdapter? notes.id = none := by decide
  have htakes : Registry.standard.TakesModules := Registry.takesModules_ofParser _
  exact ⟨Registry.spellsModules_standard, htakes, hids, hunhandled,
    run_addsInert Registry.spellsModules_standard htakes ⟨true, .dependency⟩ hids hunhandled,
    by decide +kernel, by decide +kernel⟩

end Job

end CrossRef
