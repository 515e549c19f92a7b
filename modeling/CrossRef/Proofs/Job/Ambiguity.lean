/-
  CrossRef.Proofs.Job.Ambiguity

  What a report says of names that several files offer. Every file shows the
  names that are ambiguous in one of its usages, each once, in the order in
  which they first are (`map_name_shownBy`), and the files come in the order
  of their identifiers. Under each name stand the other files that offer it.

  The diagnostics are texts, and two of them may be the same text, so they are
  matched with what they show one by one and not by comparing them
  (`Report.ShowsAmbiguities`).
-/
import CrossRef.Proofs.Job.Modes
import CrossRef.Proofs.Linking.Candidates
import CrossRef.Proofs.Linking.Outcomes

namespace CrossRef

open CrossRef.Linking

namespace Linking

/-! ## Ambiguous names -/

/-- A name that a file uses and several other files offer. -/
structure Ambiguity where
  file : String
  name : String
  candidates : List Candidate

/-- How an ambiguous name is reported. -/
def Ambiguity.diagnostic (a : Ambiguity) : Diagnostic :=
  .ambiguousReference a.file a.name (a.candidates.map (·.label))

/-- Several other files offer the name of the usage, and its own file does not bind it. -/
def isAmbiguous (files : List AnalyzedFile) (f : AnalyzedFile) (u : Usage) : Bool :=
  resolve (exports files) true f u matches .ambiguous _

theorem isAmbiguous_iff {files : List AnalyzedFile} {f : AnalyzedFile} {u : Usage} :
    isAmbiguous files f u = true ↔ ∃ cs, resolve (exports files) true f u = .ambiguous cs := by
  rw [isAmbiguous]
  cases resolve (exports files) true f u with
  | ambiguous cs => exact ⟨fun _ => ⟨cs, rfl⟩, fun _ => rfl⟩
  | sameFile | crossFile | unresolved => simp

/-- The names of the ambiguous usages of a file, each where it is ambiguous first. -/
def ambiguousNames (files : List AnalyzedFile) (f : AnalyzedFile) : List String :=
  ((f.analysis.usages.filter (isAmbiguous files f)).map (·.identifier)).eraseDups

end Linking

/-! ## Reports -/

/-- The ambiguous names that a report shows, where `files` are the files it is
    about. They come before any cycle; the files ascend, each with the names
    that are ambiguous in it; and each name comes with the other files that
    offer it, in ascending order, those marked that do not declare it. -/
structure Report.ShowsAmbiguities (r : Report) (files : List AnalyzedFile)
    (shown : List Ambiguity) : Prop where
  diagnostics : ∃ cycles, r.diagnostics = shown.map (·.diagnostic) ++ cycles ∧
    ∀ d ∈ cycles, d.kind = .cycle
  once : (shown.map fun a => (a.file, a.name)).Nodup
  complete : ∀ file name, (∃ a ∈ shown, a.file = file ∧ a.name = name) ↔
    ∃ f ∈ files, f.file = file ∧
      ∃ u ∈ f.analysis.usages, u.identifier = name ∧ isAmbiguous files f u = true
  byFile : shown.Pairwise fun a b => a.file ≤ b.file
  byUsage : ∀ f ∈ files,
    (shown.filter (·.file == f.file)).map (·.name) = ambiguousNames files f
  several : ∀ a ∈ shown, 2 ≤ a.candidates.length
  offering : ∀ a ∈ shown, ∀ c, c ∈ a.candidates ↔ IsCandidate files a.name a.file c
  ascending : ∀ a ∈ shown, a.candidates.Pairwise fun c d => c.file < d.file
  others : ∀ a ∈ shown, ∀ c ∈ a.candidates, c.file ≠ a.file
  marked : ∀ a ∈ shown, ∀ c ∈ a.candidates, ∃ g ∈ files, g.file = c.file ∧
    ((g.analysis.Declares a.name ∧ c.label = c.file) ∨
      (¬ g.analysis.Declares a.name ∧ c.label = c.file ++ " (via *)"))

namespace Linking

/-- The ambiguous names of a linked file are those of its ambiguous outcomes,
    each where it first occurs. -/
theorem LinkedFile.map_fst_ambiguities (e : LinkedFile) : e.ambiguities.map (·.1) =
    ((e.outcomes.filter fun o => o.2 matches .ambiguous _).map (·.1.identifier)).eraseDups := by
  rw [ambiguities, Keyed.map_firsts]
  congr 1
  induction e.outcomes with
  | nil => rfl
  | cons o os ih =>
    obtain ⟨u, r⟩ := o
    cases r with
    | ambiguous cs => exact congrArg (u.identifier :: ·) ih
    | sameFile | crossFile | unresolved => exact ih

variable {files : List AnalyzedFile} {f : AnalyzedFile} {a : Ambiguity}

/-! ## One file -/

/-- The outcomes of the usages of one file. -/
def linkedFile (files : List AnalyzedFile) (f : AnalyzedFile) : LinkedFile :=
  ⟨f.file, f.analysis.usages.map fun u => (u, resolve (exports files) true f u)⟩

/-- What is shown of one file. -/
def shownBy (files : List AnalyzedFile) (f : AnalyzedFile) : List Ambiguity :=
  (linkedFile files f).ambiguities.map fun p => ⟨f.file, p.1, p.2⟩

theorem file_of_mem_shownBy (h : a ∈ shownBy files f) : a.file = f.file := by
  obtain ⟨p, -, rfl⟩ := List.mem_map.1 h
  rfl

theorem map_name_shownBy_eq_fst (files : List AnalyzedFile) (f : AnalyzedFile) :
    (shownBy files f).map (·.name) = (linkedFile files f).ambiguities.map (·.1) := by
  rw [shownBy, List.map_map]
  rfl

/-- A file shows the names that are ambiguous in it, as their usages come. -/
theorem map_name_shownBy (files : List AnalyzedFile) (f : AnalyzedFile) :
    (shownBy files f).map (·.name) = ambiguousNames files f := by
  rw [map_name_shownBy_eq_fst, LinkedFile.map_fst_ambiguities, linkedFile, List.filter_map,
    List.map_map]
  rfl

theorem nodup_shownBy (files : List AnalyzedFile) (f : AnalyzedFile) :
    ((shownBy files f).map (·.name)).Nodup := by
  rw [map_name_shownBy_eq_fst]
  exact Keyed.nodup_keys_firsts _ _

/-- Under a name stands what makes one of its usages ambiguous. -/
theorem exists_usage_of_mem_shownBy (h : a ∈ shownBy files f) :
    ∃ u ∈ f.analysis.usages, u.identifier = a.name ∧
      resolve (exports files) true f u = .ambiguous a.candidates := by
  obtain ⟨p, hp, rfl⟩ := List.mem_map.1 h
  have hp := Keyed.firsts_subset _ _ hp
  obtain ⟨⟨u, r⟩, ho, hr⟩ := List.mem_filterMap.1 hp
  obtain ⟨v, hv, heq⟩ := List.mem_map.1 ho
  cases r with
  | ambiguous cs =>
    cases hr
    obtain ⟨rfl, hr⟩ := Prod.mk.inj heq
    exact ⟨v, hv, rfl, hr⟩
  | sameFile | crossFile | unresolved => cases hr

/-! ## All files -/

/-- What is shown of a corpus. -/
def shownOf (files : List AnalyzedFile) : List Ambiguity :=
  (corpus files).flatMap (shownBy files)

theorem diagnostics_ofFiles (files : List AnalyzedFile) :
    (LinkSet.ofFiles files true).diagnostics = (shownOf files).map (·.diagnostic) := by
  have hfile : ∀ f : AnalyzedFile, (linkedFile files f).diagnostics =
      (shownBy files f).map (·.diagnostic) := by
    intro f
    rw [shownBy, List.map_map]
    rfl
  rw [LinkSet.diagnostics, LinkSet.ofFiles, List.flatMap_map, shownOf, List.map_flatMap]
  exact List.flatMap_congr fun f _ => hfile f

theorem mem_shownOf (h : a ∈ shownOf files) : ∃ f ∈ files, a ∈ shownBy files f := by
  obtain ⟨f, hf, ha⟩ := List.mem_flatMap.1 h
  exact ⟨f, Keyed.mem_sort.1 hf, ha⟩

/-- What is shown comes from an ambiguous usage of the file it is shown for. -/
theorem exists_usage_of_mem_shownOf (h : a ∈ shownOf files) :
    ∃ f ∈ files, f.file = a.file ∧ ∃ u ∈ f.analysis.usages, u.identifier = a.name ∧
      resolve (exports files) true f u = .ambiguous a.candidates := by
  obtain ⟨f, hf, ha⟩ := mem_shownOf h
  exact ⟨f, hf, (file_of_mem_shownBy ha).symm, exists_usage_of_mem_shownBy ha⟩

/-- The candidates that are shown are all that the other files offer. -/
theorem candidates_of_mem_shownOf (h : a ∈ shownOf files) :
    a.candidates = candidates (exports files) a.name a.file ∧ 2 ≤ a.candidates.length := by
  obtain ⟨f, -, hfile, u, -, hname, hresolve⟩ := exists_usage_of_mem_shownOf h
  obtain ⟨-, hcandidates, hlen⟩ := resolve_eq_ambiguous hresolve
  rw [hfile, hname] at hcandidates
  exact ⟨hcandidates.symm, hlen⟩

section

variable (hids : (files.map (·.file)).Nodup)
include hids

theorem filter_shownOf (hf : f ∈ files) :
    (shownOf files).filter (·.file == f.file) = shownBy files f :=
  Keyed.filter_flatMap_of_key (Keyed.ascending_sort hids).nodup_keys
    (fun _ _ _ ha => file_of_mem_shownBy ha) (Keyed.mem_sort.2 hf)

theorem pairwise_shownOf : (shownOf files).Pairwise fun a b =>
    a.file < b.file ∨ (a.file = b.file ∧ a.name ≠ b.name) := by
  rw [shownOf, List.pairwise_flatMap]
  constructor
  · intro f _
    have hnodup := List.pairwise_map.1 (nodup_shownBy files f)
    apply hnodup.imp_of_mem
    intro a b ha hb hne
    exact .inr ⟨(file_of_mem_shownBy ha).trans (file_of_mem_shownBy hb).symm, hne⟩
  · apply (Keyed.ascending_sort hids).imp
    intro f g hlt a ha b hb
    rw [file_of_mem_shownBy ha, file_of_mem_shownBy hb]
    exact .inl hlt

omit hids in
theorem exists_mem_shownOf_iff {file name : String} :
    (∃ a ∈ shownOf files, a.file = file ∧ a.name = name) ↔
      ∃ f ∈ files, f.file = file ∧
        ∃ u ∈ f.analysis.usages, u.identifier = name ∧ isAmbiguous files f u = true := by
  constructor
  · rintro ⟨a, ha, rfl, rfl⟩
    obtain ⟨f, hf, hfile, u, hu, hname, hresolve⟩ := exists_usage_of_mem_shownOf ha
    exact ⟨f, hf, hfile, u, hu, hname, isAmbiguous_iff.2 ⟨_, hresolve⟩⟩
  · rintro ⟨f, hf, rfl, u, hu, rfl, hambiguous⟩
    have hname : u.identifier ∈ (shownBy files f).map (·.name) := by
      rw [map_name_shownBy, ambiguousNames, List.mem_eraseDups]
      exact List.mem_map_of_mem (List.mem_filter.2 ⟨hu, hambiguous⟩)
    obtain ⟨a, ha, hname⟩ := List.mem_map.1 hname
    exact ⟨a, List.mem_flatMap.2 ⟨f, Keyed.mem_sort.2 hf, ha⟩, file_of_mem_shownBy ha, hname⟩

end

end Linking

namespace Job

/-! ## Jobs -/

theorem showsAmbiguities_reportOn {files : List AnalyzedFile}
    (hids : (files.map (·.file)).Nodup) (htables : ∀ f ∈ files, f.analysis.LastWins)
    (howned : ∀ f ∈ files, f.analysis.OwnedBy f.file) (order : OrderMode) :
    (reportOn files ⟨true, order⟩).ShowsAmbiguities files (shownOf files) where
  diagnostics := by
    use ((graphOf files true).order order).2.toList
    constructor
    · rw [diagnostics_reportOn, diagnostics_ofFiles]
    · intro d hd
      exact FileGraph.kind_of_mem_order (Option.mem_toList.1 hd)
  once := by
    rw [List.Nodup, List.pairwise_map]
    apply (pairwise_shownOf hids).imp
    intro a b h heq
    obtain ⟨hfile, hname⟩ := Prod.mk.inj heq
    rcases h with hlt | ⟨-, hne⟩
    · exact absurd hfile (ne_of_lt hlt)
    · exact hne hname
  complete := fun file name => exists_mem_shownOf_iff
  byFile := by
    apply (pairwise_shownOf hids).imp
    intro a b h
    rcases h with hlt | ⟨hfile, -⟩
    · exact le_of_lt hlt
    · exact le_of_eq hfile
  byUsage := by
    intro f hf
    rw [filter_shownOf hids hf, map_name_shownBy]
  several := fun a ha => (candidates_of_mem_shownOf ha).2
  offering := by
    intro a ha c
    rw [(candidates_of_mem_shownOf ha).1]
    exact mem_candidates hids htables
  ascending := by
    intro a ha
    rw [(candidates_of_mem_shownOf ha).1]
    exact ascending_candidates hids fun g hg => bindsOwn_of_lastWins (htables g hg) (howned g hg)
  others := by
    intro a ha c hc
    rw [(candidates_of_mem_shownOf ha).1] at hc
    obtain ⟨g, -, hne, hfile, -⟩ := exists_marked hids htables howned hc
    rwa [hfile]
  marked := by
    intro a ha c hc
    rw [(candidates_of_mem_shownOf ha).1] at hc
    obtain ⟨g, hg, -, hfile, hlabel⟩ := exists_marked hids htables howned hc
    rw [hfile]
    exact ⟨g, hg, rfl, hlabel⟩

/-- **Ambiguity is reported once, completely and in order.** Whatever the
    sources and the mode, a report that takes other files into account begins
    with one diagnostic for every file and every name that is ambiguous in it,
    by file and then by usage, which shows all other files that offer the name. -/
theorem run_showsAmbiguities (registry : Registry) (order : OrderMode)
    (sources : List SourceFile) :
    ∃ shown, (run registry ⟨true, order⟩ sources).ShowsAmbiguities
      (analyzeAll registry sources) shown :=
  ⟨_, showsAmbiguities_reportOn (nodup_analyzeAll registry sources)
    (fun _ hf => lastWins_of_mem_analyzeAll hf) (fun _ hf => ownedBy_of_mem_analyzeAll hf) order⟩

end Job

end CrossRef
