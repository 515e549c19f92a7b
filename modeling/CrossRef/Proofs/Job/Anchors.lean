/-
  CrossRef.Proofs.Job.Anchors

  Anchors identify the declarations of a report. The name of a declaration is
  a name of the tree, so if these have no hash signs, the anchor is read back
  from its text. Two declarations of a file do not stand at one place, since two
  names of a tree do not, and those of two files name different files, so no
  two of their anchors are the same (`run_anchored`).
-/
import CrossRef.Proofs.Anchor
import CrossRef.Proofs.Extraction.Bindings
import CrossRef.Proofs.Job.Corpus

namespace CrossRef

open CrossRef.Linking CrossRef.Syntax CrossRef.Text

/-! ## Declarations of a text -/

/-- Places in a text are counted by its characters. -/
theorem Declaration.StandsBehind.le_length {d : Declaration} {text : String}
    {before : List Char} (h : d.StandsBehind text before) :
    d.line ≤ text.length ∧ d.column ≤ text.length := by
  obtain ⟨after, hsplit⟩ := h.split
  have hposition := positionBehind_le before
  rw [← h.position] at hposition
  have hline : d.line ≤ before.length + 1 := hposition.1
  have hcolumn : d.column ≤ before.length := hposition.2
  have hlength := congrArg List.length hsplit
  rw [String.length_toList, List.length_append, List.length_append] at hlength
  have hname : 0 < d.name.toList.length :=
    List.length_pos_of_ne_nil fun hnil => h.nonempty (String.toList_eq_nil_iff.1 hnil)
  omega

namespace Registry

/-- In the trees of the adapters, what is bound are identifiers, and these are told apart. -/
def TellsNamesApart (r : Registry) : Prop :=
  r.Gives fun text root => root.Everywhere Node.BindsNames ∧ root.NamesApart text

theorem tellsNamesApart_standard : standard.TellsNamesApart :=
  gives_standard fun text => ⟨everywhere_bindsNames_parse text, namesApart_parse text⟩

theorem TellsNamesApart.namesPlaces {r : Registry} (h : r.TellsNamesApart)
    (file text : String) : (r.analyze file text).NamesPlaces text := by
  refine analyze_of_tree (Q := fun a => a.NamesPlaces text) ?_ fun root hroot => ?_
  · exact ⟨fun d hd => absurd hd (Array.not_mem_empty d),
      fun d hd => absurd hd (Array.not_mem_empty d), List.nodup_nil⟩
  · obtain ⟨hbinds, hapart⟩ := h file text root hroot
    exact Analysis.namesPlaces_ofTree file hbinds hapart

/-- Without a file name, nothing is read. -/
theorem file_ne_of_mem_declarations {r : Registry} {file text : String} {d : Declaration}
    (hd : d ∈ (r.analyze file text).declarations) : file ≠ "" := by
  rintro rfl
  rw [analyze_eq, parse?_empty] at hd
  exact absurd hd (Array.not_mem_empty d)

end Registry

/-! ## Reports -/

/-- The anchors of the report are read back, as far as lines and columns are
    words of 32 bits, which they are wherever the text has no more characters.
    No two declarations of the report have anchors of the same text. -/
structure Report.Anchored (r : Report) (sources : List SourceFile) : Prop where
  parse : ∀ f ∈ r.files, ∀ d ∈ f.declarations,
    d.line ≤ Decimal.largestWord → d.column ≤ Decimal.largestWord →
      Anchor.parse d.anchor.text = .ok ⟨f.file, d.kind, d.name, d.line, d.column⟩
  within : ∀ f ∈ r.files, ∀ d ∈ f.declarations, ∃ s ∈ sources,
    s.id = f.file ∧ d.line ≤ s.text.length ∧ d.column ≤ s.text.length
  nodup : ((r.files.flatMap (·.declarations)).map (·.anchor.text)).Nodup

namespace Job

variable {files : List AnalyzedFile}

/-- The declarations of a report, file by file, are those of its files. -/
theorem perm_declarations_reportOn (hids : (files.map (·.file)).Nodup) (options : JobOptions) :
    ((reportOn files options).files.flatMap (·.declarations)).Perm
      (files.flatMap fun f => f.analysis.declarations.toList) := by
  have hperm := (perm_files_reportOn hids options).flatMap_right (·.declarations)
  rwa [List.flatMap_map] at hperm

/-- Declarations at different places, or of different files, have different anchors. -/
theorem nodup_anchors (hids : (files.map (·.file)).Nodup)
    (howned : ∀ f ∈ files, f.analysis.OwnedBy f.file)
    (hplaces : ∀ f ∈ files, ∃ text, f.analysis.NamesPlaces text) :
    ((files.flatMap fun f => f.analysis.declarations.toList).map (·.anchor.text)).Nodup := by
  have hname : ∀ f ∈ files, ∀ d ∈ f.analysis.declarations, '#' ∉ d.name.toList := by
    intro f hf d hd
    obtain ⟨text, htext⟩ := hplaces f hf
    exact htext.plain d hd
  rw [List.Nodup, List.pairwise_map, List.pairwise_flatMap]
  constructor
  · -- within one file
    intro f hf
    obtain ⟨text, htext⟩ := hplaces f hf
    refine (List.pairwise_map.1 htext.apart).imp_of_mem fun {d e} hd he hne heq => hne ?_
    have hanchor := Anchor.eq_of_text_eq (hname f hf d (Array.mem_toList_iff.1 hd))
      (hname f hf e (Array.mem_toList_iff.1 he)) heq
    obtain ⟨-, -, -, hline, hcolumn⟩ := Anchor.mk.inj hanchor
    rw [Declaration.position, Declaration.position, hline, hcolumn]
  · -- between two files
    refine (List.pairwise_map.1 hids).imp_of_mem fun {f g} hf hg hne d hd e he heq => hne ?_
    rw [Array.mem_toList_iff] at hd he
    have hanchor := Anchor.eq_of_text_eq (hname f hf d hd) (hname g hg e he) heq
    rw [← (howned f hf).declaration d hd, ← (howned g hg).declaration e he]
    exact (Anchor.mk.inj hanchor).1

/-- What is declared in a file of a report is what the analysis of a source declares. -/
theorem exists_source_of_mem_declarations {registry : Registry} {options : JobOptions}
    {sources : List SourceFile} {f : FileReport} {d : Declaration}
    (hf : f ∈ (run registry options sources).files) (hd : d ∈ f.declarations) :
    ∃ s ∈ sources, s.id = f.file ∧ d ∈ (registry.analyze s.id s.text).declarations := by
  obtain ⟨g, hg, rfl⟩ := List.mem_map.1
    ((perm_files_reportOn (nodup_analyzeAll registry sources) options).mem_iff.1 hf)
  obtain ⟨s, hs, rfl⟩ := List.mem_map.1 hg
  exact ⟨s, Keyed.firsts_subset (·.id) sources hs, rfl, Array.mem_toList_iff.1 hd⟩

/-- **Anchors identify declarations.** Let names and aliases be identifiers in the
    trees of the adapters, and let no two identifiers of a tree start at one point
    nor any of them have a hash sign. Whatever the sources and the options, the
    anchor of a declaration is read back from its text, and no other
    declaration of the report has it. -/
theorem run_anchored {registry : Registry} (hnames : registry.TellsNamesApart)
    (options : JobOptions) (sources : List SourceFile) :
    (run registry options sources).Anchored sources := by
  constructor
  · intro f hf d hd hline hcolumn
    obtain ⟨s, -, hfile, hd⟩ := exists_source_of_mem_declarations hf hd
    have hplain := (hnames.namesPlaces s.id s.text).plain d hd
    have howned : d.file = f.file :=
      ((Registry.ownedBy_analyze registry s.id s.text).declaration d hd).trans hfile
    have hnamed : d.file ≠ "" := by
      rw [howned, ← hfile]
      exact Registry.file_ne_of_mem_declarations hd
    have hparsed := Anchor.parse_text (a := d.anchor) hnamed hplain hline hcolumn
    rw [hparsed, Declaration.anchor, howned]
  · intro f hf d hd
    obtain ⟨s, hs, hfile, hd⟩ := exists_source_of_mem_declarations hf hd
    obtain ⟨before, hstands⟩ := (hnames.namesPlaces s.id s.text).stands d hd
    exact ⟨s, hs, hfile, hstands.le_length⟩
  · have hids := nodup_analyzeAll registry sources
    have hanchors := nodup_anchors hids (fun _ hf => ownedBy_of_mem_analyzeAll hf) fun f hf => by
      obtain ⟨s, -, rfl⟩ := List.mem_map.1 hf
      exact ⟨s.text, hnames.namesPlaces s.id s.text⟩
    exact (((perm_declarations_reportOn hids options).map _).nodup_iff).2 hanchors

/-- A file with delimiters in its name. -/
def delimited : SourceFile := ⟨"a#b:c@1.py", "def f(x):\n    pass\n"⟩

/-- Delimiters in the name of a file are no harm. -/
theorem run_anchored_delimited :
    Registry.standard.TellsNamesApart ∧
      (run .standard ⟨true, .none⟩ [delimited]).Anchored [delimited] ∧
      ((run .standard ⟨true, .none⟩ [delimited]).files.flatMap
        (·.declarations)).map (·.anchor.text) =
          ["xref://a#b:c@1.py#function:f@1:4", "xref://a#b:c@1.py#variable:x@1:6"] := by
  refine ⟨Registry.tellsNamesApart_standard, ?_, by decide +kernel⟩
  exact run_anchored Registry.tellsNamesApart_standard ⟨true, .none⟩ [delimited]

end Job

end CrossRef
