/-
  CrossRef.Proofs.Job.Targets

  What links point at. A link carries the name of its declaration, because
  every number in the table of names is that of a declaration of the very name
  (`Resolution.name_eq_of_means`). It does not point at its own place, because
  the usages of a file are taken from outside its declarations
  (`Analysis.usesApart_ofTree`), and two files never stand for the same one.
-/
import CrossRef.Proofs.Job.Corpus

namespace CrossRef

open CrossRef.Linking CrossRef.Syntax

/-! ## Usages -/

/-- No usage has a reserved name, and none is a declaration where it stands. -/
structure Analysis.UsesApart (a : Analysis) : Prop where
  notReserved : ∀ u ∈ a.usages, Reserved.isReserved u.identifier = false
  notDeclared : ∀ u ∈ a.usages, ∀ d ∈ a.declarations,
    ¬ (u.identifier = d.name ∧ u.position = d.position)

namespace Analysis

theorem usesApart_ofTree (file text : String) (root : Node) :
    (ofTree file text root).UsesApart := by
  have husage : ∀ u ∈ (ofTree file text root).usages,
      Reserved.isReserved u.identifier = false ∧
        ((ofTree file text root).declarations.any fun d =>
          d.position == u.position && d.name == u.identifier) = false := by
    intro u hu
    obtain ⟨o, -, ho⟩ := List.mem_filterMap.1 hu
    obtain ⟨⟨-, hmakes⟩, rfl⟩ := Usages.usage?_eq_some_iff.1 ho
    exact hmakes
  constructor
  · exact fun u hu => (husage u hu).1
  · rintro u hu d hd ⟨hname, hposition⟩
    have hnone := Array.any_eq_false'.1 (husage u hu).2 d hd
    simp [hname, hposition] at hnone

end Analysis

theorem Registry.usesApart_analyze (r : Registry) (file text : String) :
    (r.analyze file text).UsesApart := by
  apply analyze_of_tree
  · constructor <;> simp [Analysis.empty]
  · exact fun root _ => Analysis.usesApart_ofTree file text root

/-! ## Declarations -/

section

variable {files : List AnalyzedFile} {acrossFiles : Bool} {f : AnalyzedFile} {u : Usage}

/-- The scopes of a file bind a name to a declaration of that name. -/
theorem name_eq_of_bound? (htable : f.analysis.LastWins) {i : Nat} {d : Declaration}
    (hi : bound? f u = some i) (hd : f.analysis.declarations[i]? = some d) :
    d.name = u.identifier := by
  obtain ⟨s, -, hs⟩ := List.exists_of_findSome?_eq_some hi
  split at hs
  · obtain ⟨e, he, -, hname⟩ := ((htable s _ i).1 hs).1
    rw [hd] at he
    rw [Option.some.inj he, hname]
  · cases hs

/-- What a usage means has its name. -/
theorem Resolution.name_eq_of_means (htables : ∀ g ∈ files, g.analysis.LastWins) (hf : f ∈ files)
    {r : Resolution} {d : Declaration} (h : Means files acrossFiles f u r)
    (hd : r.declaration? = some d) : d.name = u.identifier := by
  cases h with
  | sameFile hi hget =>
    cases hd
    exact name_eq_of_bound? (htables f hf) hi hget
  | crossFile _ _ _ _ _ hlast =>
    cases hd
    exact hlast.name_eq
  | alone | ambiguous | unresolved => cases hd

end

/-! ## Reports -/

/-- Every link is of the name it points at and of no reserved one, and points
    at another place than its own. -/
structure Report.PointsByName (r : Report) : Prop where
  name_eq : ∀ l ∈ r.links, l.usage.identifier = l.declaration.name
  elsewhere : ∀ l ∈ r.links, ¬ (l.usage.file = l.declaration.file ∧
    l.usage.position = l.declaration.position)
  notReserved : ∀ l ∈ r.links, Reserved.isReserved l.usage.identifier = false

namespace Job

/-- Behind every link are a usage of one file and what it means. -/
theorem exists_usage_of_mem_links {files : List AnalyzedFile} (hids : (files.map (·.file)).Nodup)
    (options : JobOptions) {l : Link} (hl : l ∈ (reportOn files options).links) :
    ∃ f ∈ files, l.usage ∈ f.analysis.usages ∧
      (resolve (exports files) options.crossFile f l.usage).declaration? = some l.declaration := by
  obtain ⟨f, hf, hl⟩ := (mem_allLinks_ofFiles hids).1 ((mem_links_reportOn hids options).1 hl)
  rw [linksOf_ofFiles hids hf] at hl
  obtain ⟨u, hu, hl⟩ := List.mem_filterMap.1 hl
  obtain ⟨d, hd, rfl⟩ := Option.map_eq_some_iff.1 hl
  exact ⟨f, hf, hu, hd⟩

theorem pointsByName_reportOn {files : List AnalyzedFile} (hids : (files.map (·.file)).Nodup)
    (htables : ∀ f ∈ files, f.analysis.LastWins) (howned : ∀ f ∈ files, f.analysis.OwnedBy f.file)
    (hapart : ∀ f ∈ files, f.analysis.UsesApart) (options : JobOptions) :
    (reportOn files options).PointsByName := by
  have hname : ∀ l ∈ (reportOn files options).links, l.usage.identifier = l.declaration.name := by
    intro l hl
    obtain ⟨f, hf, -, hd⟩ := exists_usage_of_mem_links hids options hl
    exact (Resolution.name_eq_of_means htables hf (means_resolve hids htables hf _) hd).symm
  constructor
  · exact hname
  · rintro l hl ⟨hfile, hposition⟩
    obtain ⟨f, hf, hu, hd⟩ := exists_usage_of_mem_links hids options hl
    obtain ⟨g, hg, hdeclared⟩ := exists_file_of_means (means_resolve hids htables hf _) hf hd
    -- the usage and the declaration name the same file, so they are of the same one
    have hsame : f.file = g.file := by
      rw [← (howned f hf).usage _ hu, hfile, (howned g hg).declaration _ hdeclared]
    obtain rfl : f = g := Keyed.eq_of_key_eq hids hf hg hsame
    exact (hapart f hf).notDeclared _ hu _ hdeclared ⟨hname l hl, hposition⟩
  · intro l hl
    obtain ⟨f, hf, hu, -⟩ := exists_usage_of_mem_links hids options hl
    exact (hapart f hf).notReserved _ hu

/-- **Links name what they point at.** Whatever the sources and the options, a
    link has the name of its declaration, which is not reserved, and leads to
    another place; and no usage of a file is one of its declarations. -/
theorem run_pointsByName (registry : Registry) (options : JobOptions)
    (sources : List SourceFile) :
    (run registry options sources).PointsByName ∧
      ∀ f ∈ analyzeAll registry sources, f.analysis.UsesApart := by
  have hapart : ∀ f ∈ analyzeAll registry sources, f.analysis.UsesApart := by
    intro f hf
    obtain ⟨s, -, rfl⟩ := List.mem_map.1 hf
    exact registry.usesApart_analyze s.id s.text
  constructor
  · exact pointsByName_reportOn (nodup_analyzeAll registry sources)
      (fun _ hf => lastWins_of_mem_analyzeAll hf) (fun _ hf => ownedBy_of_mem_analyzeAll hf) hapart
      options
  · exact hapart

end Job

end CrossRef
