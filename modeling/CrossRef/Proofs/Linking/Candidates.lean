/-
  CrossRef.Proofs.Linking.Candidates

  The candidates for a name, as a list. Every other file contributes one at
  most: what its module scope binds the name to, or itself if it only relays
  the name (`contributes_offer`). The files are asked in the order of their
  identifiers, so the candidates ascend strictly, and how one of them is shown
  says whether its file declares the name.

  Nothing is asked of the tables of names but that they point at declarations
  of their own file. That the last declaration of a name wins is one way to
  have such tables (`bindsOwn_of_lastWins`).
-/
import CrossRef.Proofs.Linking.Resolution

namespace CrossRef

/-- What the module scope of a file binds a name to is a declaration of the
    name by this file. -/
structure AnalyzedFile.BindsOwn (f : AnalyzedFile) : Prop where
  points : f.analysis.TablePoints
  own : ∀ name d, f.analysis.moduleDeclaration? name = some d → d.file = f.file

namespace Linking

variable {files : List AnalyzedFile} {name file : String}

theorem bindsOwn_of_lastWins {g : AnalyzedFile} (htable : g.analysis.LastWins)
    (howned : g.analysis.OwnedBy g.file) : g.BindsOwn where
  points := htable.tablePoints
  own := by
    intro name d hd
    obtain ⟨i, -, hi⟩ := Analysis.moduleDeclaration?_eq_some.1 hd
    exact howned.declaration _ (Array.mem_of_getElem? hi)

/-! ## One file -/

/-- A file that is asked for a name gives the declaration its module scope binds
    it to, its own identifier if it binds nothing and relays the name, or nothing. -/
inductive Contributes (files : List AnalyzedFile) (name : String) (g : AnalyzedFile) :
    List Candidate → Prop where
  | declared {d : Declaration} :
      g.analysis.moduleDeclaration? name = some d → Contributes files name g [.declared d]
  | passedOn : Relays files name g.file → Contributes files name g [.passedOn g.file]
  | nothing :
      ¬ g.analysis.Binds name → ¬ Relays files name g.file → Contributes files name g []

/-- A file that relays a name does not bind it. -/
theorem Relays.not_binds (hids : (files.map (·.file)).Nodup) {g : AnalyzedFile}
    (hg : g ∈ files) (h : Relays files name g.file) : ¬ g.analysis.Binds name := by
  obtain ⟨⟨g', hg', hfile, hnot⟩, -⟩ := h
  have hsame : g' = g := Keyed.eq_of_key_eq hids hg' hg hfile
  rwa [← hsame]

theorem contributes_offer (hids : (files.map (·.file)).Nodup)
    (htables : ∀ g ∈ files, g.analysis.TablePoints) {g : AnalyzedFile} (hg : g ∈ files) :
    Contributes files name g ((offer files g).candidates name) := by
  have hpoints : g.analysis.TablePoints := htables g hg
  have hpasses : (offer files g).passesOn name = true ↔ Relays files name g.file :=
    passesOn_offer_iff hids htables hg
  rw [Exports.candidates, declaration?_offer_eq hpoints]
  cases hd : g.analysis.moduleDeclaration? name with
  | some d =>
    have hnot : ¬ (offer files g).passesOn name = true := fun h =>
      (hpasses.1 h).not_binds hids hg (hpoints.binds_iff.2 ⟨d, hd⟩)
    rw [if_neg hnot, List.append_nil]
    exact .declared hd
  | none =>
    have hnot : ¬ g.analysis.Binds name := by
      intro hbinds
      obtain ⟨d, hd'⟩ := hpoints.binds_iff.1 hbinds
      rw [hd'] at hd
      cases hd
    rw [Option.toList_none, List.map_nil, List.nil_append]
    split
    · rename_i hpass
      exact .passedOn (hpasses.1 hpass)
    · rename_i hpass
      exact .nothing hnot fun h => hpass (hpasses.2 h)

section

variable {g : AnalyzedFile} {cs : List Candidate} (h : Contributes files name g cs)
include h

/-- A contribution is one candidate at most. -/
theorem Contributes.pairwise {r : Candidate → Candidate → Prop} : cs.Pairwise r := by
  cases h with
  | declared => exact List.pairwise_singleton ..
  | passedOn => exact List.pairwise_singleton ..
  | nothing => exact List.Pairwise.nil

/-- A contribution bears the identifier of its file. -/
theorem Contributes.file_eq (hown : g.BindsOwn) : ∀ c ∈ cs, c.file = g.file := by
  cases h with
  | declared hd => exact List.forall_mem_singleton.2 (hown.own _ _ hd)
  | passedOn => exact List.forall_mem_singleton.2 rfl
  | nothing => exact fun c hc => absurd hc List.not_mem_nil

/-- A contribution is marked if its file only relays the name. -/
theorem Contributes.label_eq (hids : (files.map (·.file)).Nodup) (hg : g ∈ files)
    (hown : g.BindsOwn) : ∀ c ∈ cs,
      (g.analysis.Binds name ∧ c.label = g.file) ∨
      (¬ g.analysis.Binds name ∧ c.label = g.file ++ " (via *)") := by
  have hfile := h.file_eq hown
  cases h with
  | declared hd =>
    rw [List.forall_mem_singleton] at hfile ⊢
    exact .inl ⟨hown.points.binds_iff.2 ⟨_, hd⟩, hfile⟩
  | passedOn hrelays =>
    rw [List.forall_mem_singleton]
    exact .inr ⟨hrelays.not_binds hids hg, rfl⟩
  | nothing => exact fun c hc => absurd hc List.not_mem_nil

end

/-! ## All files -/

/-- A candidate is what the module scope of another file binds the name to, or
    another file that relays the name. -/
theorem mem_candidates_iff (hids : (files.map (·.file)).Nodup)
    (htables : ∀ g ∈ files, g.analysis.TablePoints) {c : Candidate} :
    c ∈ candidates (exports files) name file ↔ ∃ g ∈ files, g.file ≠ file ∧
      ((∃ d, g.analysis.moduleDeclaration? name = some d ∧ c = .declared d) ∨
        (Relays files name g.file ∧ c = .passedOn g.file)) := by
  simp only [candidates_exports hids, List.mem_flatMap, List.mem_filter, bne_iff_ne, corpus,
    Keyed.mem_sort, Exports.candidates, List.mem_append, List.mem_map, Option.mem_toList, and_assoc]
  refine exists_congr fun g => and_congr_right fun hg => and_congr_right fun _ => or_congr ?_ ?_
  · rw [declaration?_offer_eq (htables g hg)]
    exact exists_congr fun d => and_congr_right fun _ => eq_comm
  · rw [← passesOn_offer_iff hids htables hg]
    split
    · rw [List.mem_singleton]
      exact (and_iff_right ‹_›).symm
    · exact ⟨fun h => absurd h List.not_mem_nil, fun h => absurd h.1 ‹_›⟩

section

variable (hids : (files.map (·.file)).Nodup) (hown : ∀ g ∈ files, g.BindsOwn)
include hids hown

/-- The candidates ascend by file, and no file gives two. -/
theorem ascending_candidates : Keyed.Ascending (·.file) (candidates (exports files) name file) := by
  have hcorpus : ((corpus files).filter fun g => g.file != file).Pairwise
      fun g g' => g.file < g'.file := (Keyed.ascending_sort hids).filter _
  have hmem : ∀ g ∈ (corpus files).filter fun g => g.file != file, g ∈ files :=
    fun g hg => Keyed.mem_sort.1 (List.mem_filter.1 hg).1
  have hcontributes : ∀ g ∈ files, Contributes files name g ((offer files g).candidates name) :=
    fun g hg => contributes_offer hids (fun g hg => (hown g hg).points) hg
  rw [candidates_exports hids, Keyed.Ascending, List.pairwise_flatMap]
  constructor
  · intro g hg
    exact (hcontributes g (hmem g hg)).pairwise
  · apply hcorpus.imp_of_mem
    intro g g' hg hg' hlt c hc c' hc'
    have hg := hmem g hg
    have hg' := hmem g' hg'
    rw [(hcontributes g hg).file_eq (hown g hg) c hc,
      (hcontributes g' hg').file_eq (hown g' hg') c' hc']
    exact hlt

/-- A file is among the candidates with one declaration, the one its module
    scope binds the name to. -/
theorem declared_mem_candidates {g : AnalyzedFile} (hg : g ∈ files) {d : Declaration} :
    (.declared d ∈ candidates (exports files) name file ∧ d.file = g.file) ↔
      g.file ≠ file ∧ g.analysis.moduleDeclaration? name = some d := by
  rw [mem_candidates_iff hids fun g hg => (hown g hg).points]
  constructor
  · rintro ⟨⟨h, hh, hne, ⟨e, he, heq⟩ | ⟨-, heq⟩⟩, hfile⟩
    · cases heq
      have hsame : h = g :=
        Keyed.eq_of_key_eq hids hh hg (((hown h hh).own name d he).symm.trans hfile)
      exact hsame ▸ ⟨hne, he⟩
    · cases heq
  · rintro ⟨hne, hd⟩
    exact ⟨⟨g, hg, hne, .inl ⟨d, hd, rfl⟩⟩, (hown g hg).own name d hd⟩

theorem passedOn_mem_candidates {r : String} :
    .passedOn r ∈ candidates (exports files) name file ↔ r ≠ file ∧ Relays files name r := by
  rw [mem_candidates_iff hids fun g hg => (hown g hg).points]
  constructor
  · rintro ⟨g, hg, hne, ⟨d, -, heq⟩ | ⟨hrelays, heq⟩⟩
    · cases heq
    · cases heq
      exact ⟨hne, hrelays⟩
  · rintro ⟨hne, hrelays⟩
    obtain ⟨⟨g, hg, rfl, -⟩, -⟩ := id hrelays
    exact ⟨g, hg, hne, .inr ⟨hrelays, rfl⟩⟩

/-- Every candidate is another file of the corpus. -/
theorem exists_file_of_mem_candidates {c : Candidate}
    (hc : c ∈ candidates (exports files) name file) :
    ∃ g ∈ files, g.file ≠ file ∧ c.file = g.file := by
  rw [mem_candidates_iff hids fun g hg => (hown g hg).points] at hc
  obtain ⟨g, hg, hne, ⟨d, hd, rfl⟩ | ⟨-, rfl⟩⟩ := hc
  · exact ⟨g, hg, hne, (hown g hg).own name d hd⟩
  · exact ⟨g, hg, hne, rfl⟩

end

/-- What a list of candidates must be: strictly ascending by file, with the
    files that bind the name in their module scope and the declaration each of
    them binds it to, with the files that relay it, and with nothing else. -/
structure ListsCandidates (files : List AnalyzedFile) (name file : String)
    (cs : List Candidate) : Prop where
  ascending : Keyed.Ascending (·.file) cs
  declared : ∀ g ∈ files, (∃ d, .declared d ∈ cs ∧ d.file = g.file) ↔
    g.file ≠ file ∧ g.analysis.Binds name
  winning : ∀ g ∈ files, ∀ d, .declared d ∈ cs → d.file = g.file →
    g.analysis.moduleDeclaration? name = some d
  passedOn : ∀ r, .passedOn r ∈ cs ↔ r ≠ file ∧ Relays files name r
  others : ∀ c ∈ cs, ∃ g ∈ files, g.file ≠ file ∧ c.file = g.file

/-- **Candidates are exact.** Where no two files share an identifier and the
    tables of names point at declarations of their own file, the candidates for
    a name are the other files that bind it and those that relay it, whatever
    cycles the wildcard imports form: the search along them is over after as
    many rounds as there are files. -/
theorem candidates_exact (files : List AnalyzedFile) (hids : (files.map (·.file)).Nodup)
    (hown : ∀ g ∈ files, g.BindsOwn) (name file : String) :
    ListsCandidates files name file (candidates (exports files) name file) ∧
    ∀ g ∈ files, ∀ rounds ≥ files.length,
      reach (targetsOf files) rounds [g.file] [g.file] = reachedFrom files g.file := by
  refine ⟨⟨ascending_candidates hids hown, fun g hg => ?_, fun g hg d hd hfile => ?_,
    fun r => passedOn_mem_candidates hids hown,
    fun c => exists_file_of_mem_candidates hids hown⟩, fun g hg rounds hrounds => ?_⟩
  · simp only [declared_mem_candidates hids hown hg, exists_and_left]
    rw [(hown g hg).points.binds_iff]
  · exact ((declared_mem_candidates hids hown hg).1 ⟨hd, hfile⟩).2
  · exact reach_eq_reachedFrom hids hg hrounds

/-- Two packages that import everything from each other, and the module that
    one of them imports everything from as well. -/
def mutualPackages : List AnalyzedFile :=
  [⟨"b.py", Registry.standard.analyze "b.py" "from a import *\nfrom c import *\n"⟩,
    ⟨"c.py", Registry.standard.analyze "c.py" "def run():\n    pass\n"⟩,
    ⟨"a.py", Registry.standard.analyze "a.py" "from b import *\n"⟩]

theorem candidates_exact_mutualPackages :
    (mutualPackages.map (·.file)).Nodup ∧ (∀ g ∈ mutualPackages, g.BindsOwn) ∧
      ListsCandidates mutualPackages "run" "d.py"
        (candidates (exports mutualPackages) "run" "d.py") ∧
      (candidates (exports mutualPackages) "run" "d.py").map (·.label) =
        ["a.py (via *)", "b.py (via *)", "c.py"] := by
  have hids : (mutualPackages.map (·.file)).Nodup := by decide
  have hown : ∀ g ∈ mutualPackages, g.BindsOwn := by
    intro g hg
    obtain ⟨text, hanalysis⟩ : ∃ text, g.analysis = Registry.standard.analyze g.file text := by
      rcases List.mem_cons.1 hg with rfl | hg
      · exact ⟨_, rfl⟩
      · rcases List.mem_pair.1 hg with rfl | rfl
        · exact ⟨_, rfl⟩
        · exact ⟨_, rfl⟩
    exact bindsOwn_of_lastWins (hanalysis ▸ Registry.lastWins_analyze _ _ _)
      (hanalysis ▸ Registry.ownedBy_analyze _ _ _)
  exact ⟨hids, hown, (candidates_exact mutualPackages hids hown "run" "d.py").1, by decide +kernel⟩

/-! ## Where the last declaration wins -/

/-- Every candidate is another file, and how it is shown says whether that file
    declares the name. -/
theorem exists_marked (hids : (files.map (·.file)).Nodup)
    (htables : ∀ g ∈ files, g.analysis.LastWins) (howned : ∀ g ∈ files, g.analysis.OwnedBy g.file)
    {c : Candidate} (hc : c ∈ candidates (exports files) name file) :
    ∃ g ∈ files, g.file ≠ file ∧ c.file = g.file ∧
      ((g.analysis.Declares name ∧ c.label = g.file) ∨
        (¬ g.analysis.Declares name ∧ c.label = g.file ++ " (via *)")) := by
  rw [candidates_exports hids] at hc
  obtain ⟨g, hg, hc⟩ := List.mem_flatMap.1 hc
  obtain ⟨hg, hne⟩ := List.mem_filter.1 hg
  have hg : g ∈ files := Keyed.mem_sort.1 hg
  have hown : g.BindsOwn := bindsOwn_of_lastWins (htables g hg) (howned g hg)
  have hcontributes : Contributes files name g ((offer files g).candidates name) :=
    contributes_offer hids (fun g hg => (htables g hg).tablePoints) hg
  have hlabel := hcontributes.label_eq hids hg hown c hc
  rw [(htables g hg).binds_iff] at hlabel
  exact ⟨g, hg, bne_iff_ne.1 hne, hcontributes.file_eq hown c hc, hlabel⟩

end Linking

end CrossRef
