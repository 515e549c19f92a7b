/-
  CrossRef.Proofs.Linking.Resolution

  What every usage of a corpus means, in terms of the declarations of the
  files alone (`Means`), and that linking finds exactly this.

  Other files come in by number: the candidates for a name are the files that
  declare it and the files that pass it on, each once, so their count is that
  of the two sets together (`length_candidates`). One candidate is a link if
  it is a declaration, and several are ambiguous.
-/
import CrossRef.Proofs.Linking.Exports
import Mathlib.Data.Set.Card

namespace CrossRef

namespace Linking

variable {files : List AnalyzedFile} {acrossFiles : Bool} {f : AnalyzedFile} {name file : String}

/-! ## Files that offer a name -/

/-- The files other than `file` that declare the name in their module scope. -/
def declaring (files : List AnalyzedFile) (name file : String) : Set String :=
  {b | b ≠ file ∧ ∃ g ∈ files, g.file = b ∧ g.analysis.Declares name}

/-- The files other than `file` that pass the name on. -/
def passing (files : List AnalyzedFile) (name file : String) : Set String :=
  {b | b ≠ file ∧ PassesOn files name b}

/-- What other files offer `file` under a name. -/
inductive IsCandidate (files : List AnalyzedFile) (name file : String) : Candidate → Prop where
  | declared {g : AnalyzedFile} {d : Declaration} :
      g ∈ files → g.file ≠ file → g.analysis.LastModuleDeclaration name d →
      IsCandidate files name file (.declared d)
  | passedOn {b : String} : b ∈ passing files name file → IsCandidate files name file (.passedOn b)

/-- The declaration, by number, that the scopes of a file bind the name of a usage to. -/
def bound? (f : AnalyzedFile) (u : Usage) : Option Nat :=
  f.analysis.scopes.lookup (f.analysis.scopes.scopeAt u.position) u.identifier

/-- What a usage `u` in the file `f` means. -/
inductive Means (files : List AnalyzedFile) (acrossFiles : Bool) (f : AnalyzedFile) (u : Usage) :
    Resolution → Prop where
  /-- The scopes around the usage bind the name. -/
  | sameFile {i : Nat} {d : Declaration} :
      bound? f u = some i → f.analysis.declarations[i]? = some d →
      Means files acrossFiles f u (.sameFile d)
  /-- They do not, and other files do not count. -/
  | alone : bound? f u = none → acrossFiles = false → Means files acrossFiles f u .unresolved
  /-- Several other files offer the name. -/
  | ambiguous {cs : List Candidate} :
      bound? f u = none → acrossFiles = true →
      2 ≤ (declaring files u.identifier f.file).ncard + (passing files u.identifier f.file).ncard →
      (∀ c, c ∈ cs ↔ IsCandidate files u.identifier f.file c) →
      Means files acrossFiles f u (.ambiguous cs)
  /-- One other file declares the name, and none passes it on. -/
  | crossFile {g : AnalyzedFile} {d : Declaration} :
      bound? f u = none → acrossFiles = true →
      g ∈ files →
      declaring files u.identifier f.file = {g.file} →
      passing files u.identifier f.file = ∅ →
      g.analysis.LastModuleDeclaration u.identifier d →
      Means files acrossFiles f u (.crossFile d)
  /-- No other file declares the name, and at most one passes it on. -/
  | unresolved :
      bound? f u = none → acrossFiles = true →
      declaring files u.identifier f.file = ∅ →
      (passing files u.identifier f.file).ncard ≤ 1 →
      Means files acrossFiles f u .unresolved

/-! ## Candidates -/

theorem candidates_exports (hids : (files.map (·.file)).Nodup) :
    candidates (exports files) name file =
      ((corpus files).filter fun g => g.file != file).flatMap
        fun g => (offer files g).candidates name := by
  rw [candidates, exports_eq hids, List.filter_map, List.flatMap_map]
  rfl

/-- A candidate is a declaration of another file, or another file that passes the name on. -/
theorem mem_candidates (hids : (files.map (·.file)).Nodup)
    (htables : ∀ g ∈ files, g.analysis.LastWins) {c : Candidate} :
    c ∈ candidates (exports files) name file ↔ IsCandidate files name file c := by
  simp only [candidates_exports hids, List.mem_flatMap, List.mem_filter, bne_iff_ne, corpus,
    Keyed.mem_sort, Exports.candidates, List.mem_append, List.mem_map, Option.mem_toList]
  constructor
  · rintro ⟨g, ⟨hg, hne⟩, ⟨d, hd, rfl⟩ | hpassed⟩
    · exact .declared hg hne ((declaration?_offer (htables g hg)).1 hd)
    · split at hpassed
      · rename_i hpasses
        rw [List.mem_singleton.1 hpassed]
        exact .passedOn ⟨hne, (passesOn_offer hids htables hg).1 hpasses⟩
      · cases hpassed
  · intro hc
    cases hc with
    | declared hg hne hd =>
      exact ⟨_, ⟨hg, hne⟩, .inl ⟨_, (declaration?_offer (htables _ hg)).2 hd, rfl⟩⟩
    | passedOn hb =>
      obtain ⟨hne, hpasses⟩ := hb
      obtain ⟨⟨g, hg, rfl, -⟩, -⟩ := id hpasses
      refine ⟨g, ⟨hg, hne⟩, .inr ?_⟩
      rw [if_pos ((passesOn_offer hids htables hg).2 hpasses)]
      exact List.mem_singleton_self _

/-- Every entry of an index counts once for its declaration and once for passing on. -/
theorem length_flatMap_candidates (index : List Exports) (name : String) :
    (index.flatMap (·.candidates name)).length =
      index.countP (fun e => (e.declaration? name).isSome) + index.countP (·.passesOn name) := by
  induction index with
  | nil => rfl
  | cons e index ih =>
    have hlen : (e.candidates name).length =
        (if (e.declaration? name).isSome then 1 else 0) + if e.passesOn name then 1 else 0 := by
      rw [Exports.candidates, List.length_append, List.length_map]
      congr 1
      · cases e.declaration? name <;> rfl
      · split <;> rfl
    rw [List.flatMap_cons, List.length_append, ih, hlen, List.countP_cons, List.countP_cons]
    omega

/-- A set of files is as large as the number of files that belong to it. -/
theorem ncard_eq_countP (hids : (files.map (·.file)).Nodup) {s : Set String}
    {p : AnalyzedFile → Bool} (h : ∀ b, b ∈ s ↔ ∃ g ∈ files, g.file = b ∧ p g = true) :
    s.Finite ∧ s.ncard = files.countP p := by
  have hs : s = ↑(((files.filter p).map (·.file)).toFinset) := by
    ext b
    simp only [h, List.coe_toFinset, List.mem_map, List.mem_filter, Set.mem_ofPred_eq]
    constructor
    · rintro ⟨g, hg, hfile, hp⟩
      exact ⟨g, ⟨hg, hp⟩, hfile⟩
    · rintro ⟨g, ⟨hg, hp⟩, hfile⟩
      exact ⟨g, hg, hfile, hp⟩
  have hnodup : ((files.filter p).map (·.file)).Nodup :=
    (List.filter_sublist.map fun g : AnalyzedFile => g.file).nodup hids
  refine ⟨hs ▸ Finset.finite_toSet _, ?_⟩
  rw [hs, Set.ncard_coe_finset, List.toFinset_card_of_nodup hnodup, List.length_map,
    List.countP_eq_length_filter]

theorem declaring_spec (hids : (files.map (·.file)).Nodup)
    (htables : ∀ g ∈ files, g.analysis.LastWins) :
    (declaring files name file).Finite ∧ (declaring files name file).ncard =
      files.countP fun g => ((offer files g).declaration? name).isSome && g.file != file := by
  refine ncard_eq_countP hids fun b => ?_
  simp only [declaring, Set.mem_ofPred_eq, Bool.and_eq_true, bne_iff_ne, Option.isSome_iff_exists]
  constructor
  · rintro ⟨hne, g, hg, rfl, hdeclares⟩
    obtain ⟨d, hd⟩ := Analysis.declares_iff.1 hdeclares
    exact ⟨g, hg, rfl, ⟨d, (declaration?_offer (htables g hg)).2 hd⟩, hne⟩
  · rintro ⟨g, hg, rfl, ⟨d, hd⟩, hne⟩
    exact ⟨hne, g, hg, rfl,
      Analysis.declares_iff.2 ⟨d, (declaration?_offer (htables g hg)).1 hd⟩⟩

theorem passing_spec (hids : (files.map (·.file)).Nodup)
    (htables : ∀ g ∈ files, g.analysis.LastWins) :
    (passing files name file).Finite ∧ (passing files name file).ncard =
      files.countP fun g => (offer files g).passesOn name && g.file != file := by
  refine ncard_eq_countP hids fun b => ?_
  simp only [passing, Set.mem_ofPred_eq, Bool.and_eq_true, bne_iff_ne]
  constructor
  · rintro ⟨hne, hpasses⟩
    obtain ⟨⟨g, hg, rfl, -⟩, -⟩ := id hpasses
    exact ⟨g, hg, rfl, (passesOn_offer hids htables hg).2 hpasses, hne⟩
  · rintro ⟨g, hg, rfl, hpasses, hne⟩
    exact ⟨hne, (passesOn_offer hids htables hg).1 hpasses⟩

/-- There are as many candidates as files that declare the name or pass it on. -/
theorem length_candidates (hids : (files.map (·.file)).Nodup)
    (htables : ∀ g ∈ files, g.analysis.LastWins) :
    (candidates (exports files) name file).length =
      (declaring files name file).ncard + (passing files name file).ncard := by
  rw [candidates, length_flatMap_candidates, exports_eq hids, List.countP_filter,
    List.countP_filter, List.countP_map, List.countP_map, (declaring_spec hids htables).2,
    (passing_spec hids htables).2]
  -- the index is sorted, which does not change a count
  have hperm := Keyed.sort_perm (·.file) files
  congr 1
  · exact hperm.countP_eq _
  · exact hperm.countP_eq _

/-! ## Resolution -/

theorem lookup_declared (h : f.analysis.LastWins) {s : ScopeId} {i : Nat}
    (hi : f.analysis.scopes.lookup s name = some i) :
    ∃ d, f.analysis.declarations[i]? = some d := by
  -- some scope of the chain binds the name, and its table points into the file
  obtain ⟨t, -, ht⟩ := List.exists_of_findSome?_eq_some hi
  split at ht
  · obtain ⟨d, hd, -⟩ := ((h t name i).1 ht).1
    exact ⟨d, hd⟩
  · cases ht

/-- What the candidates come down to is what a usage means that its own file
    does not bind. -/
theorem means_ofCandidates (hids : (files.map (·.file)).Nodup)
    (htables : ∀ g ∈ files, g.analysis.LastWins) {u : Usage}
    (hnone : bound? f u = none) :
    Means files true f u
      (.ofCandidates (candidates (exports files) u.identifier f.file)) := by
  have hmem : ∀ c, c ∈ candidates (exports files) u.identifier f.file ↔
      IsCandidate files u.identifier f.file c := fun _ => mem_candidates hids htables
  have hlen : (candidates (exports files) u.identifier f.file).length =
      (declaring files u.identifier f.file).ncard + (passing files u.identifier f.file).ncard :=
    length_candidates hids htables
  have hfinite : (declaring files u.identifier f.file).Finite := (declaring_spec hids htables).1
  have hfinite' : (passing files u.identifier f.file).Finite := (passing_spec hids htables).1
  generalize candidates (exports files) u.identifier f.file = cs at hmem hlen
  match cs with
  | [] =>
    rw [List.length_nil] at hlen
    exact .unresolved hnone rfl ((Set.ncard_eq_zero hfinite).1 (by omega)) (by omega)
  | [.declared d] =>
    rw [List.length_singleton] at hlen
    cases (hmem (.declared d)).1 (List.mem_singleton_self _) with
    | declared hg hne hd =>
      rename_i g
      have hdeclaring : g.file ∈ declaring files u.identifier f.file :=
        ⟨hne, g, hg, rfl, Analysis.declares_iff.2 ⟨d, hd⟩⟩
      -- this file is one of the declaring files, so it is the only one, and none passes it on
      have hpos := (Set.ncard_pos hfinite).2 ⟨_, hdeclaring⟩
      obtain ⟨b, hb⟩ := Set.ncard_eq_one.1
        (show (declaring files u.identifier f.file).ncard = 1 by omega)
      rw [hb, Set.mem_singleton_iff] at hdeclaring
      exact .crossFile hnone rfl hg (hdeclaring ▸ hb)
        ((Set.ncard_eq_zero hfinite').1 (by omega)) hd
  | [.passedOn b] =>
    rw [List.length_singleton] at hlen
    refine .unresolved hnone rfl ?_ (by omega)
    -- a declaring file would be a candidate of another kind
    refine Set.eq_empty_iff_forall_notMem.2 ?_
    rintro _ ⟨hne, g, hg, rfl, hdeclares⟩
    obtain ⟨d, hd⟩ := Analysis.declares_iff.1 hdeclares
    cases List.mem_singleton.1 ((hmem _).2 (.declared hg hne hd))
  | c :: c' :: cs =>
    rw [List.length_cons, List.length_cons] at hlen
    have hambiguous : Resolution.ofCandidates (c :: c' :: cs) = .ambiguous (c :: c' :: cs) := by
      cases c <;> rfl
    rw [hambiguous]
    exact .ambiguous hnone rfl (by omega) hmem

theorem means_resolve (hids : (files.map (·.file)).Nodup)
    (htables : ∀ g ∈ files, g.analysis.LastWins) (hf : f ∈ files) (u : Usage) :
    Means files acrossFiles f u (resolve (exports files) acrossFiles f u) := by
  have hsame : sameFile? f.analysis u = (bound? f u).bind (f.analysis.declarations[·]?) := rfl
  rw [resolve, hsame]
  cases hi : bound? f u with
  | some i =>
    obtain ⟨d, hd⟩ := lookup_declared (htables f hf) hi
    rw [Option.bind_some, hd]
    exact .sameFile hi hd
  | none =>
    cases acrossFiles with
    | false => exact .alone hi rfl
    | true => exact means_ofCandidates hids htables hi

/-! ## Links and counts -/

/-- How many of the outcomes are of which kind. -/
def LinkStats.counts (rs : List Resolution) : LinkStats where
  total := rs.length
  sameFile := rs.countP (· matches .sameFile _)
  crossFile := rs.countP (· matches .crossFile _)
  ambiguous := rs.countP (· matches .ambiguous _)
  unresolved := rs.countP (· matches .unresolved)

theorem LinkStats.foldl_add (n : LinkStats) (os : List (Usage × Resolution)) :
    os.foldl (fun n o => n.add o.2) n =
      ⟨n.total + (counts (os.map (·.2))).total,
        n.sameFile + (counts (os.map (·.2))).sameFile,
        n.crossFile + (counts (os.map (·.2))).crossFile,
        n.ambiguous + (counts (os.map (·.2))).ambiguous,
        n.unresolved + (counts (os.map (·.2))).unresolved⟩ := by
  induction os generalizing n with
  | nil => rfl
  | cons o os ih =>
    obtain ⟨u, r⟩ := o
    rw [List.foldl_cons, ih]
    cases r <;> simp [counts, add] <;> omega

theorem LinkStats.counts_eq_of_perm {rs rs' : List Resolution} (h : rs.Perm rs') :
    counts rs = counts rs' := by
  simp only [counts, h.length_eq, h.countP_eq]

/-- What the usages of all files turn out to mean. -/
def resolutions (files : List AnalyzedFile) (acrossFiles : Bool) : List Resolution :=
  files.flatMap fun f => f.analysis.usages.map (resolve (exports files) acrossFiles f)

theorem stats_ofFiles (files : List AnalyzedFile) (acrossFiles : Bool) :
    (LinkSet.ofFiles files acrossFiles).stats = .counts (resolutions files acrossFiles) := by
  have houtcomes : ((LinkSet.ofFiles files acrossFiles).flatMap (·.outcomes)).map (·.2) =
      (corpus files).flatMap fun f =>
        f.analysis.usages.map (resolve (exports files) acrossFiles f) := by
    rw [LinkSet.ofFiles, List.flatMap_map, List.map_flatMap]
    simp only [List.map_map]
    rfl
  have hperm := (Keyed.sort_perm (·.file) files).flatMap_right
    fun f => f.analysis.usages.map (resolve (exports files) acrossFiles f)
  rw [LinkSet.stats, LinkStats.foldl_add, houtcomes]
  simp only [Nat.zero_add]
  exact LinkStats.counts_eq_of_perm hperm

/-- The entry of a file is the one its links are read from. -/
theorem LinkSet.linksOf_eq {s : LinkSet} (h : (s.map (·.file)).Nodup) {e : LinkedFile}
    (he : e ∈ s) : s.linksOf e.file = e.links := by
  have hfind : s.byFile.find? (·.file == e.file) = some e := by
    rw [LinkSet.byFile, Keyed.table_eq_sort h,
      Keyed.find?_key_eq_some (Keyed.ascending_sort h).nodup_keys, Keyed.mem_sort]
    exact ⟨he, rfl⟩
  rw [LinkSet.linksOf, hfind]

theorem LinkSet.mem_allLinks {s : LinkSet} (h : (s.map (·.file)).Nodup) {l : Link} :
    l ∈ s.allLinks ↔ ∃ e ∈ s, l ∈ s.linksOf e.file := by
  rw [LinkSet.allLinks, LinkSet.byFile, Keyed.table_eq_sort h, List.mem_flatMap]
  simp only [Keyed.mem_sort]
  constructor
  · rintro ⟨e, he, hl⟩
    exact ⟨e, he, (LinkSet.linksOf_eq h he).symm ▸ hl⟩
  · rintro ⟨e, he, hl⟩
    exact ⟨e, he, LinkSet.linksOf_eq h he ▸ hl⟩

/-- The linked files are the files of the corpus in order. -/
theorem map_file_ofFiles (files : List AnalyzedFile) (acrossFiles : Bool) :
    (LinkSet.ofFiles files acrossFiles).map (·.file) = (corpus files).map (·.file) := by
  rw [LinkSet.ofFiles, List.map_map]
  rfl

theorem nodup_ofFiles (hids : (files.map (·.file)).Nodup) :
    ((LinkSet.ofFiles files acrossFiles).map (·.file)).Nodup := by
  rw [map_file_ofFiles]
  exact (Keyed.ascending_sort hids).nodup_keys

/-- The links of a file are those of its usages that name a declaration. -/
theorem linksOf_ofFiles (hids : (files.map (·.file)).Nodup) (hf : f ∈ files) :
    (LinkSet.ofFiles files acrossFiles).linksOf f.file = f.analysis.usages.filterMap fun u =>
      (resolve (exports files) acrossFiles f u).declaration?.map (Link.mk u) := by
  have hmem : LinkedFile.mk f.file (f.analysis.usages.map fun u =>
      (u, resolve (exports files) acrossFiles f u)) ∈ LinkSet.ofFiles files acrossFiles :=
    List.mem_map_of_mem (Keyed.mem_sort.2 hf)
  refine (LinkSet.linksOf_eq (nodup_ofFiles hids) hmem).trans ?_
  exact List.filterMap_map

/-- The links of the corpus are those of its files. -/
theorem mem_allLinks_ofFiles (hids : (files.map (·.file)).Nodup) {l : Link} :
    l ∈ (LinkSet.ofFiles files acrossFiles).allLinks ↔
      ∃ f ∈ files, l ∈ (LinkSet.ofFiles files acrossFiles).linksOf f.file := by
  rw [LinkSet.mem_allLinks (nodup_ofFiles hids)]
  constructor
  · rintro ⟨e, he, hl⟩
    obtain ⟨f, hf, rfl⟩ := List.mem_map.1 he
    exact ⟨f, Keyed.mem_sort.1 hf, hl⟩
  · rintro ⟨f, hf, hl⟩
    exact ⟨_, List.mem_map_of_mem (Keyed.mem_sort.2 hf), hl⟩

/-- Links do not depend on the order in which the files come. -/
theorem ofFiles_eq_of_perm {files' : List AnalyzedFile} (acrossFiles : Bool)
    (hids : (files.map (·.file)).Nodup) (hperm : files.Perm files') :
    LinkSet.ofFiles files acrossFiles = LinkSet.ofFiles files' acrossFiles := by
  rw [LinkSet.ofFiles, LinkSet.ofFiles, exports_eq_of_perm hids hperm,
    Keyed.sort_eq_of_perm hids hperm]

/-- Every usage means what the declarations of the files say, each file has
    the links of its usages in their order, and the counts are those of all
    usages. -/
theorem resolution_exact (files : List AnalyzedFile) (acrossFiles : Bool)
    (hids : (files.map (·.file)).Nodup) (htables : ∀ f ∈ files, f.analysis.LastWins) :
    (∀ f ∈ files, ∀ u ∈ f.analysis.usages,
      Means files acrossFiles f u (resolve (exports files) acrossFiles f u)) ∧
    (∀ f ∈ files, (LinkSet.ofFiles files acrossFiles).linksOf f.file =
      f.analysis.usages.filterMap fun u =>
        (resolve (exports files) acrossFiles f u).declaration?.map (Link.mk u)) ∧
    (LinkSet.ofFiles files acrossFiles).stats = .counts (resolutions files acrossFiles) :=
  ⟨fun _ hf u _ => means_resolve hids htables hf u, fun _ hf => linksOf_ofFiles hids hf,
    stats_ofFiles files acrossFiles⟩

/-- A module that declares a function, and one that calls it. -/
def twoModules : List AnalyzedFile :=
  [⟨"b.py", Registry.standard.analyze "b.py" "run()\n"⟩,
    ⟨"a.py", Registry.standard.analyze "a.py" "def run():\n    pass\n"⟩]

theorem resolution_exact_twoModules :
    (twoModules.map (·.file)).Nodup ∧ (∀ f ∈ twoModules, f.analysis.LastWins) ∧
      (∀ f ∈ twoModules, ∀ u ∈ f.analysis.usages,
        Means twoModules true f u (resolve (exports twoModules) true f u)) ∧
      LinkStats.counts (resolutions twoModules true) = ⟨1, 0, 1, 0, 0⟩ := by
  have hids : (twoModules.map (·.file)).Nodup := by decide
  have htables : ∀ f ∈ twoModules, f.analysis.LastWins := by
    intro f hf
    rcases List.mem_pair.1 hf with rfl | rfl
    · exact Registry.lastWins_analyze _ _ _
    · exact Registry.lastWins_analyze _ _ _
  have hexact := resolution_exact twoModules true hids htables
  have hstats : (LinkSet.ofFiles twoModules true).stats = ⟨1, 0, 1, 0, 0⟩ := by decide +kernel
  exact ⟨hids, htables, hexact.1, hexact.2.2.symm.trans hstats⟩

end Linking

end CrossRef
