/-
  CrossRef.Proofs.FileGraph.Edges

  The edges of a graph as a list of pairs, and the edges of a graph of links.
  The list of a well-formed graph ascends strictly and holds exactly the pairs
  of `hasEdge`, so graphs with the same edges have the same list and the same
  number of edges. A graph of links has an edge for every two different known
  files with a link from the one to the other.
-/
import CrossRef.Proofs.FileGraph.WellFormed
import CrossRef.Proofs.Keyed

namespace CrossRef

namespace FileGraph

/-! ## The order of pairs -/

theorem pairLE_iff {a b : String × String} :
    pairLE a b = true ↔ a.1 < b.1 ∨ (a.1 = b.1 ∧ a.2 ≤ b.2) := by
  rw [pairLE, Bool.or_eq_true, Bool.and_eq_true, decide_eq_true_eq, decide_eq_true_eq, beq_iff_eq]

theorem pairLE_total (a b : String × String) : (pairLE a b || pairLE b a) = true := by
  rw [Bool.or_eq_true, pairLE_iff, pairLE_iff]
  rcases lt_trichotomy a.1 b.1 with h | h | h
  · exact .inl (.inl h)
  · exact (String.le_total a.2 b.2).imp (fun h' => .inr ⟨h, h'⟩) fun h' => .inr ⟨h.symm, h'⟩
  · exact .inr (.inl h)

theorem pairLE_trans (a b c : String × String) (hab : pairLE a b = true)
    (hbc : pairLE b c = true) : pairLE a c = true := by
  rw [pairLE_iff] at *
  rcases hab with hab | ⟨hab, hab'⟩
  · rcases hbc with hbc | ⟨hbc, -⟩
    · exact .inl (String.lt_trans hab hbc)
    · exact .inl (hbc ▸ hab)
  · rcases hbc with hbc | ⟨hbc, hbc'⟩
    · exact .inl (hab ▸ hbc)
    · exact .inr ⟨hab.trans hbc, String.le_trans hab' hbc'⟩

theorem pairLE_antisymm {a b : String × String} (hab : pairLE a b = true)
    (hba : pairLE b a = true) : a = b := by
  rw [pairLE_iff] at *
  rcases hab with hab | ⟨hab, hab'⟩
  · rcases hba with hba | ⟨hba, -⟩
    · exact absurd hba (String.lt_asymm hab)
    · exact absurd (hba ▸ hab) (String.lt_irrefl _)
  · rcases hba with hba | ⟨-, hba'⟩
    · exact absurd (hab ▸ hba) (String.lt_irrefl _)
    · exact Prod.ext hab (String.le_antisymm hab' hba')

/-! ## The list of edges -/

/-- Every edge as a pair of identifiers, row by row. -/
def rowPairs (g : FileGraph) : List (String × String) :=
  (List.range g.fileCount).flatMap fun i => (g.dependencies i).map fun j => (g.file i, g.file j)

theorem edges_perm (g : FileGraph) : g.edges.Perm g.rowPairs := Keyed.sortBy_perm _ _

namespace WellFormed

variable {g h : FileGraph}

theorem mem_rowPairs (wf : g.WellFormed) {a b : String} :
    (a, b) ∈ g.rowPairs ↔ g.hasEdge a b = true := by
  rw [wf.hasEdge_iff, rowPairs, List.mem_flatMap]
  constructor
  · rintro ⟨i, -, hi⟩
    obtain ⟨j, hij, heq⟩ := List.mem_map.1 hi
    obtain ⟨rfl, rfl⟩ := Prod.mk.inj heq
    exact ⟨i, j, hij, rfl, rfl⟩
  · rintro ⟨i, j, hij, rfl, rfl⟩
    exact ⟨i, List.mem_range.2 (wf.source_lt hij), List.mem_map.2 ⟨j, hij, rfl⟩⟩

theorem mem_edges (wf : g.WellFormed) {a b : String} :
    (a, b) ∈ g.edges ↔ g.hasEdge a b = true := by
  rw [g.edges_perm.mem_iff, wf.mem_rowPairs]

theorem nodup_rowPairs (wf : g.WellFormed) : g.rowPairs.Nodup := by
  rw [rowPairs, List.nodup_flatMap]
  constructor
  -- within one row the targets differ, and in different rows the sources do
  · intro i _
    refine List.Nodup.map_on (fun j hj k hk heq => ?_) (wf.dependencies_nodup i)
    exact wf.file_inj (wf.lt_of_mem i j hj) (wf.lt_of_mem i k hk) (Prod.mk.inj heq).2
  · refine List.Pairwise.imp_of_mem (fun hi hk hne p hpi hpk => ?_) List.nodup_range
    obtain ⟨j, -, rfl⟩ := List.mem_map.1 hpi
    obtain ⟨l, -, heq⟩ := List.mem_map.1 hpk
    exact hne (wf.file_inj (List.mem_range.1 hi) (List.mem_range.1 hk) (Prod.mk.inj heq).1.symm)

theorem nodup_edges (wf : g.WellFormed) : g.edges.Nodup :=
  g.edges_perm.nodup_iff.2 wf.nodup_rowPairs

/-- Graphs with the same edges list them alike. -/
theorem edges_eq (wfg : g.WellFormed) (wfh : h.WellFormed)
    (heq : ∀ a b, g.hasEdge a b = h.hasEdge a b) : g.edges = h.edges := by
  have hperm : g.edges.Perm h.edges := by
    rw [List.perm_ext_iff_of_nodup wfg.nodup_edges wfh.nodup_edges]
    rintro ⟨a, b⟩
    rw [wfg.mem_edges, wfh.mem_edges, heq]
  exact hperm.eq_of_pairwise (fun _ _ _ _ => pairLE_antisymm)
    (Keyed.pairwise_sortBy pairLE_total pairLE_trans _)
    (Keyed.pairwise_sortBy pairLE_total pairLE_trans _)

/-- The rows in order are what `dependencies` reads. -/
theorem dependencyRows_eq (wf : g.WellFormed) :
    g.dependencyRows.toList = (List.range g.fileCount).map g.dependencies := by
  apply List.ext_getElem?
  intro i
  have htoList : g.dependencyRows.toList[i]? = g.dependencyRows[i]? := Array.getElem?_toList
  rw [htoList, List.getElem?_map]
  by_cases hi : i < g.fileCount
  · have hi' : i < g.dependencyRows.size := by rw [wf.dependencyRows_size]; exact hi
    rw [List.getElem?_range hi, Option.map_some, dependencies, Array.getElem?_eq_getElem hi',
      Option.getD_some]
  · have hi' : g.dependencyRows.size ≤ i := by rw [wf.dependencyRows_size]; exact Nat.not_lt.1 hi
    rw [List.getElem?_eq_none (by simpa using hi), Array.getElem?_eq_none hi', Option.map_none]

theorem edgeCount_eq (wf : g.WellFormed) : g.edgeCount = g.edges.length := by
  rw [g.edges_perm.length_eq, edgeCount, wf.dependencyRows_eq, rowPairs, List.length_flatMap,
    List.length_flatten, List.map_map]
  simp only [Function.comp_def, List.length_map]

end WellFormed

/-! ## Graphs of links -/

/-- The changes that make the graph of links: first the files, then an edge for each link. -/
theorem ofLinks_eq_ofSteps (files : List String) (links : List Link) :
    ofLinks files links = ofSteps (files.map .addFile ++
      links.map fun l => .addEdge l.usage.file l.declaration.file) := by
  rw [ofLinks, ofSteps, List.foldl_append, List.foldl_map, List.foldl_map]
  rfl

theorem wellFormed_ofLinks (files : List String) (links : List Link) :
    (ofLinks files links).WellFormed := by
  rw [ofLinks_eq_ofSteps]
  exact wellFormed_ofSteps _

/-- The graph of the files alone. -/
def ofFiles (files : List String) : FileGraph := files.foldl (fun g f => (g.addFile f).2) empty

theorem wellFormed_ofFiles (files : List String) : (ofFiles files).WellFormed :=
  wellFormed_ofLinks files []

theorem files_foldl_addFile {g : FileGraph} (wf : g.WellFormed) {files : List String}
    (h : (g.files.toList ++ files).Nodup) :
    (files.foldl (fun g f => (g.addFile f).2) g).files.toList = g.files.toList ++ files := by
  induction files generalizing g with
  | nil => rw [List.foldl_nil, List.append_nil]
  | cons f fs ih =>
    have hf : ¬ g.HasFile f := fun hf =>
      (List.nodup_append.1 h).2.2 f hf f (List.mem_cons_self ..) rfl
    have hfiles : (g.addFile f).2.files.toList = g.files.toList ++ [f] := by
      rw [files_addFile wf, if_neg hf]
    have happend : g.files.toList ++ f :: fs = g.files.toList ++ [f] ++ fs := by simp
    rw [List.foldl_cons, happend, ← hfiles]
    exact ih (wellFormed_addFile wf f) (by rw [hfiles, ← happend]; exact h)

theorem files_foldl_addEdge (g : FileGraph) (links : List Link) :
    (links.foldl (fun g l => (g.addEdge l.usage.file l.declaration.file).2) g).files =
      g.files := by
  induction links generalizing g with
  | nil => rfl
  | cons l ls ih => rw [List.foldl_cons, ih, files_addEdge]

/-- The files of a graph of links are the given ones, in their order. -/
theorem files_ofLinks {files : List String} (h : files.Nodup) (links : List Link) :
    (ofLinks files links).files.toList = files := by
  have hempty : empty.files.toList ++ files = files := rfl
  rw [ofLinks, files_foldl_addEdge, files_foldl_addFile wellFormed_empty (by rwa [hempty]), hempty]

theorem hasFile_foldl_addFile {g : FileGraph} (wf : g.WellFormed) {files : List String}
    {f : String} :
    (files.foldl (fun g f => (g.addFile f).2) g).HasFile f ↔ g.HasFile f ∨ f ∈ files := by
  induction files generalizing g with
  | nil => simp
  | cons x xs ih =>
    rw [List.foldl_cons, ih (wellFormed_addFile wf x), hasFile_addFile wf, List.mem_cons, or_assoc]

theorem hasFile_ofLinks (files : List String) (links : List Link) (f : String) :
    (ofLinks files links).HasFile f ↔ f ∈ files := by
  have hempty : ¬ empty.HasFile f := List.not_mem_nil
  rw [HasFile, ofLinks, files_foldl_addEdge, ← HasFile, hasFile_foldl_addFile wellFormed_empty,
    or_iff_right hempty]

theorem hasEdge_foldl_addEdge {g : FileGraph} (wf : g.WellFormed) {links : List Link}
    {a b : String} :
    (links.foldl (fun g l => (g.addEdge l.usage.file l.declaration.file).2) g).hasEdge a b = true ↔
      g.hasEdge a b = true ∨ (g.HasFile a ∧ g.HasFile b ∧ a ≠ b ∧
        ∃ l ∈ links, l.usage.file = a ∧ l.declaration.file = b) := by
  induction links generalizing g with
  | nil => simp
  | cons l ls ih =>
    rw [List.foldl_cons, ih (wellFormed_addEdge wf _ _), hasEdge_addEdge wf]
    simp only [hasFile_addEdge, List.mem_cons, exists_eq_or_imp]
    constructor
    · rintro ((h | ⟨rfl, rfl, ha, hb, hne⟩) | ⟨ha, hb, hne, h⟩)
      · exact .inl h
      · exact .inr ⟨ha, hb, hne, .inl ⟨rfl, rfl⟩⟩
      · exact .inr ⟨ha, hb, hne, .inr h⟩
    · rintro (h | ⟨ha, hb, hne, ⟨rfl, rfl⟩ | h⟩)
      · exact .inl (.inl h)
      · exact .inl (.inr ⟨rfl, rfl, ha, hb, hne⟩)
      · exact .inr ⟨ha, hb, hne, h⟩

theorem hasEdge_foldl_addFile {g : FileGraph} (wf : g.WellFormed) (files : List String)
    (a b : String) :
    (files.foldl (fun g f => (g.addFile f).2) g).hasEdge a b = g.hasEdge a b := by
  induction files generalizing g with
  | nil => rfl
  | cons f fs ih => rw [List.foldl_cons, ih (wellFormed_addFile wf f), hasEdge_addFile wf]

theorem hasEdge_empty (a b : String) : empty.hasEdge a b = false := by
  simp [hasEdge, indexOf?, empty]

theorem not_hasEdge_ofFiles (files : List String) (a b : String) :
    (ofFiles files).hasEdge a b = false := by
  rw [ofFiles, hasEdge_foldl_addFile wellFormed_empty, hasEdge_empty]

/-- An edge of a graph of links is a link between two different known files. -/
theorem hasEdge_ofLinks {files : List String} {links : List Link} {a b : String} :
    (ofLinks files links).hasEdge a b = true ↔
      a ∈ files ∧ b ∈ files ∧ a ≠ b ∧ ∃ l ∈ links, l.usage.file = a ∧ l.declaration.file = b := by
  have hfile : ∀ f, (ofFiles files).HasFile f ↔ f ∈ files := hasFile_ofLinks files []
  have hedges : ofLinks files links =
      links.foldl (fun g l => (g.addEdge l.usage.file l.declaration.file).2) (ofFiles files) := rfl
  rw [hedges, hasEdge_foldl_addEdge (wellFormed_ofFiles files), not_hasEdge_ofFiles, hfile, hfile]
  simp

end FileGraph

end CrossRef
