/-
  CrossRef.Proofs.FileGraph.History

  What a graph has to do with the changes that made it (`coherent_of_changes`).
  Its files are the added ones, each where it was added first, and a file keeps
  its number whatever comes later. Its edges are those that were added while
  both ends were known and different. A change tells truly which number its
  file has, or whether its edge was added, and if it was not, the graph stays
  as it is.

  A series of changes is taken apart at its end, where the last change finds
  the graph of all others. Graphs of links are no special case: they are made
  by adding the files first and the edges then.
-/
import CrossRef.Proofs.FileGraph.Edges
import Mathlib.Data.List.Induction

namespace CrossRef

namespace FileGraph

variable {g : FileGraph} {a b f : String} {steps : List Step}

/-! ## Numbers of files -/

/-- A file that is there already is not added again. -/
theorem addFile_of_hasFile (wf : g.WellFormed) (h : g.HasFile f) : (g.addFile f).2 = g := by
  rcases g.addFile_cases f with ⟨i, -, hsame⟩ | ⟨hnew, -⟩
  · exact hsame
  · exact absurd h (wf.indexOf?_eq_none_iff.1 hnew)

/-- A new file gets the next number. -/
theorem addFile_fst (g : FileGraph) (f : String) :
    (g.addFile f).1 = (g.indexOf? f).getD g.fileCount := by
  cases hi : g.indexOf? f with
  | some i => rw [addFile_of_some hi, Option.getD_some]
  | none => rw [addFile_of_none hi, Option.getD_none]

/-- The number that comes with the graph is the one that the file has in it. -/
theorem indexOf?_addFile (g : FileGraph) (f : String) :
    (g.addFile f).2.indexOf? f = some (g.addFile f).1 := by
  cases hi : g.indexOf? f with
  | some i => rw [addFile_of_some hi, hi]
  | none => rw [addFile_of_none hi, indexOf?_pushFile, if_pos rfl]

theorem indexOf?_addFile_of_some {i : Nat} (hi : g.indexOf? a = some i) (f : String) :
    (g.addFile f).2.indexOf? a = some i := by
  rcases g.addFile_cases f with ⟨j, -, h⟩ | ⟨hnew, h⟩
  · rw [h, hi]
  · have hne : a ≠ f := by
      rintro rfl
      rw [hnew] at hi
      cases hi
    rw [h, indexOf?_pushFile, if_neg hne, hi]

theorem index_addEdge (g : FileGraph) (a b : String) : (g.addEdge a b).2.index = g.index := by
  unfold addEdge
  split
  · split <;> rfl
  · rfl

/-- A file that has a number keeps it. -/
theorem indexOf?_apply {i : Nat} (hi : g.indexOf? f = some i) (s : Step) :
    (g.apply s).indexOf? f = some i := by
  cases s with
  | addFile x => exact indexOf?_addFile_of_some hi x
  | addEdge x y => rw [apply, indexOf?, index_addEdge, ← indexOf?, hi]

theorem indexOf?_foldl {i : Nat} (hi : g.indexOf? f = some i) (steps : List Step) :
    (steps.foldl apply g).indexOf? f = some i := by
  induction steps generalizing g with
  | nil => exact hi
  | cons s steps ih => exact ih (indexOf?_apply hi s)

/-! ## Changes that add an edge -/

namespace WellFormed

/-- An edge is said to be added if that is what puts it into the graph. -/
theorem addEdge_fst_iff (wf : g.WellFormed) : (g.addEdge a b).1 = true ↔
    g.hasEdge a b = false ∧ (g.addEdge a b).2.hasEdge a b = true := by
  rcases addEdge_cases wf a b with ⟨h, -⟩ | ⟨i, j, hi, hj, rfl, rfl, hne, hnew, h⟩
  · rw [h]
    constructor
    · exact fun hadded => by cases hadded
    · rintro ⟨hnone, hedge⟩
      rw [hnone] at hedge
      cases hedge
  · have hnone : g.hasEdge (g.file i) (g.file j) = false := by
      rw [Bool.eq_false_iff, ne_eq, wf.hasEdge_file hi hj]
      exact hnew
    have hfiles : g.file i ≠ g.file j := fun heq => hne (wf.file_inj hi hj heq)
    have hedge := (hasEdge_addEdge wf).2 (.inr ⟨rfl, rfl, hasFile_file hi, hasFile_file hj, hfiles⟩)
    rw [h] at hedge ⊢
    exact ⟨fun _ => ⟨hnone, hedge⟩, fun _ => rfl⟩

theorem addEdge_snd_of_not_fst (wf : g.WellFormed) (h : (g.addEdge a b).1 = false) :
    (g.addEdge a b).2 = g := by
  rcases addEdge_cases wf a b with ⟨hsame, -⟩ | ⟨i, j, -, -, -, -, -, -, hadded⟩
  · rw [hsame]
  · rw [hadded] at h
    cases h

/-! ## The list of edges and its counts -/

/-- Edges ascend strictly, by the first file and then by the second. -/
theorem edges_ascending (wf : g.WellFormed) :
    g.edges.Pairwise fun p q => p.1 < q.1 ∨ (p.1 = q.1 ∧ p.2 < q.2) := by
  have hsorted := Keyed.pairwise_sortBy pairLE_total pairLE_trans g.rowPairs
  apply hsorted.imp₂ _ wf.nodup_edges
  intro p q hle hne
  rcases pairLE_iff.1 hle with hlt | ⟨heq, hle⟩
  · exact .inl hlt
  · exact .inr ⟨heq, lt_of_le_of_ne hle fun h => hne (Prod.ext heq h)⟩

/-- A file's rows are empty if no edge starts or ends at it. -/
theorem rows_empty_iff (wf : g.WellFormed) {i : Nat} (hi : i < g.fileCount) :
    (g.dependencies i = [] ∧ g.dependents i = []) ↔
      ∀ p ∈ g.edges, p.1 ≠ g.file i ∧ p.2 ≠ g.file i := by
  simp only [List.eq_nil_iff_forall_not_mem]
  constructor
  · rintro ⟨hfrom, hto⟩ ⟨x, y⟩ hp
    obtain ⟨k, j, hkj, rfl, rfl⟩ := wf.hasEdge_iff.1 (wf.mem_edges.1 hp)
    constructor
    · intro heq
      exact hfrom j (wf.file_inj (wf.source_lt hkj) hi heq ▸ hkj)
    · intro heq
      have hj : j = i := wf.file_inj (wf.lt_of_mem k j hkj) hi heq
      exact hto k ((wf.mem_dependents k i).2 (hj ▸ hkj))
  · intro hnone
    have hedge {k j : Nat} (hkj : j ∈ g.dependencies k) : (g.file k, g.file j) ∈ g.edges :=
      wf.mem_edges.2 (wf.hasEdge_iff.2 ⟨k, j, hkj, rfl, rfl⟩)
    exact ⟨fun j hj => (hnone _ (hedge hj)).1 rfl,
      fun k hk => (hnone _ (hedge ((wf.mem_dependents k i).1 hk))).2 rfl⟩

/-- Isolated files are counted as the files that occur in no edge. -/
theorem isolated_eq (wf : g.WellFormed) : g.stats.isolated =
    (g.files.toList.filter fun f => ∀ p ∈ g.edges, p.1 ≠ f ∧ p.2 ≠ f).length := by
  rw [← map_file_range, List.filter_map, List.length_map, stats]
  apply congrArg List.length
  apply List.filter_congr
  intro i hi
  rw [Bool.eq_iff_iff, Bool.and_eq_true, List.isEmpty_iff, List.isEmpty_iff,
    wf.rows_empty_iff (List.mem_range.1 hi), Function.comp_apply, decide_eq_true_eq]

end WellFormed

/-! ## What every graph has -/

/-- All that can be read off a graph fits together: its files, their numbers,
    the two tables of rows, the list of edges and the counts. The next change
    leaves numbers alone. With a file that is added comes its number, and with an
    edge whether it is one that was not there before; otherwise the graph stays
    as it is. -/
structure Coherent (g : FileGraph) : Prop where
  wellFormed : g.WellFormed
  index : ∀ f i, g.indexOf? f = some i ↔ i < g.fileCount ∧ g.file i = f
  dependents : ∀ j, ∀ i ∈ g.dependents j, i < g.fileCount ∧ i ≠ j
  index_kept : ∀ s f i, g.indexOf? f = some i → (g.apply s).indexOf? f = some i
  index_added : ∀ f, (g.addFile f).1 = (g.indexOf? f).getD g.fileCount ∧
    (g.addFile f).2.indexOf? f = some (g.addFile f).1
  file_unchanged : ∀ f, g.HasFile f → (g.addFile f).2 = g
  edge_added : ∀ a b, (g.addEdge a b).1 = true ↔
    g.hasEdge a b = false ∧ (g.addEdge a b).2.hasEdge a b = true
  edge_unchanged : ∀ a b, (g.addEdge a b).1 = false → (g.addEdge a b).2 = g
  edges_ascending : g.edges.Pairwise fun p q => p.1 < q.1 ∨ (p.1 = q.1 ∧ p.2 < q.2)
  mem_edges : ∀ a b, (a, b) ∈ g.edges ↔ g.hasEdge a b = true
  edgeCount : g.edgeCount = g.edges.length
  stats : g.stats = ⟨g.files.toList.length, g.edges.length,
    (g.files.toList.filter fun f => ∀ p ∈ g.edges, p.1 ≠ f ∧ p.2 ≠ f).length⟩

theorem WellFormed.coherent (wf : g.WellFormed) : g.Coherent where
  wellFormed := wf
  index _ _ := wf.indexOf?_eq_some_iff
  dependents j i hi :=
    ⟨wf.lt_of_mem_dependents hi, wf.ne_of_mem i j ((wf.mem_dependents i j).1 hi)⟩
  index_kept s _ _ hi := indexOf?_apply hi s
  index_added f := ⟨addFile_fst g f, indexOf?_addFile g f⟩
  file_unchanged _ := addFile_of_hasFile wf
  edge_added _ _ := wf.addEdge_fst_iff
  edge_unchanged _ _ := wf.addEdge_snd_of_not_fst
  edges_ascending := wf.edges_ascending
  mem_edges _ _ := wf.mem_edges
  edgeCount := wf.edgeCount_eq
  stats := by
    rw [← wf.isolated_eq, ← wf.edgeCount_eq, Array.length_toList]
    rfl

/-! ## Series of changes -/

/-- The file that a change adds. -/
def Step.added? : Step → Option String
  | .addFile file => some file
  | .addEdge _ _ => none

/-- At some point of the series the edge is added when both its ends have been. -/
def AddsKnown (steps : List Step) (a b : String) : Prop :=
  ∃ before after, steps = before ++ .addEdge a b :: after ∧
    .addFile a ∈ before ∧ .addFile b ∈ before

theorem ofSteps_append (steps more : List Step) :
    ofSteps (steps ++ more) = more.foldl apply (ofSteps steps) := List.foldl_append

theorem ofSteps_concat (steps : List Step) (s : Step) :
    ofSteps (steps ++ [s]) = (ofSteps steps).apply s := ofSteps_append steps [s]

theorem addsKnown_concat {s : Step} : AddsKnown (steps ++ [s]) a b ↔
    AddsKnown steps a b ∨
      (s = .addEdge a b ∧ .addFile a ∈ steps ∧ .addFile b ∈ steps) := by
  constructor
  · rintro ⟨before, after, heq, ha, hb⟩
    rcases List.eq_nil_or_concat after with rfl | ⟨after, t, rfl⟩
    · obtain ⟨rfl, hs⟩ := List.append_inj' heq rfl
      exact .inr ⟨List.singleton_inj.1 hs, ha, hb⟩
    · -- the last change of the series comes after the edge
      have hcut : steps ++ [s] = (before ++ .addEdge a b :: after) ++ [t] := by simpa using heq
      exact .inl ⟨before, after, (List.append_inj' hcut rfl).1, ha, hb⟩
  · rintro (⟨before, after, rfl, ha, hb⟩ | ⟨rfl, ha, hb⟩)
    · exact ⟨before, after ++ [s], by simp, ha, hb⟩
    · exact ⟨steps, [], rfl, ha, hb⟩

/-- The files are the added ones, each where it was added first. -/
theorem files_ofSteps (steps : List Step) :
    (ofSteps steps).files.toList = (steps.filterMap Step.added?).eraseDups := by
  induction steps using List.reverseRecOn with
  | nil => rfl
  | append_singleton steps s ih =>
    rw [ofSteps_concat, List.filterMap_append, List.eraseDups_append, ← ih]
    cases s with
    | addEdge x y =>
      rw [apply, files_addEdge]
      exact (List.append_nil _).symm
    | addFile x =>
      have hone : [Step.addFile x].filterMap Step.added? = [x] := rfl
      have hknown : (ofSteps steps).HasFile x ↔ x ∈ steps.filterMap Step.added? := by
        rw [HasFile, ih, List.mem_eraseDups]
      rw [apply, files_addFile (wellFormed_ofSteps steps), hone, List.cons_removeAll,
        List.contains_eq_mem]
      -- a file that is there already is left out of what is still to come
      by_cases hx : (ofSteps steps).HasFile x
      · simp [hx, hknown.1 hx]
      · simp [hx, mt hknown.2 hx, List.eraseDups_cons]

theorem hasFile_ofSteps : (ofSteps steps).HasFile f ↔ .addFile f ∈ steps := by
  rw [HasFile, files_ofSteps, List.mem_eraseDups, List.mem_filterMap]
  constructor
  · rintro ⟨s, hs, hadded⟩
    cases s with
    | addFile x => exact Option.some_inj.1 hadded ▸ hs
    | addEdge x y => cases hadded
  · exact fun hf => ⟨.addFile f, hf, rfl⟩

/-- The edges are those that were added between known and different files. -/
theorem hasEdge_ofSteps (steps : List Step) (a b : String) :
    (ofSteps steps).hasEdge a b = true ↔ a ≠ b ∧ AddsKnown steps a b := by
  induction steps using List.reverseRecOn with
  | nil =>
    constructor
    · intro h
      rw [ofSteps, List.foldl_nil, hasEdge_empty] at h
      cases h
    · rintro ⟨-, before, after, heq, -⟩
      cases before <;> cases heq
  | append_singleton steps s ih =>
    have wf := wellFormed_ofSteps steps
    rw [ofSteps_concat, addsKnown_concat]
    cases s with
    | addFile x =>
      rw [apply, hasEdge_addFile wf, ih]
      simp
    | addEdge x y =>
      rw [apply, hasEdge_addEdge wf, ih, hasFile_ofSteps, hasFile_ofSteps]
      constructor
      · rintro (⟨hne, hold⟩ | ⟨rfl, rfl, ha, hb, hne⟩)
        · exact ⟨hne, .inl hold⟩
        · exact ⟨hne, .inr ⟨rfl, ha, hb⟩⟩
      · rintro ⟨hne, hold | ⟨hs, ha, hb⟩⟩
        · exact .inl ⟨hne, hold⟩
        · obtain ⟨rfl, rfl⟩ := Step.addEdge.inj hs
          exact .inr ⟨rfl, rfl, ha, hb, hne⟩

theorem files_ofLinks_eq_eraseDups (files : List String) (links : List Link) :
    (ofLinks files links).files.toList = files.eraseDups := by
  have hadded : (files.map Step.addFile).filterMap Step.added? = files := by
    rw [List.filterMap_map]
    exact List.filterMap_some
  have hnone : (links.map fun l => Step.addEdge l.usage.file l.declaration.file).filterMap
      Step.added? = [] := by
    rw [List.filterMap_map, List.filterMap_eq_nil_iff]
    exact fun _ _ => rfl
  rw [ofLinks_eq_ofSteps, files_ofSteps, List.filterMap_append, hadded, hnone, List.append_nil]

/-- **A graph is what its changes made of it.** After any series of changes all
    that is read off the graph fits together; the files are in the order of
    their first addition and keep their numbers in all that follows; and the
    edges are those that were added between different files known by then. A
    graph of links is such a graph, and has an edge for every two different
    known files with a link from the one to the other. -/
theorem coherent_of_changes :
    (∀ steps : List Step, (ofSteps steps).Coherent ∧
      (ofSteps steps).files.toList = (steps.filterMap Step.added?).eraseDups ∧
      (∀ a b, (ofSteps steps).hasEdge a b = true ↔ a ≠ b ∧ AddsKnown steps a b) ∧
      ∀ more f i, (ofSteps steps).indexOf? f = some i →
        (ofSteps (steps ++ more)).indexOf? f = some i) ∧
    ∀ (files : List String) (links : List Link), (ofLinks files links).Coherent ∧
      (ofLinks files links).files.toList = files.eraseDups ∧
      ∀ a b, (a, b) ∈ (ofLinks files links).edges ↔ a ∈ files ∧ b ∈ files ∧ a ≠ b ∧
        ∃ l ∈ links, l.usage.file = a ∧ l.declaration.file = b := by
  constructor
  · intro steps
    refine ⟨(wellFormed_ofSteps steps).coherent, files_ofSteps steps, hasEdge_ofSteps steps, ?_⟩
    intro more f i hi
    rw [ofSteps_append]
    exact indexOf?_foldl hi more
  · intro files links
    have wf := wellFormed_ofLinks files links
    refine ⟨wf.coherent, files_ofLinks_eq_eraseDups files links, fun a b => ?_⟩
    rw [wf.mem_edges, hasEdge_ofLinks]

end FileGraph

end CrossRef
