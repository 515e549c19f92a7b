/-
  CrossRef.Proofs.FileGraph.WellFormed

  What every graph has that was built by adding files and edges, in whatever
  order and however often. No file occurs twice, the two tables of rows agree
  with each other, and an edge is exactly what was added between two
  different files that were known at that time.

  Everything that is said about the order of files starts from
  `wellFormed_ofSteps` and reads the graph through `file` and `dependencies`
  only; how the rows are stored matters nowhere else.
-/
import CrossRef.FileGraph
import Mathlib.Data.List.Nodup
import Mathlib.Tactic.Common

namespace CrossRef

namespace FileGraph

/-! ## Graphs built step by step -/

/-- One change to a graph. -/
inductive Step where
  | addFile (file : String)
  | addEdge (source target : String)
deriving DecidableEq, Repr

/-- The graph after one change. -/
def apply (g : FileGraph) : Step → FileGraph
  | .addFile file => (g.addFile file).2
  | .addEdge source target => (g.addEdge source target).2

/-- The graph that a series of changes makes out of nothing. -/
def ofSteps (steps : List Step) : FileGraph := steps.foldl apply empty

/-! ## Files by number -/

/-- `file` is one of the graph's files. -/
def HasFile (g : FileGraph) (file : String) : Prop := file ∈ g.files.toList

instance (g : FileGraph) (file : String) : Decidable (g.HasFile file) :=
  inferInstanceAs (Decidable (_ ∈ _))

theorem getElem?_files {g : FileGraph} {i : Nat} {f : String} :
    g.files[i]? = some f ↔ i < g.fileCount ∧ g.file i = f := by
  rw [Array.getElem?_eq_some_iff, fileCount]
  constructor
  · rintro ⟨hi, rfl⟩
    exact ⟨hi, by simp [file, hi]⟩
  · rintro ⟨hi, rfl⟩
    exact ⟨hi, by simp [file, hi]⟩

theorem hasFile_iff {g : FileGraph} {f : String} :
    g.HasFile f ↔ ∃ i, i < g.fileCount ∧ g.file i = f := by
  simp only [HasFile, List.mem_iff_getElem?, Array.getElem?_toList, getElem?_files]

theorem hasFile_file {g : FileGraph} {i : Nat} (h : i < g.fileCount) : g.HasFile (g.file i) :=
  hasFile_iff.2 ⟨i, h, rfl⟩

theorem map_file_range (g : FileGraph) : (List.range g.fileCount).map g.file = g.files.toList := by
  apply List.ext_getElem?
  intro i
  have htoList : g.files.toList[i]? = g.files[i]? := Array.getElem?_toList
  rw [List.getElem?_map, htoList]
  by_cases hi : i < g.fileCount
  · rw [List.getElem?_range hi, getElem?_files.2 ⟨hi, rfl⟩, Option.map_some]
  · rw [List.getElem?_eq_none (by simpa using hi), Array.getElem?_eq_none (Nat.not_lt.1 hi),
      Option.map_none]

/-! ## The invariant -/

/-- What adding files and edges keeps. `indexOf?_eq_some_iff` says that the table of
    numbers has every file where it stands among the files, and nothing else;
    `mem_dependents` says that the two tables of rows hold the same edges. -/
structure WellFormed (g : FileGraph) : Prop where
  files_nodup : g.files.toList.Nodup
  indexOf?_eq_some_iff : ∀ {f i}, g.indexOf? f = some i ↔ i < g.fileCount ∧ g.file i = f
  dependencyRows_size : g.dependencyRows.size = g.fileCount
  dependentRows_size : g.dependentRows.size = g.fileCount
  dependencies_nodup : ∀ i, (g.dependencies i).Nodup
  dependents_nodup : ∀ i, (g.dependents i).Nodup
  mem_dependents : ∀ i j, i ∈ g.dependents j ↔ j ∈ g.dependencies i
  ne_of_mem : ∀ i, ∀ j ∈ g.dependencies i, i ≠ j
  lt_of_mem : ∀ i, ∀ j ∈ g.dependencies i, j < g.fileCount

namespace WellFormed

variable {g : FileGraph}

/-- A file without a row has no dependencies. -/
theorem source_lt (wf : g.WellFormed) {i j : Nat} (h : j ∈ g.dependencies i) :
    i < g.fileCount := by
  rw [← wf.dependencyRows_size]
  by_contra hi
  rw [dependencies, Array.getElem?_eq_none (by omega)] at h
  cases h

theorem lt_of_mem_dependents (wf : g.WellFormed) {i j : Nat} (h : i ∈ g.dependents j) :
    i < g.fileCount :=
  wf.source_lt ((wf.mem_dependents i j).1 h)

theorem file_inj (wf : g.WellFormed) {i j : Nat} (hi : i < g.fileCount) (hj : j < g.fileCount)
    (h : g.file i = g.file j) : i = j := by
  have hi' := getElem?_files.2 ⟨hi, rfl⟩
  have hj' := getElem?_files.2 ⟨hj, h.symm⟩
  rw [← Array.getElem?_toList] at hi' hj'
  exact (List.getElem?_inj (by simpa [fileCount] using hi) wf.files_nodup).1 (hi'.trans hj'.symm)

theorem indexOf?_eq_none_iff (wf : g.WellFormed) {f : String} :
    g.indexOf? f = none ↔ ¬ g.HasFile f := by
  rw [hasFile_iff, Option.eq_none_iff_forall_ne_some]
  simp only [ne_eq, wf.indexOf?_eq_some_iff, not_exists]

theorem hasFile_of_indexOf? (wf : g.WellFormed) {f : String} {i : Nat}
    (h : g.indexOf? f = some i) : g.HasFile f :=
  hasFile_iff.2 ⟨i, wf.indexOf?_eq_some_iff.1 h⟩

theorem indexOf?_file (wf : g.WellFormed) {i : Nat} (h : i < g.fileCount) :
    g.indexOf? (g.file i) = some i :=
  wf.indexOf?_eq_some_iff.2 ⟨h, rfl⟩

/-- An edge between identifiers is an entry of a row. -/
theorem hasEdge_iff (wf : g.WellFormed) {a b : String} :
    g.hasEdge a b = true ↔ ∃ i j, j ∈ g.dependencies i ∧ g.file i = a ∧ g.file j = b := by
  constructor
  · intro h
    unfold hasEdge at h
    split at h
    · rename_i i j hi hj
      obtain ⟨-, rfl⟩ := wf.indexOf?_eq_some_iff.1 hi
      obtain ⟨-, rfl⟩ := wf.indexOf?_eq_some_iff.1 hj
      exact ⟨i, j, by simpa using h, rfl, rfl⟩
    · cases h
  · rintro ⟨i, j, hij, rfl, rfl⟩
    rw [hasEdge, wf.indexOf?_file (wf.source_lt hij), wf.indexOf?_file (wf.lt_of_mem i j hij)]
    simpa using hij

theorem hasEdge_file (wf : g.WellFormed) {i j : Nat} (hi : i < g.fileCount)
    (hj : j < g.fileCount) : g.hasEdge (g.file i) (g.file j) = true ↔ j ∈ g.dependencies i := by
  rw [hasEdge, wf.indexOf?_file hi, wf.indexOf?_file hj]
  simp

end WellFormed

theorem wellFormed_empty : WellFormed empty where
  files_nodup := List.nodup_nil
  indexOf?_eq_some_iff := by simp [indexOf?, fileCount, empty]
  dependencyRows_size := rfl
  dependentRows_size := rfl
  dependencies_nodup := by simp [dependencies, empty]
  dependents_nodup := by simp [dependents, empty]
  mem_dependents := by simp [dependents, dependencies, empty]
  ne_of_mem := by simp [dependencies, empty]
  lt_of_mem := by simp [dependencies, empty]

/-! ## Adding a file -/

/-- The graph with one more file, which gets the next number. -/
def pushFile (g : FileGraph) (f : String) : FileGraph :=
  ⟨g.files.push f, (f, g.fileCount) :: g.index, g.dependencyRows.push [],
    g.dependentRows.push []⟩

theorem addFile_of_some {g : FileGraph} {f : String} {i : Nat} (h : g.indexOf? f = some i) :
    g.addFile f = (i, g) := by
  rw [addFile, h]

theorem addFile_of_none {g : FileGraph} {f : String} (h : g.indexOf? f = none) :
    g.addFile f = (g.fileCount, g.pushFile f) := by
  rw [addFile, h]
  rfl

/-- Adding a file does nothing, or puts it behind the others. -/
theorem addFile_cases (g : FileGraph) (f : String) :
    (∃ i, g.indexOf? f = some i ∧ (g.addFile f).2 = g) ∨
      (g.indexOf? f = none ∧ (g.addFile f).2 = g.pushFile f) := by
  cases hi : g.indexOf? f with
  | some i => exact .inl ⟨i, rfl, by rw [addFile_of_some hi]⟩
  | none => exact .inr ⟨rfl, by rw [addFile_of_none hi]⟩

/-- A row that is missing and a row that is empty read the same. -/
theorem getD_push_nil (rows : Array (List Nat)) (i : Nat) :
    (rows.push [])[i]?.getD [] = rows[i]?.getD [] := by
  rw [Array.getElem?_push]
  split
  · rename_i hi
    rw [Array.getElem?_eq_none (Nat.le_of_eq hi.symm), Option.getD_some, Option.getD_none]
  · rfl

@[simp] theorem dependencies_pushFile (g : FileGraph) (f : String) (i : Nat) :
    (g.pushFile f).dependencies i = g.dependencies i := getD_push_nil g.dependencyRows i

@[simp] theorem dependents_pushFile (g : FileGraph) (f : String) (i : Nat) :
    (g.pushFile f).dependents i = g.dependents i := getD_push_nil g.dependentRows i

@[simp] theorem fileCount_pushFile (g : FileGraph) (f : String) :
    (g.pushFile f).fileCount = g.fileCount + 1 := Array.size_push ..

theorem file_pushFile (g : FileGraph) (f : String) (i : Nat) :
    (g.pushFile f).file i = if i = g.fileCount then f else g.file i := by
  rw [file, pushFile, Array.getElem?_push]
  show (if i = g.fileCount then _ else _ : Option String).getD "" = _
  split
  · rfl
  · rfl

theorem indexOf?_pushFile (g : FileGraph) (f x : String) :
    (g.pushFile f).indexOf? x = if x = f then some g.fileCount else g.indexOf? x := by
  rw [indexOf?, pushFile, List.lookup_cons]
  by_cases hx : x = f
  · rw [hx, if_pos rfl, beq_self_eq_true]
  · rw [if_neg hx, beq_eq_false_iff_ne.2 hx]
    rfl

/-- The old files keep their numbers, and the new file has the next. -/
theorem WellFormed.indexOf?_pushFile_iff {g : FileGraph} (wf : g.WellFormed) {f x : String}
    (hnew : g.indexOf? f = none) {i : Nat} :
    (g.pushFile f).indexOf? x = some i ↔
      i < (g.pushFile f).fileCount ∧ (g.pushFile f).file i = x := by
  have hno (hi : i < g.fileCount) : g.file i ≠ f := fun h => by
    rw [wf.indexOf?_eq_some_iff.2 ⟨hi, h⟩] at hnew
    cases hnew
  rw [indexOf?_pushFile, fileCount_pushFile, file_pushFile]
  by_cases hlast : i = g.fileCount
  · have hlt : ¬ g.fileCount < g.fileCount := Nat.lt_irrefl _
    subst hlast
    split
    · rename_i hx
      simp [hx]
    · rename_i hx
      simp [wf.indexOf?_eq_some_iff, Ne.symm hx]
  · rw [if_neg hlast]
    have hbound : i < g.fileCount + 1 ↔ i < g.fileCount := by omega
    split
    · rename_i hx
      rw [hbound, hx]
      exact ⟨fun h => absurd (Option.some.inj h).symm hlast, fun h => absurd h.2 (hno h.1)⟩
    · rw [hbound]
      exact wf.indexOf?_eq_some_iff

theorem WellFormed.pushFile {g : FileGraph} (wf : g.WellFormed) {f : String}
    (hnew : g.indexOf? f = none) : (g.pushFile f).WellFormed where
  files_nodup := by
    rw [FileGraph.pushFile, Array.toList_push, ← List.concat_eq_append]
    exact wf.files_nodup.concat (wf.indexOf?_eq_none_iff.1 hnew)
  indexOf?_eq_some_iff := wf.indexOf?_pushFile_iff hnew
  dependencyRows_size := by
    rw [fileCount_pushFile, ← wf.dependencyRows_size]
    exact Array.size_push ..
  dependentRows_size := by
    rw [fileCount_pushFile, ← wf.dependentRows_size]
    exact Array.size_push ..
  dependencies_nodup i := by
    rw [dependencies_pushFile]
    exact wf.dependencies_nodup i
  dependents_nodup i := by
    rw [dependents_pushFile]
    exact wf.dependents_nodup i
  mem_dependents i j := by
    rw [dependents_pushFile, dependencies_pushFile]
    exact wf.mem_dependents i j
  ne_of_mem i j hj := wf.ne_of_mem i j (dependencies_pushFile g f i ▸ hj)
  lt_of_mem i j hj := by
    have hlt := wf.lt_of_mem i j (dependencies_pushFile g f i ▸ hj)
    rw [fileCount_pushFile]
    omega

theorem wellFormed_addFile {g : FileGraph} (wf : g.WellFormed) (f : String) :
    (g.addFile f).2.WellFormed := by
  rcases g.addFile_cases f with ⟨i, -, h⟩ | ⟨hnew, h⟩
  · rwa [h]
  · rw [h]
    exact wf.pushFile hnew

theorem files_addFile {g : FileGraph} (wf : g.WellFormed) (f : String) :
    (g.addFile f).2.files.toList =
      if g.HasFile f then g.files.toList else g.files.toList ++ [f] := by
  rcases g.addFile_cases f with ⟨i, hi, h⟩ | ⟨hnew, h⟩
  · rw [h, if_pos (wf.hasFile_of_indexOf? hi)]
  · rw [h, if_neg (wf.indexOf?_eq_none_iff.1 hnew)]
    exact Array.toList_push ..

theorem hasFile_addFile {g : FileGraph} (wf : g.WellFormed) {f x : String} :
    (g.addFile f).2.HasFile x ↔ g.HasFile x ∨ x = f := by
  rw [HasFile, files_addFile wf]
  split
  · rename_i h
    exact ⟨.inl, fun hx => hx.elim id fun hxf => hxf ▸ h⟩
  · rw [List.mem_append, List.mem_singleton]; rfl

theorem hasEdge_addFile {g : FileGraph} (wf : g.WellFormed) (f a b : String) :
    (g.addFile f).2.hasEdge a b = g.hasEdge a b := by
  rcases g.addFile_cases f with ⟨i, -, h⟩ | ⟨hnew, h⟩
  · rw [h]
  rw [h, Bool.eq_iff_iff, (wf.pushFile hnew).hasEdge_iff, wf.hasEdge_iff]
  refine exists_congr fun i => exists_congr fun j => ?_
  rw [dependencies_pushFile]
  -- both ends of an edge are files, which keep their numbers
  refine and_congr_right fun hij => ?_
  have hi := wf.source_lt hij
  have hj := wf.lt_of_mem i j hij
  rw [file_pushFile, file_pushFile, if_neg (Nat.ne_of_lt hi), if_neg (Nat.ne_of_lt hj)]

/-! ## Adding an edge -/

/-- The graph with one more edge, from file `i` to file `j`. -/
def pushEdge (g : FileGraph) (i j : Nat) : FileGraph :=
  { g with
    dependencyRows := g.dependencyRows.modify i (· ++ [j])
    dependentRows := g.dependentRows.modify j (· ++ [i]) }

/-- Adding an edge does nothing, or puts one new entry into either table. -/
theorem addEdge_cases {g : FileGraph} (wf : g.WellFormed) (a b : String) :
    (g.addEdge a b = (false, g) ∧ (g.HasFile a → g.HasFile b → a ≠ b → g.hasEdge a b = true)) ∨
    ∃ i j, i < g.fileCount ∧ j < g.fileCount ∧ g.file i = a ∧ g.file j = b ∧ i ≠ j ∧
      j ∉ g.dependencies i ∧ g.addEdge a b = (true, g.pushEdge i j) := by
  cases hi : g.indexOf? a with
  | none => exact .inl ⟨by rw [addEdge, hi], fun ha => absurd ha (wf.indexOf?_eq_none_iff.1 hi)⟩
  | some i =>
    cases hj : g.indexOf? b with
    | none =>
      exact .inl ⟨by rw [addEdge, hi, hj], fun _ hb => absurd hb (wf.indexOf?_eq_none_iff.1 hj)⟩
    | some j =>
      obtain ⟨hi', rfl⟩ := wf.indexOf?_eq_some_iff.1 hi
      obtain ⟨hj', rfl⟩ := wf.indexOf?_eq_some_iff.1 hj
      -- the edge is left out if it leads back or is there already
      by_cases hold : i = j ∨ j ∈ g.dependencies i
      · refine .inl ⟨by simp only [addEdge, hi, hj, if_pos hold], fun _ _ hne => ?_⟩
        rcases hold with rfl | hold
        · exact absurd rfl hne
        · exact (wf.hasEdge_file hi' hj').2 hold
      · refine .inr ⟨i, j, hi', hj', rfl, rfl, fun h => hold (.inl h), fun h => hold (.inr h), ?_⟩
        simp only [addEdge, hi, hj, if_neg hold, pushEdge]

theorem getD_modify_append {rows : Array (List Nat)} {i : Nat} (hi : i < rows.size) (j k : Nat) :
    (rows.modify i (· ++ [j]))[k]?.getD [] =
      if i = k then rows[k]?.getD [] ++ [j] else rows[k]?.getD [] := by
  rw [Array.getElem?_modify]
  split
  · rename_i hik
    subst hik
    rw [Array.getElem?_eq_getElem hi, Option.map_some, Option.getD_some, Option.getD_some]
  · rfl

namespace WellFormed

variable {g : FileGraph} {i j : Nat}

theorem dependencies_pushEdge (wf : g.WellFormed) (hi : i < g.fileCount) (k : Nat) :
    (g.pushEdge i j).dependencies k =
      if i = k then g.dependencies k ++ [j] else g.dependencies k :=
  getD_modify_append (by rw [wf.dependencyRows_size]; exact hi) j k

theorem dependents_pushEdge (wf : g.WellFormed) (hj : j < g.fileCount) (k : Nat) :
    (g.pushEdge i j).dependents k =
      if j = k then g.dependents k ++ [i] else g.dependents k :=
  getD_modify_append (by rw [wf.dependentRows_size]; exact hj) i k

theorem mem_dependencies_pushEdge (wf : g.WellFormed) (hi : i < g.fileCount) {k l : Nat} :
    l ∈ (g.pushEdge i j).dependencies k ↔ l ∈ g.dependencies k ∨ (k = i ∧ l = j) := by
  rw [wf.dependencies_pushEdge hi]
  split
  · rename_i h
    simp [h]
  · rename_i h
    simp [Ne.symm h]

theorem mem_dependents_pushEdge (wf : g.WellFormed) (hj : j < g.fileCount) {k l : Nat} :
    l ∈ (g.pushEdge i j).dependents k ↔ l ∈ g.dependents k ∨ (k = j ∧ l = i) := by
  rw [wf.dependents_pushEdge hj]
  split
  · rename_i h
    simp [h]
  · rename_i h
    simp [Ne.symm h]

theorem pushEdge (wf : g.WellFormed) (hi : i < g.fileCount) (hj : j < g.fileCount)
    (hne : i ≠ j) (hnew : j ∉ g.dependencies i) : (g.pushEdge i j).WellFormed where
  files_nodup := wf.files_nodup
  indexOf?_eq_some_iff := wf.indexOf?_eq_some_iff
  dependencyRows_size := by
    rw [FileGraph.pushEdge, Array.size_modify, wf.dependencyRows_size]; rfl
  dependentRows_size := by
    rw [FileGraph.pushEdge, Array.size_modify, wf.dependentRows_size]; rfl
  dependencies_nodup := fun k => by
    rw [wf.dependencies_pushEdge hi]
    split
    · rename_i hik
      subst hik
      rw [← List.concat_eq_append]
      exact (wf.dependencies_nodup i).concat hnew
    · exact wf.dependencies_nodup k
  dependents_nodup := fun k => by
    have hnew' : i ∉ g.dependents j := fun h => hnew ((wf.mem_dependents i j).1 h)
    rw [wf.dependents_pushEdge hj]
    split
    · rename_i hjk
      subst hjk
      rw [← List.concat_eq_append]
      exact (wf.dependents_nodup j).concat hnew'
    · exact wf.dependents_nodup k
  mem_dependents := fun k l => by
    rw [wf.mem_dependents_pushEdge hj, wf.mem_dependencies_pushEdge hi, wf.mem_dependents k l,
      and_comm (a := l = j)]
  ne_of_mem := fun k l hl => by
    rcases (wf.mem_dependencies_pushEdge hi).1 hl with hl | ⟨rfl, rfl⟩
    · exact wf.ne_of_mem k l hl
    · exact hne
  lt_of_mem := fun k l hl => by
    rcases (wf.mem_dependencies_pushEdge hi).1 hl with hl | ⟨-, rfl⟩
    · exact wf.lt_of_mem k l hl
    · exact hj

end WellFormed

theorem wellFormed_addEdge {g : FileGraph} (wf : g.WellFormed) (a b : String) :
    (g.addEdge a b).2.WellFormed := by
  rcases addEdge_cases wf a b with ⟨h, -⟩ | ⟨i, j, hi, hj, -, -, hne, hnew, h⟩
  · rwa [h]
  · rw [h]
    exact wf.pushEdge hi hj hne hnew

theorem files_addEdge (g : FileGraph) (a b : String) : (g.addEdge a b).2.files = g.files := by
  unfold addEdge
  split
  · split <;> rfl
  · rfl

theorem hasFile_addEdge {g : FileGraph} {a b x : String} :
    (g.addEdge a b).2.HasFile x ↔ g.HasFile x := by
  rw [HasFile, files_addEdge, HasFile]

/-- An edge is there afterwards if it was there before, or if it is the added
    one and both its ends are known and different. -/
theorem hasEdge_addEdge {g : FileGraph} (wf : g.WellFormed) {a b x y : String} :
    (g.addEdge a b).2.hasEdge x y = true ↔
      g.hasEdge x y = true ∨ (x = a ∧ y = b ∧ g.HasFile a ∧ g.HasFile b ∧ a ≠ b) := by
  rcases addEdge_cases wf a b with ⟨h, hold⟩ | ⟨i, j, hi, hj, rfl, rfl, hne, hnew, h⟩
  · rw [h]
    constructor
    · exact .inl
    · rintro (h | ⟨rfl, rfl, ha, hb, hab⟩)
      · exact h
      · exact hold ha hb hab
  · have hfile : ∀ k, (g.pushEdge i j).file k = g.file k := fun _ => rfl
    rw [h, (wf.pushEdge hi hj hne hnew).hasEdge_iff, wf.hasEdge_iff]
    simp only [wf.mem_dependencies_pushEdge hi, hfile]
    constructor
    · rintro ⟨k, l, hkl | ⟨rfl, rfl⟩, rfl, rfl⟩
      · exact .inl ⟨k, l, hkl, rfl, rfl⟩
      · exact .inr ⟨rfl, rfl, hasFile_file hi, hasFile_file hj, fun h => hne (wf.file_inj hi hj h)⟩
    · rintro (⟨k, l, hkl, rfl, rfl⟩ | ⟨rfl, rfl, -⟩)
      · exact ⟨k, l, .inl hkl, rfl, rfl⟩
      · exact ⟨i, j, .inr ⟨rfl, rfl⟩, rfl, rfl⟩

/-! ## Whole graphs -/

theorem wellFormed_apply {g : FileGraph} (wf : g.WellFormed) (s : Step) :
    (g.apply s).WellFormed := by
  cases s with
  | addFile f => exact wellFormed_addFile wf f
  | addEdge a b => exact wellFormed_addEdge wf a b

theorem wellFormed_foldl {g : FileGraph} (wf : g.WellFormed) (steps : List Step) :
    (steps.foldl apply g).WellFormed := by
  induction steps generalizing g with
  | nil => exact wf
  | cons s steps ih => exact ih (wellFormed_apply wf s)

/-- Every series of changes leaves a well-formed graph. -/
theorem wellFormed_ofSteps (steps : List Step) : (ofSteps steps).WellFormed :=
  wellFormed_foldl wellFormed_empty steps

end FileGraph

end CrossRef
