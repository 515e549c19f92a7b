/-
  CrossRef.FileGraph

  Which file depends on which. Files are numbered in the order in which they
  are added, and a table has the number of each; an edge from one file to
  another says that the first uses a declaration of the second.
-/
import CrossRef.Keyed
import CrossRef.Symbol

namespace CrossRef

/-- Files with their numbers by identifier, and with the files they depend on and
    the files that depend on them, each row in the order in which the edges were
    added. -/
structure FileGraph where
  files : Array String
  /-- The number of each file. Of several entries for a file the first one counts. -/
  index : List (String × Nat)
  dependencyRows : Array (List Nat)
  dependentRows : Array (List Nat)
deriving DecidableEq, Repr

/-- How large a graph is. A file without any edge is isolated. -/
structure GraphStats where
  files : Nat
  edges : Nat
  isolated : Nat
deriving DecidableEq, Repr

namespace FileGraph

/-! ## Reading -/

def empty : FileGraph := ⟨#[], [], #[], #[]⟩

instance : Inhabited FileGraph := ⟨empty⟩

def fileCount (g : FileGraph) : Nat := g.files.size

def isEmpty (g : FileGraph) : Bool := g.files.isEmpty

/-- The identifier of a file, by its number. -/
def file (g : FileGraph) (i : Nat) : String := g.files[i]?.getD ""

/-- The number of a file, by its identifier. -/
def indexOf? (g : FileGraph) (file : String) : Option Nat := g.index.lookup file

/-- The files that file `i` depends on. -/
def dependencies (g : FileGraph) (i : Nat) : List Nat := g.dependencyRows[i]?.getD []

/-- The files that depend on file `i`. -/
def dependents (g : FileGraph) (i : Nat) : List Nat := g.dependentRows[i]?.getD []

def hasEdge (g : FileGraph) (source target : String) : Bool :=
  match g.indexOf? source, g.indexOf? target with
  | some i, some j => (g.dependencies i).contains j
  | _, _ => false

/-- Pairs of texts in ascending order, by the first and then by the second. -/
def pairLE (a b : String × String) : Bool := a.1 < b.1 || (a.1 == b.1 && a.2 ≤ b.2)

/-- Every edge as a pair of identifiers, in ascending order. -/
def edges (g : FileGraph) : List (String × String) :=
  Keyed.sortBy pairLE ((List.range g.fileCount).flatMap fun i =>
    (g.dependencies i).map fun j => (g.file i, g.file j))

def edgeCount (g : FileGraph) : Nat := g.dependencyRows.toList.flatten.length

def stats (g : FileGraph) : GraphStats :=
  ⟨g.fileCount, g.edgeCount,
    ((List.range g.fileCount).filter fun i =>
      (g.dependencies i).isEmpty && (g.dependents i).isEmpty).length⟩

/-! ## Building -/

/-- Adds a file, unless it is there already. The file's number comes with the graph. -/
def addFile (g : FileGraph) (file : String) : Nat × FileGraph :=
  match g.indexOf? file with
  | some i => (i, g)
  | none =>
    let i := g.files.size
    (i, ⟨g.files.push file, (file, i) :: g.index, g.dependencyRows.push [],
      g.dependentRows.push []⟩)

/-- Adds an edge, unless it is there already, leads back to its own file, or one of
    the files is not known. Whether it was added comes with the graph. -/
def addEdge (g : FileGraph) (source target : String) : Bool × FileGraph :=
  match g.indexOf? source, g.indexOf? target with
  | some i, some j =>
    if i = j ∨ j ∈ g.dependencies i then (false, g)
    else (true, { g with
      dependencyRows := g.dependencyRows.modify i (· ++ [j])
      dependentRows := g.dependentRows.modify j (· ++ [i]) })
  | _, _ => (false, g)

/-- The graph of the given files in which every link between two of them makes an edge. -/
def ofLinks (files : List String) (links : List Link) : FileGraph :=
  links.foldl (fun g l => (g.addEdge l.usage.file l.declaration.file).2)
    (files.foldl (fun g f => (g.addFile f).2) empty)

end FileGraph

/-- The size of a graph for readers. -/
def GraphStats.text (s : GraphStats) : String :=
  s!"File Graph Statistics:\n  Files: {s.files}\n  Edges: {s.edges}\n  Isolated: {s.isolated}\n"

end CrossRef
