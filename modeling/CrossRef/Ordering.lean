/-
  CrossRef.Ordering

  The order in which files are presented. Of the files whose dependencies
  have all been presented, the one with the smallest identifier comes next;
  when none is left to choose although files remain, they depend on each
  other in a cycle, and all files are presented in the order of their
  identifiers instead.
-/
import CrossRef.Diagnostic
import CrossRef.FileGraph

namespace CrossRef

/-! ## Modes -/

/-- How files are to be ordered: dependencies first, dependencies last, by
    identifier, or as they came. -/
inductive OrderMode where
  | dependency | dependencyRev | lexicographic | none
deriving DecidableEq, Repr, Inhabited

namespace OrderMode

/-- The word that stands for the mode in reports and configurations. -/
def text : OrderMode → String
  | dependency => "dependency"
  | dependencyRev => "dependency-rev"
  | lexicographic => "lexicographic"
  | none => "none"

/-- The mode a word stands for, whatever the case of its letters. -/
def parse (word : String) : Except Error OrderMode :=
  match word.toLower with
  | "dependency" | "dep" => .ok dependency
  | "dependency-rev" | "dependency_rev" | "dep-rev" => .ok dependencyRev
  | "lexicographic" | "lex" | "alpha" => .ok lexicographic
  | "none" | "input" => .ok none
  | _ => .error (.invalidOrderMode word)

/-- Whether the mode looks at the edges between files. -/
def usesGraph : OrderMode → Bool
  | dependency | dependencyRev => true
  | lexicographic | none => false

end OrderMode

/-- An order of files: the mode asked for, the mode it follows, and the files. -/
structure FileOrdering where
  requested : OrderMode
  applied : OrderMode
  files : List String
deriving DecidableEq, Repr, Inhabited

/-- The order follows another mode than the one asked for. -/
def FileOrdering.fellBack (o : FileOrdering) : Bool := o.requested != o.applied

namespace FileGraph

/-! ## Presenting dependencies first -/

/-- Where the emission stands: how many dependencies of each file are still
    missing, the files that miss none in the order of their identifiers, and
    the files already emitted, the latest first. -/
structure Emission where
  remaining : Array Nat
  ready : List Nat
  emitted : List Nat
deriving DecidableEq, Repr

/-- Puts a file among the ready ones, in the order of their identifiers. -/
def insertReady (g : FileGraph) (i : Nat) : List Nat → List Nat
  | [] => [i]
  | j :: js =>
    if g.file i < g.file j then i :: j :: js
    else if i = j then j :: js
    else j :: insertReady g i js

/-- One dependency less is missing for file `i`. -/
def release (g : FileGraph) (e : Emission) (i : Nat) : Emission :=
  let left := e.remaining[i]?.getD 0 - 1
  { e with
    remaining := e.remaining.modify i (· - 1)
    ready := if left = 0 then g.insertReady i e.ready else e.ready }

/-- Emits the first ready file and releases its dependents. -/
def emitNext (g : FileGraph) (e : Emission) : Option Emission :=
  match e.ready with
  | [] => none
  | i :: rest =>
    some ((g.dependents i).foldl g.release { e with ready := rest, emitted := i :: e.emitted })

/-- Before anything is emitted. -/
def emissionStart (g : FileGraph) : Emission :=
  let indices := List.range g.fileCount
  ⟨(indices.map fun i => (g.dependencies i).length).toArray,
    (indices.filter fun i => (g.dependencies i).isEmpty).foldr g.insertReady [], []⟩

/-- Emits at most `fuel` files. -/
def emit (g : FileGraph) : Nat → Emission → Emission
  | 0, e => e
  | fuel + 1, e =>
    match g.emitNext e with
    | some e' => emit g fuel e'
    | none => e

/-! ## Finding a cycle -/

/-- The file with the smallest identifier, the first of them if several have it. -/
def smallest? (g : FileGraph) : List Nat → Option Nat
  | [] => none
  | i :: is =>
    match smallest? g is with
    | some j => if g.file j < g.file i then some j else some i
    | none => some i

/-- The smallest dependency of file `i` that has not been emitted. -/
def nextStuck? (g : FileGraph) (emitted : List Nat) (i : Nat) : Option Nat :=
  g.smallest? ((g.dependencies i).filter fun j => !emitted.contains j)

/-- The cycle turned so that it begins with its smallest file, which is repeated at the end. -/
def closedWalk (g : FileGraph) (cycle : List Nat) : List Nat :=
  match g.smallest? cycle with
  | some i =>
    cycle.dropWhile (· != i) ++ cycle.takeWhile (· != i) ++ [i]
  | none => []

/-- Follows stuck dependencies from file `i` until one of them has been passed
    before. `passed` holds the files on the way, `i` first. -/
def followStuck (g : FileGraph) (emitted : List Nat) : Nat → Nat → List Nat → List Nat
  | 0, _, passed => passed.reverse
  | fuel + 1, i, passed =>
    match g.nextStuck? emitted i with
    | none => passed.reverse
    | some j =>
      if j ∈ passed then g.closedWalk (passed.reverse.dropWhile (· != j))
      else followStuck g emitted fuel j (j :: passed)

/-- A closed walk among the files that were not emitted. -/
def findCycle (g : FileGraph) (emitted : List Nat) : List Nat :=
  let stuck := (List.range g.fileCount).filter fun i => !emitted.contains i
  match g.smallest? stuck with
  | some i => g.followStuck emitted g.fileCount i [i]
  | none => []

/-- Every file with its dependencies in front of it, or a cycle if that is impossible. -/
def topological (g : FileGraph) : Except (List Nat) (List Nat) :=
  let e := g.emit g.fileCount g.emissionStart
  if e.emitted.length = g.fileCount then .ok e.emitted.reverse
  else .error (g.findCycle e.emitted)

/-! ## Ordering -/

/-- The files in the order of their identifiers. -/
def sortedFiles (g : FileGraph) : List String := Keyed.sort id g.files.toList

/-- The files in the order a mode asks for, with a diagnostic when a cycle prevents it. -/
def order (g : FileGraph) (mode : OrderMode) : FileOrdering × Option Diagnostic :=
  match mode with
  | .none => (⟨mode, mode, g.files.toList⟩, none)
  | .lexicographic => (⟨mode, mode, g.sortedFiles⟩, none)
  | .dependency | .dependencyRev =>
    match g.topological with
    | .ok order =>
      let files := order.map g.file
      (⟨mode, mode, if mode = .dependencyRev then files.reverse else files⟩, none)
    | .error walk =>
      (⟨mode, .lexicographic, g.sortedFiles⟩, some (.dependencyCycle (walk.map g.file)))

end FileGraph

end CrossRef
