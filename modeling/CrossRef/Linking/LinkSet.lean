/-
  CrossRef.Linking.LinkSet

  The links of a whole corpus: every usage of every file with what it means,
  files in the order of their identifiers and usages in source order.
-/
import CrossRef.Diagnostic
import CrossRef.Linking.Resolution

namespace CrossRef

namespace Linking

/-! ## One file -/

/-- A file's usages with what they mean. -/
structure LinkedFile where
  file : String
  outcomes : List (Usage × Resolution)
deriving Repr

namespace LinkedFile

/-- The usages of the file that name a declaration, with it. -/
def links (f : LinkedFile) : List Link :=
  f.outcomes.filterMap fun (u, r) => r.declaration?.map fun d => ⟨u, d⟩

/-- The names that are ambiguous in the file with their candidates, each where
    it first occurs. -/
def ambiguities (f : LinkedFile) : List (String × List Candidate) :=
  Keyed.firsts (·.1) (f.outcomes.filterMap fun (u, r) =>
    match r with
    | .ambiguous cs => some (u.identifier, cs)
    | _ => none)

def diagnostics (f : LinkedFile) : List Diagnostic :=
  f.ambiguities.map fun (name, cs) =>
    .ambiguousReference f.file name (cs.map (·.label))

end LinkedFile

/-! ## All files -/

/-- How many usages came out which way. -/
structure LinkStats where
  total : Nat
  sameFile : Nat
  crossFile : Nat
  ambiguous : Nat
  unresolved : Nat
deriving DecidableEq, Repr

namespace LinkStats

/-- Number of usages that name a declaration. -/
def resolved (s : LinkStats) : Nat := s.sameFile + s.crossFile

/-- The counts for readers. -/
def text (s : LinkStats) : String :=
  s!"Global Linker Stats:\n  Total Usages: {s.total}\n"
    ++ s!"  ✅ Resolved: {s.resolved} (local: {s.sameFile}, cross-file: {s.crossFile})\n"
    ++ s!"  🤔 Ambiguous: {s.ambiguous}\n  🌍 Unresolved: {s.unresolved}\n"

/-- The counts with one more outcome. -/
def add (s : LinkStats) : Resolution → LinkStats
  | .sameFile _ => { s with total := s.total + 1, sameFile := s.sameFile + 1 }
  | .crossFile _ => { s with total := s.total + 1, crossFile := s.crossFile + 1 }
  | .ambiguous _ => { s with total := s.total + 1, ambiguous := s.ambiguous + 1 }
  | .unresolved => { s with total := s.total + 1, unresolved := s.unresolved + 1 }

end LinkStats

/-- Every file with its outcomes, in the order of the identifiers. -/
abbrev LinkSet := List LinkedFile

namespace LinkSet

/-- Resolves every usage of every file. -/
def ofFiles (files : List AnalyzedFile) (acrossFiles : Bool) : LinkSet :=
  let index := exports files
  (Keyed.sort (·.file) files).map fun f =>
    ⟨f.file, f.analysis.usages.map fun u => (u, resolve index acrossFiles f u)⟩

/-- One entry for each identifier, in their order. The last entry counts. -/
def byFile (s : LinkSet) : List LinkedFile := Keyed.table (·.file) s

/-- The links of one file. -/
def linksOf (s : LinkSet) (file : String) : List Link :=
  match s.byFile.find? (·.file == file) with
  | some f => f.links
  | none => []

/-- Every link, files in the order of their identifiers. -/
def allLinks (s : LinkSet) : List Link := s.byFile.flatMap (·.links)

/-- The ambiguous names of every file. -/
def diagnostics (s : LinkSet) : List Diagnostic := s.flatMap (·.diagnostics)

def stats (s : LinkSet) : LinkStats :=
  (s.flatMap (·.outcomes)).foldl (fun n o => n.add o.2) ⟨0, 0, 0, 0, 0⟩

end LinkSet

end Linking

end CrossRef
