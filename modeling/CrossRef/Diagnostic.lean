/-
  CrossRef.Diagnostic

  What a job reports besides links: references with several candidates, and
  cycles among files.
-/

namespace CrossRef

inductive DiagnosticKind where
  | cycle | ambiguous
deriving DecidableEq, Repr, Inhabited

/-- The word that stands for the kind in reports. -/
def DiagnosticKind.text : DiagnosticKind → String
  | cycle => "cycle"
  | ambiguous => "ambiguous"

structure Diagnostic where
  kind : DiagnosticKind
  detail : String
deriving DecidableEq, Repr, Inhabited

namespace Diagnostic

/-- A name used in `file` that several files offer, in the order given. -/
def ambiguousReference (file name : String) (candidates : List String) : Diagnostic :=
  let listed := ", ".intercalate candidates
  ⟨.ambiguous, s!"ambiguous reference `{name}` in {file}: candidates {listed}"⟩

/-- Files that depend on each other. The walk ends where it begins. -/
def dependencyCycle (walk : List String) : Diagnostic :=
  let shown := " → ".intercalate walk
  ⟨.cycle, s!"cycle detected: {shown}; falling back to lexicographic order"⟩

end Diagnostic

end CrossRef
