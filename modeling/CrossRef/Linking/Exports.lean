/-
  CrossRef.Linking.Exports

  What each file offers to the others: the declarations its module scope
  ends up with, and the names it passes on because it imports everything
  from files that declare them, directly or through further such imports.
-/
import CrossRef.Adapter
import CrossRef.Linking.ModulePath

namespace CrossRef

/-- The declarations that the names of the module scope end up bound to, in
    the order of those names. -/
def Analysis.moduleDeclarations (a : Analysis) : List Declaration :=
  a.scopes.moduleDefinitions.filterMap fun (_, i) => a.declarations[i]?

namespace Linking

/-! ## Wildcard imports -/

/-- The files among `ids` that a file imports everything from, itself left out. -/
def wildcardTargets (ids : List String) (f : AnalyzedFile) : List String :=
  f.analysis.scopes.wildcards.toList.filterMap fun w =>
    (resolveModule? f.file w ids).filter (· != f.file)

/-- The files that `next` leads to in any number of steps. `reached` holds those
    found so far, `latest` the ones among them that the last round added; every
    round but the last adds one, so as many rounds as there are files are enough. -/
def reach (next : String → List String) : Nat → List String → List String → List String
  | 0, reached, _ => reached
  | _, reached, [] => reached
  | rounds + 1, reached, latest =>
    let added := Keyed.firsts id ((latest.flatMap next).filter fun t => !reached.contains t)
    reach next rounds (reached ++ added) added

/-! ## Exports -/

/-- What one file offers: its module-scope declarations, and the names it
    passes on without declaring them. -/
structure Exports where
  file : String
  declared : List Declaration
  passedOn : List String
deriving Repr

namespace Exports

/-- The declaration a file offers under a name. -/
def declaration? (e : Exports) (name : String) : Option Declaration :=
  e.declared.reverse.find? (·.name == name)

def passesOn (e : Exports) (name : String) : Bool := e.passedOn.contains name

end Exports

/-- What each file offers, in the order of their identifiers. Of several files
    with one identifier the last counts. -/
def exports (files : List AnalyzedFile) : List Exports :=
  let corpus := Keyed.table (·.file) files
  let ids := corpus.map (·.file)
  let offers := corpus.map fun f => (f.file, f.analysis.moduleDeclarations)
  let targets := corpus.map fun f => (f.file, wildcardTargets ids f)
  let next (id : String) := ((targets.find? (·.1 == id)).map (·.2)).getD []
  corpus.map fun f =>
    let reached := reach next ids.length [f.file] [f.file]
    let sources := offers.filter fun o => o.1 != f.file && reached.contains o.1
    let names := sources.flatMap fun o => o.2.map (·.name)
    ⟨f.file, f.analysis.moduleDeclarations,
      names.filter fun n => (f.analysis.scopes.lookupLocal 0 n).isNone⟩

/-- Number of names that some file declares in its module scope. -/
def nameCount (index : List Exports) : Nat :=
  (index.flatMap fun e => e.declared.map (·.name)).eraseDups.length

end Linking

end CrossRef
