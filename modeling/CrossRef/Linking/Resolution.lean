/-
  CrossRef.Linking.Resolution

  What a usage means. The scopes of its own file come first. If they do not
  bind the name, the one other file that declares it does; when several
  files offer it the usage is ambiguous.
-/
import CrossRef.Linking.Exports

namespace CrossRef

namespace Linking

/-! ## Candidates -/

/-- A file that offers a name: by a declaration of its own, or by passing it on. -/
inductive Candidate where
  | declared (declaration : Declaration)
  | passedOn (file : String)
deriving DecidableEq, Repr

namespace Candidate

def file : Candidate → String
  | declared d => d.file
  | passedOn file => file

/-- How the candidate is shown in diagnostics. -/
def label : Candidate → String
  | declared d => d.file
  | passedOn file => s!"{file} (via *)"

end Candidate

/-- The candidates one file contributes for a name. -/
def Exports.candidates (e : Exports) (name : String) : List Candidate :=
  (e.declaration? name).toList.map .declared
    ++ if e.passesOn name then [.passedOn e.file] else []

/-- Every other file that offers a name to `file`, in the order of their identifiers. -/
def candidates (index : List Exports) (name file : String) : List Candidate :=
  (index.filter fun e => e.file != file).flatMap (·.candidates name)

/-! ## Resolution -/

/-- What a usage turns out to mean. -/
inductive Resolution where
  | sameFile (declaration : Declaration)
  | crossFile (declaration : Declaration)
  | ambiguous (candidates : List Candidate)
  | unresolved
deriving DecidableEq, Repr

namespace Resolution

/-- The declaration the usage names, if it names one. -/
def declaration? : Resolution → Option Declaration
  | sameFile d | crossFile d => some d
  | ambiguous _ | unresolved => none

/-- What a list of candidates comes down to. A file that only passes the name
    on has no declaration to link to. -/
def ofCandidates : List Candidate → Resolution
  | [.declared d] => .crossFile d
  | [] | [.passedOn _] => .unresolved
  | cs => .ambiguous cs

end Resolution

/-- The declaration of a usage's own file that its scopes bind the name to. -/
def sameFile? (a : Analysis) (u : Usage) : Option Declaration :=
  (a.scopes.lookup (a.scopes.scopeAt u.position) u.identifier).bind (a.declarations[·]?)

/-- What a usage in the file `f` means. Other files count only if `acrossFiles` is set. -/
def resolve (index : List Exports) (acrossFiles : Bool) (f : AnalyzedFile) (u : Usage) :
    Resolution :=
  match sameFile? f.analysis u with
  | some d => .sameFile d
  | none =>
    if acrossFiles then .ofCandidates (candidates index u.identifier f.file) else .unresolved

end Linking

end CrossRef
