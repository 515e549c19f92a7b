/-
  CrossRef.Scope.Graph

  The scopes of one file and the names bound in them. Scopes are numbered in
  the order of their creation; each has a kind, a parent and the stretch of
  text it covers. Of several bindings of a name in one scope the last counts.
-/
import CrossRef.Keyed
import CrossRef.Symbol

namespace CrossRef

/-- What a scope is the body of. -/
inductive ScopeKind where
  | module | classBody | function
deriving DecidableEq, Repr, Inhabited

/-- The word that stands for the kind in reports. -/
def ScopeKind.text : ScopeKind → String
  | .module => "module"
  | .classBody => "class"
  | .function => "function"

/-- One scope: `start` and `stop` are the first and the last place it covers. -/
structure Scope where
  kind : ScopeKind
  parent : Option ScopeId
  start : Position
  stop : Position
deriving DecidableEq, Repr, Inhabited

/-- `p` lies in the stretch the scope covers, both ends included. -/
def Scope.covers (s : Scope) (p : Position) : Prop := s.start ≤ p ∧ p ≤ s.stop

instance (s : Scope) (p : Position) : Decidable (s.covers p) :=
  inferInstanceAs (Decidable (_ ∧ _))

/-- An import of every name of a module: its dotted name without the leading
    dots, the number of those dots, and the line it stands on. -/
structure WildcardImport where
  module : String
  level : Nat
  line : Nat
deriving DecidableEq, Repr, Inhabited

/-- A name bound in a scope to the declaration of that number. -/
structure Binding where
  scope : ScopeId
  name : String
  declaration : Nat
deriving DecidableEq, Repr, Inhabited

/-- The scopes of a file with their bindings, latest binding first. -/
structure ScopeGraph where
  scopes : Array Scope
  bindings : List Binding
  wildcards : Array WildcardImport
deriving DecidableEq, Repr

namespace ScopeGraph

/-! ## Building -/

/-- A file with nothing but its module scope, which covers everything. -/
def empty : ScopeGraph :=
  ⟨#[⟨.module, none, .origin, .unbounded⟩], [], #[]⟩

instance : Inhabited ScopeGraph := ⟨empty⟩

/-- The number the next scope will have. -/
def scopeCount (g : ScopeGraph) : Nat := g.scopes.size

/-- Adds a scope that is still open: it covers everything from `start` on. -/
def addScope (g : ScopeGraph) (parent : ScopeId) (kind : ScopeKind) (start : Position) :
    ScopeGraph :=
  { g with scopes := g.scopes.push ⟨kind, some parent, start, .unbounded⟩ }

/-- Ends a scope at `stop`, or where it starts if that is later. The module
    scope stays as it is, and so does a scope that was never added. -/
def closeScope (g : ScopeGraph) (scope : ScopeId) (stop : Position) : ScopeGraph :=
  if scope = 0 then g
  else { g with
    scopes := g.scopes.modify scope fun s => { s with stop := Position.latest s.start stop } }

/-- Binds `name` in `scope`, in place of an earlier binding of it there. -/
def define (g : ScopeGraph) (scope : ScopeId) (name : String) (declaration : Nat) : ScopeGraph :=
  { g with bindings := ⟨scope, name, declaration⟩ :: g.bindings }

/-- Records an import of every name of a module. -/
def addWildcard (g : ScopeGraph) (w : WildcardImport) : ScopeGraph :=
  { g with wildcards := g.wildcards.push w }

/-! ## Reading -/

def parent? (g : ScopeGraph) (s : ScopeId) : Option ScopeId := g.scopes[s]?.bind (·.parent)

def kind? (g : ScopeGraph) (s : ScopeId) : Option ScopeKind := g.scopes[s]?.map (·.kind)

/-- What `name` is bound to in `scope` itself. -/
def lookupLocal (g : ScopeGraph) (scope : ScopeId) (name : String) : Option Nat :=
  (g.bindings.find? fun b => b.scope == scope && b.name == name).map (·.declaration)

/-- `s` and its ancestors, at most `fuel` of them. -/
def ancestors (g : ScopeGraph) : Nat → ScopeId → List ScopeId
  | 0, s => [s]
  | fuel + 1, s =>
    match g.parent? s with
    | some p => s :: ancestors g fuel p
    | none => [s]

/-- `s` and its ancestors, innermost first. A scope has no more ancestors than
    the file has scopes. -/
def scopeChain (g : ScopeGraph) (s : ScopeId) : List ScopeId := g.ancestors g.scopeCount s

/-- Names bound in `t` can be used in `s` below it: those of a class body only
    in that body itself. -/
def isVisibleFrom (g : ScopeGraph) (s t : ScopeId) : Bool :=
  t == s || g.kind? t != some .classBody

/-- What `name` means in scope `s`: the innermost visible binding of it. -/
def lookup (g : ScopeGraph) (s : ScopeId) (name : String) : Option Nat :=
  (g.scopeChain s).findSome? fun t =>
    if g.isVisibleFrom s t then g.lookupLocal t name else none

/-- The names bound in the module scope with what they are bound to, in
    ascending order of names. -/
def moduleDefinitions (g : ScopeGraph) : List (String × Nat) :=
  let winners := Keyed.firsts (·.name) (g.bindings.filter (·.scope == 0))
  (Keyed.sort (·.name) winners).map fun b => (b.name, b.declaration)

/-- The scope chosen so far and its start, after looking at one more scope. -/
def innermost (p : Position) (best : ScopeId × Position) (candidate : Scope × ScopeId) :
    ScopeId × Position :=
  if candidate.1.covers p ∧ best.2 ≤ candidate.1.start then (candidate.2, candidate.1.start)
  else best

/-- The innermost scope that covers `p`: of all that do, the one that starts
    last, and of those with one start the one added last. -/
def scopeAt (g : ScopeGraph) (p : Position) : ScopeId :=
  ((g.scopes.toList.zipIdx.drop 1).foldl (innermost p) (0, .origin)).1

end ScopeGraph

end CrossRef
