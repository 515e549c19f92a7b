/-
  CrossRef.Extraction

  The declarations and scopes of one file, read off its tree. Functions and
  lambdas open a scope over their body, comprehensions one over the whole
  expression, classes one over their body; what binds a name declares it in
  the scope around it. Defaults, annotations and base classes belong to the
  scope outside.
-/
import CrossRef.Reserved
import CrossRef.Scope.Graph
import CrossRef.Syntax.SourceMap

namespace CrossRef

open CrossRef.Syntax

/-! ## Kinds that matter -/

/-- Text and comments hold no code. -/
def Syntax.Kind.isLiteralText : Kind → Bool
  | .string | .concatenatedString | .comment => true
  | _ => false

/-- The grammar's names for the kinds of `isLiteralText`. -/
def isLiteralTextName (name : String) : Bool :=
  ["string", "concatenated_string", "comment"].contains name

/-- Targets made of further targets. -/
def Syntax.Kind.isTargetGroup : Kind → Bool
  | .patternList | .tuplePattern | .listPattern | .tuple | .list | .expressionList
  | .parenthesizedExpression | .listSplatPattern | .listSplat => true
  | _ => false

def Syntax.Kind.isSplatPattern : Kind → Bool
  | .listSplatPattern | .dictionarySplatPattern => true
  | _ => false

/-! ## What is collected -/

/-- The declarations of a file in the order they are met, and its scopes. -/
structure Extraction where
  declarations : Array Declaration
  scopes : ScopeGraph
deriving Inhabited

namespace Extraction

def empty : Extraction := ⟨#[], .empty⟩

/-- A file's identifier with the map of its text. -/
structure Source where
  file : String
  map : SourceMap

/-- Declares the name a node covers, and binds it. A node without text declares nothing. -/
def declare (src : Source) (scope : ScopeId) (kind : DeclarationKind) (n : Node)
    (x : Extraction) : Extraction :=
  let name := src.map.text n
  if name.isEmpty then x
  else
    let p := src.map.start n
    ⟨x.declarations.push ⟨name, kind, src.file, p.line, p.column, scope⟩,
      x.scopes.define scope name x.declarations.size⟩

/-- Adds a scope over a body, from its start to the end of its last token. -/
def openScope (src : Source) (parent : ScopeId) (kind : ScopeKind) (body : Node)
    (x : Extraction) : Extraction :=
  { x with
    scopes := (x.scopes.addScope parent kind (src.map.start body)).closeScope x.scopes.scopeCount
      (src.map.stop body) }

/-- The node that holds the name of a parameter without a default, if it is a name. -/
def parameterName? (n : Node) : Option Node :=
  match n.kind with
  | .identifier => some n
  | .listSplatPattern | .dictionarySplatPattern => n.namedChildren.head?
  | .typedParameter =>
    match n.namedChildren.head? with
    | some name => if name.kind.isSplatPattern then name.namedChildren.head? else some name
    | none => none
  | .defaultParameter | .typedDefaultParameter => n.child? .name
  | _ => none

/-- The code in a parameter that belongs to the scope outside: annotation, then default. -/
def parameterCode (n : Node) : List Node :=
  match n.kind with
  | .typedParameter => (n.child? .type).toList
  | .defaultParameter | .typedDefaultParameter =>
    (n.child? .type).toList ++ (n.child? .value).toList
  | _ => []

/-! ## Wildcard imports -/

/-- The module an import names: its dotted name and the number of dots in front. -/
def importedModule (src : Source) (n : Node) : String × Nat :=
  if n.kind == .relativeImport then
    n.namedChildren.foldl
      (fun (name, level) part =>
        match part.kind with
        | .importDots => (name, (src.map.text part).toList.count '.')
        | .dottedName => (src.map.text part, level)
        | _ => (name, level))
      ("", 0)
  else (src.map.text n, 0)

/-- Records `from module import *`, which counts in the module scope only. -/
def recordWildcard (src : Source) (scope : ScopeId) (n : Node) (x : Extraction) : Extraction :=
  if scope = 0 ∧ n.namedChildren.any (·.kind == .wildcardImport) then
    match n.child? .moduleName with
    | some m =>
      let (name, level) := importedModule src m
      { x with scopes := x.scopes.addWildcard ⟨name, level, (src.map.start n).line⟩ }
    | none => x
  else x

/-! ## Tasks

The walk is made of tasks: each changes what has been collected, or splits into
smaller tasks that are done in order. -/

/-- Something to do with a node in a scope. -/
inductive Task where
  /-- Look for bindings in a construct. -/
  | visit (scope : ScopeId) (n : Node)
  /-- Bind what a target names. -/
  | bind (scope : ScopeId) (n : Node)
  /-- Open the scope of a function, class, lambda or comprehension and go into it. -/
  | enter (outer : ScopeId) (n : Node)
  /-- Declare a parameter inside; its annotation and default belong outside. -/
  | parameter (outer inner : ScopeId) (n : Node)
  /-- Bind the targets of a comprehension's clause, then visit its source. -/
  | clause (scope : ScopeId) (n : Node)
  | declare (scope : ScopeId) (kind : DeclarationKind) (n : Node)
  | wildcard (scope : ScopeId) (n : Node)

namespace Task

/-- A bound on how far a task still splits. -/
def weight : Task → Nat
  | visit _ n => 2 * n.size
  | bind _ n => 2 * n.size + 1
  | enter _ n => 2 * n.size - 1
  | parameter _ _ n => 2 * n.size
  | clause _ n => 2 * n.size
  | declare .. => 0
  | wildcard .. => 0

end Task

/-- The parts of `value as target`, in order. -/
def asPatternTasks (scope : ScopeId) (ns : List Node) : List Task :=
  ns.filterMap fun c =>
    if c.field == some .alias then some (.bind scope c)
    else if c.isNamed then some (.visit scope c)
    else none

/-- The parts of an exception handler. A name right behind `as` is declared. -/
def exceptTasks (scope : ScopeId) : Bool → List Node → List Task
  | _, [] => []
  | afterAs, c :: cs =>
    if !c.isNamed then exceptTasks scope (c.kind == .asToken) cs
    else
      (if afterAs && c.kind == .identifier then .declare scope .variable c else .visit scope c)
        :: exceptTasks scope false cs

/-- What visiting a construct comes down to. -/
def visitTasks (scope : ScopeId) (n : Node) : List Task :=
  let child (f : Field) (task : Node → Task) := (n.child? f).toList.map task
  match n.kind with
  | .functionDefinition =>
    child .name (.declare scope .function) ++ child .returnType (.visit scope)
      ++ [.enter scope n]
  | .classDefinition =>
    child .name (.declare scope .classType) ++ child .superclasses (.visit scope)
      ++ [.enter scope n]
  | .lambda | .listComprehension | .setComprehension | .dictionaryComprehension
  | .generatorExpression => [.enter scope n]
  | .assignment =>
    child .left (.bind scope) ++ child .type (.visit scope) ++ child .right (.visit scope)
  | .forStatement =>
    child .left (.bind scope)
      ++ (n.namedChildren.filter fun c => c.field != some .left).map (.visit scope)
  | .asPattern => asPatternTasks scope n.children
  | .exceptClause => exceptTasks scope false n.children
  | .namedExpression =>
    child .name (.declare scope .variable) ++ child .value (.visit scope)
  | .aliasedImport => child .alias (.declare scope .variable)
  | .importFromStatement =>
    (n.namedChildren.filter (·.kind == .aliasedImport)).map (.visit scope)
      ++ [.wildcard scope n]
  | .string | .concatenatedString | .comment => []
  | _ => n.namedChildren.map (.visit scope)

/-- What binding a target comes down to: names are declared, groups bind each
    member, and in anything else there is only code to visit. -/
def bindTasks (scope : ScopeId) (n : Node) : List Task :=
  if n.kind == .identifier then [.declare scope .variable n]
  else if n.kind == .asPatternTarget && n.namedChildren.isEmpty then
    [.declare scope .variable n]
  else if n.kind == .asPatternTarget || n.kind.isTargetGroup then
    n.namedChildren.map (.bind scope)
  else [.visit scope n]

/-- The scope a construct opens: its kind, and the node it covers. -/
def opened? (n : Node) : Option (ScopeKind × Node) :=
  match n.kind with
  | .functionDefinition | .lambda => (n.child? .body).map fun body => (.function, body)
  | .classDefinition => (n.child? .body).map fun body => (.classBody, body)
  | .listComprehension | .setComprehension | .dictionaryComprehension
  | .generatorExpression => some (.function, n)
  | _ => none

/-- What is left to do in the scope `inner` that a construct has opened. -/
def innerTasks (outer inner : ScopeId) (n : Node) : List Task :=
  let parameters :=
    (n.child? .parameters).toList.flatMap fun ps =>
      ps.namedChildren.map (.parameter outer inner)
  let body := (n.child? .body).toList
  match n.kind with
  | .functionDefinition =>
    parameters ++ body.flatMap fun b => b.namedChildren.map (.visit inner)
  | .lambda => parameters ++ body.map (.visit inner)
  | .classDefinition => body.flatMap fun b => b.namedChildren.map (.visit inner)
  | _ =>
    n.namedChildren.map fun c =>
      if c.kind == .forInClause then .clause inner c else .visit inner c

/-- What a parameter comes down to. The customary first names are not declared. -/
def parameterTasks (src : Source) (outer inner : ScopeId) (n : Node) : List Task :=
  let name := (parameterName? n).toList.filter fun c =>
    c.kind == .identifier && !Reserved.isImplicitParameter (src.map.text c)
  name.map (.declare inner .variable) ++ (parameterCode n).map (.visit outer)

/-- One task: the tasks it splits into, and what has been collected afterwards. -/
def expand (src : Source) (t : Task) (x : Extraction) : List Task × Extraction :=
  match t with
  | .visit scope n => (visitTasks scope n, x)
  | .bind scope n => (bindTasks scope n, x)
  | .enter outer n =>
    match opened? n with
    | some (kind, body) =>
      (innerTasks outer x.scopes.scopeCount n, openScope src outer kind body x)
    | none => ([], x)
  | .parameter outer inner n => (parameterTasks src outer inner n, x)
  | .clause scope n =>
    ((n.child? .left).toList.map (.bind scope) ++ (n.child? .right).toList.map (.visit scope), x)
  | .declare scope kind n => ([], declare src scope kind n x)
  | .wildcard scope n => ([], recordWildcard src scope n x)

end Extraction

end CrossRef
