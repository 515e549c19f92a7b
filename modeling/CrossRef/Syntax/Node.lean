/-
  CrossRef.Syntax.Node

  Concrete syntax trees of source modules: every construct is a node with a
  kind, the role it plays in its parent, the stretch of text it covers, and
  its children in source order. Comments and explicit line joins are nodes
  too, and so are the bare tokens of the grammar (keywords, punctuation).
-/

namespace CrossRef.Syntax

/-! ## Places in a text -/

/-- A place as the grammar counts it: rows from zero, columns in bytes of the
    encoded row. -/
structure Point where
  row : Nat
  column : Nat
deriving DecidableEq, Repr, Inhabited

/-- The stretch of text a node covers, as points and as byte offsets. -/
structure Span where
  start : Point
  stop : Point
  startByte : Nat
  stopByte : Nat
deriving DecidableEq, Repr, Inhabited

/-- The empty stretch at the end of `s`. -/
def Span.atEnd (s : Span) : Span := ⟨s.stop, s.stop, s.stopByte, s.stopByte⟩

/-- From the start of `a` to the end of `b`. -/
def Span.through (a b : Span) : Span := ⟨a.start, b.stop, a.startByte, b.stopByte⟩

/-! ## Kinds and roles -/

/-- What a node is. `token` stands for every anonymous token but the keyword
    `as`, which the binding rules look for. -/
inductive Kind where
  | module | block | token | asToken | comment | lineContinuation | unparsed
  -- names and literals
  | identifier | integer | float | string | concatenatedString | ellipsis
  | trueConstant | falseConstant | noneConstant
  -- expressions
  | member | subscript | slice | call | argumentList | keywordArgument | dictionarySplat
  | listSplat | tuple | list | set | dictionary | pair | parenthesizedExpression
  | listComprehension | setComprehension | dictionaryComprehension | generatorExpression
  | forInClause | ifClause | lambda | lambdaParameters | conditionalExpression | namedExpression
  | asPattern | asPatternTarget | booleanOperator | notOperator | comparisonOperator
  | binaryOperator | unaryOperator | await | yield | expressionList
  -- assignment targets and parameters
  | patternList | tuplePattern | listPattern | listSplatPattern | dictionarySplatPattern
  | parameters | defaultParameter | typedParameter | typedDefaultParameter
  | keywordSeparator | positionalSeparator
  -- annotations
  | type | genericType | typeParameter | unionType | memberType | constrainedType | splatType
  -- simple statements
  | expressionStatement | assignment | augmentedAssignment | returnStatement | deleteStatement
  | raiseStatement | assertStatement | passStatement | breakStatement | continueStatement
  | globalStatement | nonlocalStatement | printStatement | chevron | execStatement
  | typeAliasStatement | importStatement | importFromStatement | futureImportStatement
  | relativeImport | importDots | dottedName | aliasedImport | wildcardImport
  -- compound statements
  | ifStatement | elifClause | elseClause | whileStatement | forStatement | tryStatement
  | exceptClause | finallyClause | withStatement | withClause | withItem
  | functionDefinition | classDefinition | decoratedDefinition | decorator
  -- structural matching
  | matchStatement | caseClause | casePattern | classPattern | splatPattern | unionPattern
  | dictPattern | keywordPattern | complexPattern
deriving DecidableEq, Repr, Inhabited

/-- Whether nodes of this kind are named constructs rather than bare tokens. -/
def Kind.isNamed : Kind → Bool
  | .token | .asToken => false
  | _ => true

/-- The role a node plays in its parent, for the parents that tell their children apart. -/
inductive Field where
  | name | alias | value | left | right | type | body | parameters | returnType | superclasses
  | typeParameters | object | memberName | function | arguments | subscript | moduleName
  | condition | consequence | alternative | definition | operator | argument | key | subject
  | guard | cause | code
deriving DecidableEq, Repr, Inhabited

/-! ## Trees -/

/-- A node of the tree with everything below it. -/
inductive Node where
  | mk (kind : Kind) (field : Option Field) (span : Span) (children : List Node)
deriving Inhabited

namespace Node

def kind : Node → Kind
  | mk k _ _ _ => k

def field : Node → Option Field
  | mk _ f _ _ => f

def span : Node → Span
  | mk _ _ s _ => s

def children : Node → List Node
  | mk _ _ _ cs => cs

/-- The same node in the role `f`. -/
def withField (f : Field) : Node → Node
  | mk k _ s cs => mk k (some f) s cs

def isNamed (n : Node) : Bool := n.kind.isNamed

/-- The children that are constructs; bare tokens are left out. -/
def namedChildren (n : Node) : List Node := n.children.filter (·.isNamed)

/-- The first child in the role `f`. -/
def child? (n : Node) (f : Field) : Option Node := n.children.find? (·.field == some f)

mutual

/-- The last token of the tree: the last child of the last child, down to a
    node without children. -/
def lastLeaf : Node → Node
  | mk k f s cs => lastLeafOf (mk k f s cs) cs

/-- The last leaf below a list of siblings, `fallback` when there are none. -/
def lastLeafOf (fallback : Node) : List Node → Node
  | [] => fallback
  | [c] => c.lastLeaf
  | _ :: c :: cs => lastLeafOf fallback (c :: cs)

end

mutual

/-- Number of nodes in the tree. -/
def size : Node → Nat
  | mk _ _ _ cs => 1 + sizeList cs

/-- Number of nodes in a list of trees. -/
def sizeList : List Node → Nat
  | [] => 0
  | c :: cs => c.size + sizeList cs

end

theorem size_pos (n : Node) : 0 < n.size := by
  cases n; simp only [size]; omega

/-- A child is smaller than its parent. -/
theorem size_lt_of_mem {c n : Node} (h : c ∈ n.children) : c.size < n.size := by
  cases n with
  | mk k f s cs =>
    have : c.size ≤ sizeList cs := by
      have h' : c ∈ cs := h
      clear h
      induction cs with
      | nil => cases h'
      | cons d ds ih =>
        simp only [sizeList]
        rcases List.mem_cons.1 h' with rfl | h''
        · omega
        · have := ih h''; omega
    simp only [size]; omega

theorem mem_children_of_child? {c n : Node} {f : Field} (h : n.child? f = some c) :
    c ∈ n.children :=
  List.mem_of_find?_eq_some h

theorem field_of_child? {c n : Node} {f : Field} (h : n.child? f = some c) :
    c.field = some f := by
  have hfield := List.find?_some h
  exact beq_iff_eq.1 hfield

/-- `c` is below the node: a child of it, or of a node below it. -/
inductive Below (n : Node) : Node → Prop where
  | child {c : Node} : c ∈ n.children → Below n c
  | further {b c : Node} : Below n b → c ∈ b.children → Below n c

theorem Below.size_lt {c n : Node} (h : n.Below c) : c.size < n.size := by
  induction h with
  | child hc => exact size_lt_of_mem hc
  | further _ hc ih => exact Nat.lt_trans (size_lt_of_mem hc) ih

theorem below_of_child? {c n : Node} {f : Field} (h : n.child? f = some c) : n.Below c :=
  .child (mem_children_of_child? h)

theorem below_of_mem_namedChildren {c n : Node} (h : c ∈ n.namedChildren) : n.Below c :=
  .child (List.mem_filter.1 h).1

theorem size_lt_of_child? {c n : Node} {f : Field} (h : n.child? f = some c) : c.size < n.size :=
  (below_of_child? h).size_lt

theorem size_lt_of_mem_namedChildren {c n : Node} (h : c ∈ n.namedChildren) : c.size < n.size :=
  (below_of_mem_namedChildren h).size_lt

end Node

end CrossRef.Syntax
