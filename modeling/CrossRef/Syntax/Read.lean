/-
  CrossRef.Syntax.Read

  Readers over lexemes. A reader either takes lexemes off the front of the
  input and gives a result, or fails and takes none. What it builds are parts:
  nodes with the comments that stand in front of them, which end up in the
  smallest construct that goes on behind them.
-/
import CrossRef.Syntax.Layout

namespace CrossRef.Syntax

/-! ## Parts -/

/-- A piece of a construct with the extras in front of it. A mark of the line
    structure is a piece without a node. -/
structure Part where
  leading : List Node
  node : Option Node
deriving Inhabited

namespace Part

/-- The same piece in the role `f`. -/
def as (p : Part) (f : Field) : Part := { p with node := p.node.map (·.withField f) }

def isKind (p : Part) (k : Kind) : Bool := p.node.any (·.kind == k)

/-- The pieces in order; what stands in front of the first one is left out. -/
def contents : List Part → List Node
  | [] => []
  | p :: ps => p.node.toList ++ ps.flatMap fun q => q.leading ++ q.node.toList

/-- The construct made of `parts`: what stands in front of the first piece
    stands in front of the whole. -/
def build (kind : Kind) (parts : List Part) : Part :=
  let children := contents parts
  let span :=
    match children, children.getLast? with
    | first :: _, some last => first.span.through last.span
    | _, _ => default
  ⟨(parts.head?.map (·.leading)).getD [], some (.mk kind none span children)⟩

end Part

/-! ## Readers -/

/-- The lexemes that remain, with their number. -/
structure Input where
  rest : List Lexeme
  left : Nat
deriving Inhabited

/-- A reader of `α`. -/
abbrev Read (α : Type) := StateT Input Option α

namespace Read

/-- The kind of the next lexeme. -/
def peek : Read LexemeKind := fun s => some ((s.rest.head?.map (·.kind)).getD .endOfText, s)

/-- The kind of the lexeme behind the next one. -/
def peekSecond : Read LexemeKind :=
  fun s => some ((s.rest[1]?.map (·.kind)).getD .endOfText, s)

/-- Takes the next lexeme, whatever it is. -/
def next : Read Lexeme
  | ⟨l :: rest, left⟩ => some (l, ⟨rest, left - 1⟩)
  | ⟨[], _⟩ => none

/-- The next word as a leaf of kind `k`, if `accept` allows it. -/
def leaf (k : Kind) (accept : TokenKind → String → Bool) : Read Part := do
  let l ← next
  match l.kind with
  | .word kind text => if accept kind text then pure ⟨l.extras, some (.mk k none l.span [])⟩
                       else failure
  | _ => failure

/-- The operator `t` as a leaf of kind `k`. -/
def operatorAs (k : Kind) (t : String) : Read Part :=
  leaf k fun kind text => kind == .operator && text == t

def operator (t : String) : Read Part := operatorAs .token t

/-- The keyword `t`. -/
def keyword (t : String) : Read Part :=
  leaf (if t == "as" then .asToken else .token) fun kind text => kind == .name && text == t

/-- A name that is not kept by the grammar. -/
def identifier : Read Part :=
  leaf .identifier fun kind text => kind == .name && !hardKeywords.contains text

/-- Any name at all. -/
def anyName : Read Part := leaf .identifier fun kind _ => kind == .name

/-- A mark of the line structure. -/
def mark (k : LexemeKind) : Read Part := do
  let l ← next
  if l.kind == k then pure ⟨l.extras, none⟩ else failure

def atOperator (t : String) : Read Bool := return (← peek) == .word .operator t

def atKeyword (t : String) : Read Bool := return (← peek) == .word .name t

/-! ## Repetition -/

/-- `p` as often as it succeeds and takes something. -/
def manyFrom {α : Type} (p : Read α) (s : Input) : List α × Input :=
  match p s with
  | some (a, s') =>
    if s'.left < s.left then
      let (more, last) := manyFrom p s'
      (a :: more, last)
    else ([], s)
  | none => ([], s)
termination_by s.left

def many {α : Type} (p : Read α) : Read (List α) := fun s => some (manyFrom p s)

def many1 {α : Type} (p : Read α) : Read (List α) := return (← p) :: (← many p)

/-- `p` if it succeeds. -/
def perhaps (p : Read Part) : Read (List Part) := (return [← p]) <|> pure []

/-- Extends `first` by `step` as often as that succeeds and takes something. -/
def extend (step : Part → Read Part) (first : Part) (s : Input) : Option (Part × Input) :=
  match step first s with
  | some (longer, s') => if s'.left < s.left then extend step longer s' else some (first, s)
  | none => some (first, s)
termination_by s.left

/-- One or more items with commas between them and perhaps one behind. -/
def commaSeparated (item : Read Part) : Read (List Part) := do
  let first ← item
  let more ← many do
    let comma ← operator ","
    return [comma, ← item]
  return first :: (more.flatten ++ (← perhaps (operator ",")))

/-- Like `commaSeparated`, or nothing at all. -/
def commaSeparatedOrNone (item : Read Part) : Read (List Part) :=
  commaSeparated item <|> pure []

/-- The next lexeme ends a simple statement. -/
def atStatementEnd : Read Bool := do
  return (← peek) == .newline || (← atOperator ";")

end Read

end CrossRef.Syntax
