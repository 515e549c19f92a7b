/-
  CrossRef.Syntax.Token

  The words of the language: names, numbers, strings, operators, and the two
  things that may stand between any two of them, comments and line joins.
-/
import CrossRef.Syntax.Node

namespace CrossRef.Syntax

/-- What a word is. -/
inductive TokenKind where
  | name | integer | float | string | operator | comment | lineContinuation
deriving DecidableEq, Repr, Inhabited

/-- A word with its place, and what separates it from the word before it. -/
structure Token where
  kind : TokenKind
  text : String
  span : Span
  /-- A line feed that is not joined stands between the previous word and this one. -/
  afterBreak : Bool
  /-- Width of the blanks at the start of its line; a tab counts eight, and a
      form feed or carriage return starts the count again. -/
  indent : Nat
deriving Repr, Inhabited

namespace Token

/-- Comments and line joins carry no grammar. -/
def isExtra (t : Token) : Bool := t.kind == .comment || t.kind == .lineContinuation

/-- The leaf a word becomes in the tree. -/
def toNode (t : Token) : Node :=
  let kind : Kind :=
    match t.kind with
    | .name => .identifier
    | .integer => .integer
    | .float => .float
    | .string => .string
    | .operator => .token
    | .comment => .comment
    | .lineContinuation => .lineContinuation
  .mk kind none t.span []

end Token

/-! ## Names with a meaning in the grammar -/

/-- Names the grammar keeps for itself: they never stand for a value. -/
def hardKeywords : List String :=
  ["and", "as", "assert", "break", "class", "continue", "def", "del", "elif", "else", "except",
   "finally", "for", "from", "global", "if", "import", "in", "is", "lambda", "nonlocal", "not",
   "or", "pass", "raise", "return", "try", "while", "with", "yield"]

end CrossRef.Syntax
