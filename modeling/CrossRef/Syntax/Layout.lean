/-
  CrossRef.Syntax.Layout

  From words to lexemes: line structure made explicit. A line feed outside
  brackets ends a statement, a deeper line behind a colon opens a block, and a
  shallower line closes blocks. Comments stay attached to the lexeme in front
  of which they stand; one that is indented as far as the open block keeps
  that block open.
-/
import CrossRef.Syntax.Token

namespace CrossRef.Syntax

/-- A word of the grammar, or a mark that the line structure puts between words. -/
inductive LexemeKind where
  | word (kind : TokenKind) (text : String)
  | newline | indent | dedent | endOfText
deriving DecidableEq, Repr, Inhabited

/-- A lexeme with the comments and line joins that stand in front of it. -/
structure Lexeme where
  kind : LexemeKind
  extras : List Node
  span : Span
deriving Inhabited

namespace Layout

/-- What has been read so far. -/
structure State where
  /-- Indentation of the open blocks, innermost first. -/
  indents : List Nat
  /-- Number of open brackets. -/
  depth : Nat
  /-- The statement on this line has begun and not ended. -/
  lineOpen : Bool
  /-- The last word was a colon. -/
  afterColon : Bool
  /-- Comments and line joins since the last lexeme, latest first. -/
  extras : List Node
  /-- Where the last word or comment ended. -/
  last : Span
deriving Inhabited

/-- Indentation of the innermost block. -/
def State.indent (s : State) : Nat := s.indents.headD 0

/-- Indentation of the first comment before the next word, and of that word; a
    text that ends counts as a word in the first column. -/
def upcoming (tokens : List Token) : Option Nat × Nat :=
  let comments := tokens.takeWhile Token.isExtra
  let first := (comments.find? (·.kind == .comment)).map Token.indent
  let next := match (tokens.dropWhile Token.isExtra).head? with
    | some t => t.indent
    | none => 0
  (first, next)

/-- A mark at the end of what has been read; it takes the comments in front of it. -/
def State.mark (s : State) (kind : LexemeKind) : Lexeme :=
  ⟨kind, s.extras.reverse, s.last.atEnd⟩

/-- The marks for the blocks that end before a word in column `next`: every
    block deeper than it, as long as the first comment is shallower too. -/
def closeBlocks (comment : Option Nat) (next : Nat) (s : State) : List Lexeme × State :=
  let closing := s.indents.takeWhile fun top => next < top && comment.all (· < top)
  if closing.isEmpty then ([], s)
  else
    let closed := { s with indents := s.indents.drop closing.length, extras := [] }
    (s.mark .dedent :: List.replicate (closing.length - 1) (closed.mark .dedent), closed)

/-- The marks at a line feed in front of `tokens`. -/
def breakLine (tokens : List Token) (s : State) : List Lexeme × State :=
  let (comment, next) := upcoming tokens
  if s.lineOpen && s.afterColon && s.indent < next then
    ([s.mark .indent],
      { s with indents := next :: s.indents, lineOpen := false, afterColon := false, extras := [] })
  else
    let (ends, s) :=
      if s.lineOpen then
        ([s.mark .newline], { s with lineOpen := false, afterColon := false, extras := [] })
      else ([], s)
    let (closes, s) := closeBlocks comment next s
    (ends ++ closes, s)

/-- Number of open brackets after one more word. -/
def depthAfter (depth : Nat) (t : Token) : Nat :=
  if t.kind == .operator then
    if t.text == "(" || t.text == "[" || t.text == "\x7b" then depth + 1
    else if t.text == ")" || t.text == "]" || t.text == "\x7d" then depth - 1
    else depth
  else depth

/-- The lexemes of the remaining words. -/
def lexemesFrom (s : State) : List Token → List Lexeme
  | [] =>
    let (marks, s) := breakLine [] s
    marks ++ [s.mark .endOfText]
  | t :: tokens =>
    let (marks, s) :=
      if t.afterBreak && s.depth == 0 then breakLine (t :: tokens) s else ([], s)
    if t.isExtra then
      marks ++ lexemesFrom { s with extras := t.toNode :: s.extras, last := t.span } tokens
    else
      let lexeme : Lexeme := ⟨.word t.kind t.text, s.extras.reverse, t.span⟩
      let s' : State :=
        { s with
          depth := depthAfter s.depth t
          lineOpen := true
          afterColon := t.kind == .operator && t.text == ":"
          extras := []
          last := t.span }
      marks ++ lexeme :: lexemesFrom s' tokens

end Layout

/-- The lexemes of a sequence of words. The last one is `endOfText`. -/
def lexemes (tokens : List Token) : List Lexeme :=
  Layout.lexemesFrom ⟨[], 0, false, false, [], default⟩ tokens

end CrossRef.Syntax
