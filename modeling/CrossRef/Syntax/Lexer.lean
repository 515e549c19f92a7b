/-
  CrossRef.Syntax.Lexer

  From characters to words. The longest operator wins, letters in front of a
  quote belong to the string, and a line feed behind a backslash joins two
  lines without separating words.
-/
import CrossRef.Syntax.Quoted
import CrossRef.Syntax.Token
import CrossRef.Text.Identifier

namespace CrossRef.Syntax

/-! ## Places -/

/-- A place in the text together with what follows it. -/
structure Cursor where
  rest : List Char
  /-- Number of characters in `rest`. -/
  left : Nat
  point : Point
  byte : Nat
deriving Inhabited

namespace Cursor

/-- The beginning of a text. -/
def ofText (text : String) : Cursor := ⟨text.toList, text.length, ⟨0, 0⟩, 0⟩

/-- The place behind the next `n` characters. -/
def advance (c : Cursor) : Nat → Cursor
  | 0 => c
  | n + 1 =>
    match c.rest with
    | [] => c
    | ch :: rest =>
      let point : Point :=
        if ch = '\n' then ⟨c.point.row + 1, 0⟩ else ⟨c.point.row, c.point.column + ch.utf8Size⟩
      advance ⟨rest, c.left - 1, point, c.byte + ch.utf8Size⟩ n

/-- The stretch between two places. -/
def spanTo (a b : Cursor) : Span := ⟨a.point, b.point, a.byte, b.byte⟩

end Cursor

/-! ## Numbers -/

/-- Number of characters in a run of digits, a single underscore allowed behind each digit. -/
def digitRun (isDigit : Char → Bool) : List Char → Nat
  | [] => 0
  | [c] => if isDigit c then 1 else 0
  | c :: d :: cs =>
    if isDigit c then
      if d = '_' then 2 + digitRun isDigit cs else 1 + digitRun isDigit (d :: cs)
    else 0

/-- Number of characters in an exponent, zero when there is none. -/
def exponentLength : List Char → Nat
  | e :: cs =>
    if e = 'e' || e = 'E' then
      let sign := if cs.head? = some '+' || cs.head? = some '-' then 1 else 0
      let digits := digitRun Char.isDigit (cs.drop sign)
      if digits = 0 then 0 else 1 + sign + digits
    else 0
  | [] => 0

/-- One more character when the next is one of `letters`. -/
def optionalLetter (letters : List Char) (cs : List Char) : Nat :=
  match cs with
  | c :: _ => if letters.contains c then 1 else 0
  | [] => 0

def isHexDigit (c : Char) : Bool :=
  c.isDigit || ('a' ≤ c && c ≤ 'f') || ('A' ≤ c && c ≤ 'F')

/-- Number of characters in a run of digits, a single underscore allowed before each digit. -/
def basedRun (isDigit : Char → Bool) : List Char → Nat
  | [] => 0
  | c :: cs =>
    if isDigit c then 1 + basedRun isDigit cs
    else if c = '_' && (cs.head?.any isDigit) then 1 + basedRun isDigit cs
    else 0

/-- Length of a number written in base sixteen, eight or two behind its mark; zero
    when it is none. -/
def basedLength (cs : List Char) : Nat :=
  let run (isDigit : Char → Bool) (body : List Char) : Nat :=
    let digits := basedRun isDigit body
    if digits = 0 then 0
    else 2 + digits + optionalLetter ['l', 'L'] (body.drop digits)
  match cs with
  | '0' :: m :: body =>
    if m = 'x' || m = 'X' then run isHexDigit body
    else if m = 'o' || m = 'O' then run (fun c => '0' ≤ c && c ≤ '7') body
    else if m = 'b' || m = 'B' then run (fun c => c = '0' || c = '1') body
    else 0
  | _ => 0

/-- Kind and length of the number that begins here. -/
def number? (cs : List Char) : Option (TokenKind × Nat) :=
  let based := basedLength cs
  if based > 0 then some (.integer, based)
  else
    let whole := digitRun Char.isDigit cs
    let rest := cs.drop whole
    let fraction :=
      match rest with
      | '.' :: body =>
        let digits := digitRun Char.isDigit body
        if whole = 0 && digits = 0 then 0 else 1 + digits
      | _ => 0
    if whole = 0 && fraction = 0 then none
    else
      let exponent := exponentLength (rest.drop fraction)
      let tail := rest.drop (fraction + exponent)
      if fraction = 0 && exponent = 0 then
        some (.integer, whole + optionalLetter ['l', 'L', 'j', 'J'] tail)
      else some (.float, whole + fraction + exponent + optionalLetter ['j', 'J'] tail)

/-! ## Operators -/

/-- Operators of more than one character, longer ones first. -/
def longOperators : List (List Char) :=
  ["**=", "//=", ">>=", "<<=", "...", "!=", "==", "<=", ">=", "<>", "->", ":=", "+=", "-=", "*=",
   "/=", "%=", "@=", "&=", "|=", "^=", "**", "//", "<<", ">>"].map String.toList

/-- Length of the operator that begins here: the longest that fits, else a single character. -/
def operatorLength (cs : List Char) : Nat :=
  match longOperators.find? (·.isPrefixOf cs) with
  | some op => op.length
  | none => 1

/-! ## Words -/

/-- Number of characters up to the end of the line. -/
def lineLength (cs : List Char) : Nat := (cs.takeWhile (· ≠ '\n')).length

/-- Kind and length of the word at the front of a text that begins with no blank. -/
def word (cs : List Char) : TokenKind × Nat :=
  match cs with
  | '#' :: _ => (.comment, lineLength cs)
  | '\\' :: '\n' :: _ => (.lineContinuation, 2)
  | '\\' :: '\r' :: '\n' :: _ => (.lineContinuation, 3)
  | _ =>
    match afterString cs with
    | some rest => (.string, cs.length - rest.length)
    | none =>
      match cs with
      | [] => (.operator, 0)
      | c :: _ =>
        if Text.isNameStart c then (.name, (cs.takeWhile Text.isNameRest).length)
        else
          match number? cs with
          | some found => found
          | none => (.operator, operatorLength cs)

/-- Blanks separate words and are not words themselves. -/
def isBlank (c : Char) : Bool :=
  c = ' ' || ('\t' ≤ c && c ≤ '\r') || c = '\uFEFF' || c = '\u2060' || c = '\u200B'

/-- Width of the line's blanks after one more blank. -/
def indentAfter (indent : Nat) (c : Char) : Nat :=
  if c = ' ' then indent + 1
  else if c = '\t' then indent + 8
  else if c = '\n' || c = '\r' || c = '\x0c' then 0
  else indent

/-- The words from a place on. `afterBreak` and `indent` describe the blanks
    already passed since the last word. -/
def wordsFrom (place : Cursor) (afterBreak : Bool) (indent : Nat) : List Token :=
  match place.rest with
  | [] => []
  | c :: _ =>
    if isBlank c then
      let next := place.advance 1
      if next.left < place.left then
        wordsFrom next (afterBreak || c == '\n') (indentAfter indent c)
      else []
    else
      let (kind, length) := word place.rest
      let next := place.advance (max 1 length)
      let token : Token :=
        ⟨kind, String.ofList (place.rest.take (max 1 length)), place.spanTo next, afterBreak,
          indent⟩
      if next.left < place.left then
        token :: wordsFrom next false (if kind == .lineContinuation then indent else 0)
      else [token]
termination_by place.left

/-- The words of a text. -/
def words (text : String) : List Token := wordsFrom (.ofText text) false 0

end CrossRef.Syntax
