/-
  CrossRef.Syntax.Quoted

  Where a string literal ends. A formatted string holds code between braces,
  that code may hold further strings, and a format specification may hold
  further code, so the reader keeps a stack of what it is inside of.
-/

namespace CrossRef.Syntax

/-- What the letters in front of the opening quote say. -/
structure StringFlags where
  raw : Bool
  formatted : Bool
deriving DecidableEq, Repr, Inhabited

namespace StringFlags

def plain : StringFlags := ⟨false, false⟩

/-- The letters that may stand in front of a quote, in either case. -/
def isLetter (c : Char) : Bool := "fFrRbBuU".toList.contains c

/-- The flags after one more letter. -/
def add (s : StringFlags) (c : Char) : StringFlags :=
  ⟨s.raw || c == 'r' || c == 'R', s.formatted || c == 'f' || c == 'F'⟩

end StringFlags

/-- The characters that open and close a string. -/
def isQuote (c : Char) : Bool := c == '\x22' || c == '\x27' || c == '\x60'

/-- One level of what the reader is inside of. -/
inductive Frame where
  /-- The text of a string closed by one or three quotes. -/
  | text (quote : Char) (triple : Bool) (flags : StringFlags)
  /-- Code between braces, with the open brackets in it and the flags of the
      word just read, `none` when that word cannot stand before a quote. -/
  | code (depth : Nat) (word : Option StringFlags)
  /-- A format specification. -/
  | spec
deriving Repr

/-- The code after one more character that opens no string. -/
def Frame.codeAfter (depth : Nat) (word : Option StringFlags) (c : Char) : Frame :=
  if StringFlags.isLetter c then .code depth (word.map (·.add c))
  else if c.isAlphanum || c == '_' || c.toNat ≥ 128 then .code depth none
  else .code depth (some .plain)

/-- What follows the string, given the frames that are still open. -/
def afterQuoted : List Frame → List Char → List Char
  | [], cs => cs
  | _, [] => []
  | .text q triple flags :: outer, c :: cs =>
    let self := Frame.text q triple flags :: outer
    if c = '\\' then
      match cs with
      | '\r' :: '\n' :: rest => afterQuoted self rest
      | d :: rest =>
        if d = q || d = '\\' || d = '\n' || (!flags.raw && isQuote d) then afterQuoted self rest
        else afterQuoted self (d :: rest)
      | [] => []
    else if c = q then
      if triple then
        match cs with
        | d :: e :: rest =>
          if d = q && e = q then afterQuoted outer rest else afterQuoted self (d :: e :: rest)
        | rest => afterQuoted self rest
      else afterQuoted outer cs
    else if flags.formatted && c = '\x7b' then
      match cs with
      | '\x7b' :: rest => afterQuoted self rest
      | rest => afterQuoted (.code 0 (some .plain) :: self) rest
    else afterQuoted self cs
  | .code depth word :: outer, c :: cs =>
    if isQuote c then
      let flags := word.getD .plain
      let inner := Frame.code depth (some .plain) :: outer
      match cs with
      | d :: e :: rest =>
        if d = c && e = c then afterQuoted (.text c true flags :: inner) rest
        else afterQuoted (.text c false flags :: inner) (d :: e :: rest)
      | rest => afterQuoted (.text c false flags :: inner) rest
    else if c = '(' || c = '[' || c = '\x7b' then
      afterQuoted (.code (depth + 1) (some .plain) :: outer) cs
    else if c = '\x7d' && depth = 0 then afterQuoted outer cs
    else if c = ')' || c = ']' || c = '\x7d' then
      afterQuoted (.code (depth - 1) (some .plain) :: outer) cs
    else if c = ':' && depth = 0 then afterQuoted (.spec :: outer) cs
    else afterQuoted (Frame.codeAfter depth word c :: outer) cs
  | .spec :: outer, c :: cs =>
    if c = '\x7b' then afterQuoted (.code 0 (some .plain) :: .spec :: outer) cs
    else if c = '\x7d' then afterQuoted outer cs
    else afterQuoted (.spec :: outer) cs
termination_by _ cs => cs.length

/-- What follows the string literal that begins here, letters and quotes
    included; `none` when no string begins here. -/
def afterString (cs : List Char) : Option (List Char) :=
  let letters := cs.takeWhile StringFlags.isLetter
  let flags := letters.foldl StringFlags.add .plain
  match cs.dropWhile StringFlags.isLetter with
  | c :: d :: e :: rest =>
    if !isQuote c then none
    else if c ≠ '\x60' && d = c && e = c then some (afterQuoted [.text c true flags] rest)
    else some (afterQuoted [.text c false flags] (d :: e :: rest))
  | c :: rest => if isQuote c then some (afterQuoted [.text c false flags] rest) else none
  | [] => none

end CrossRef.Syntax
