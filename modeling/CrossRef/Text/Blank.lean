/-
  CrossRef.Text.Blank

  White space: the characters with that property in the Unicode character
  database.
-/

namespace CrossRef.Text

def isWhiteSpace (c : Char) : Bool :=
  let n := c.toNat
  (9 ≤ n && n ≤ 13) || n == 0x20 || n == 0x85 || n == 0xA0 || n == 0x1680
    || (0x2000 ≤ n && n ≤ 0x200A) || n == 0x2028 || n == 0x2029 || n == 0x202F || n == 0x205F
    || n == 0x3000

/-- Without the white space at the end. -/
def trimEnd (cs : List Char) : List Char := (cs.reverse.dropWhile isWhiteSpace).reverse

/-- The lines of a text. A line ends with a line feed, and a carriage return
    right before that does not belong to it; what follows the last line feed is
    a line unless it is empty. -/
def lines (cs : List Char) : List (List Char) := go [] cs
where
  /-- The lines of a text whose first line begins with what has been read, backwards. -/
  go (read : List Char) : List Char → List (List Char)
    | [] => if read.isEmpty then [] else [read.reverse]
    | c :: cs =>
      if c = '\n' then
        (match read with
          | '\r' :: before => before
          | before => before).reverse :: go [] cs
      else go (c :: read) cs

end CrossRef.Text
