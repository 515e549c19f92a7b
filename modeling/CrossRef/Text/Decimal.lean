/-
  CrossRef.Text.Decimal

  Reading decimal numbers: digits, perhaps behind one plus sign, with any
  number of zeros in front, up to a largest value.
-/

namespace CrossRef.Text.Decimal

def isDigit (c : Char) : Bool := '0' ≤ c && c ≤ '9'

/-- What a digit stands for. -/
def digitValue (c : Char) : Nat := c.toNat - '0'.toNat

/-- The number a row of digits denotes. -/
def value (cs : List Char) : Nat := cs.foldl (fun n c => 10 * n + digitValue c) 0

/-- The number a text denotes, if it is one and at most `largest`. -/
def read? (largest : Nat) (text : List Char) : Option Nat :=
  let digits :=
    match text with
    | '+' :: cs => cs
    | cs => cs
  if digits ≠ [] ∧ digits.all isDigit ∧ value digits ≤ largest then some (value digits) else none

/-- The largest line or column a position may have. -/
def largestWord : Nat := 4294967295

/-- The largest count a report may have. -/
def largestCount : Nat := 18446744073709551615

end CrossRef.Text.Decimal
