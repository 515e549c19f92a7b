/-
  CrossRef.Toml.Scalar

  The scalars of TOML that are no strings: numbers, dates and times. What
  they denote is of no interest to settings, only where they end and whether
  they are well-formed.
-/
import CrossRef.Text.Decimal
import CrossRef.Text.Split

namespace CrossRef.Toml

open CrossRef.Text

/-! ## Numbers -/

/-- The digits that continue a number, single underscores between them left out. -/
def moreDigits (isDigit : Char → Bool) : List Char → List Char × List Char
  | '_' :: d :: rest =>
    if isDigit d then
      let (ds, rest) := moreDigits isDigit rest
      (d :: ds, rest)
    else ([], '_' :: d :: rest)
  | d :: rest =>
    if isDigit d then
      let (ds, rest) := moreDigits isDigit rest
      (d :: ds, rest)
    else ([], d :: rest)
  | [] => ([], [])

/-- At least one digit, and what follows. -/
def digits? (isDigit : Char → Bool) : List Char → Option (List Char × List Char)
  | d :: rest =>
    if isDigit d then
      let (ds, rest) := moreDigits isDigit rest
      some (d :: ds, rest)
    else none
  | [] => none

/-- A sign, if there is one: whether it is a minus. -/
def sign : List Char → Bool × List Char
  | '-' :: rest => (true, rest)
  | '+' :: rest => (false, rest)
  | rest => (false, rest)

/-- A decimal integer without its sign. A zero in front stands by itself. -/
def unsigned? : List Char → Option (List Char × List Char)
  | '0' :: rest => some (['0'], rest)
  | rest => digits? Decimal.isDigit rest

/-- The value of a digit in any base up to sixteen. -/
def baseValue (c : Char) : Nat :=
  if c ≤ '9' then c.toNat - 48 else if c ≤ 'F' then c.toNat - 55 else c.toNat - 87

/-- An integer in another base than ten, behind the letters that say so. -/
def based? (base : Nat) (isDigit : Char → Bool) (cs : List Char) : Option (List Char) := do
  let (ds, rest) ← digits? isDigit cs
  if ds.foldl (fun n d => base * n + baseValue d) 0 ≤ 9223372036854775807 then some rest else none

def isHexDigit (c : Char) : Bool :=
  Decimal.isDigit c || ('a' ≤ c && c ≤ 'f') || ('A' ≤ c && c ≤ 'F')

/-- An integer of 64 bits. -/
def integer? (cs : List Char) : Option (List Char) :=
  match cs with
  | '0' :: 'x' :: rest => based? 16 isHexDigit rest
  | '0' :: 'o' :: rest => based? 8 (fun c => '0' ≤ c && c ≤ '7') rest
  | '0' :: 'b' :: rest => based? 2 (fun c => c == '0' || c == '1') rest
  | cs => do
    let (negative, rest) := sign cs
    let (ds, rest) ← unsigned? rest
    let largest := if negative then 9223372036854775808 else 9223372036854775807
    if Decimal.value ds ≤ largest then some rest else none

/-- Whether a positive decimal fraction is beyond every finite number of 64
    bits, that is at least half a step above the largest. -/
def overflows (mantissa : Nat) (negativeExponent : Bool) (exponent fractionDigits : Nat) : Bool :=
  let limit := Nat.pow 2 1024 - Nat.pow 2 970
  if mantissa = 0 then false
  else if negativeExponent then
    -- a power of ten that no mantissa of this many digits can make up for
    if exponent > (Nat.log2 mantissa) + 1 then false
    else limit * Nat.pow 10 (exponent + fractionDigits) ≤ mantissa
  else if exponent > fractionDigits + 400 then true
  else limit * Nat.pow 10 fractionDigits ≤ mantissa * Nat.pow 10 exponent

/-- An exponent: whether it is negative, its digits, and what follows. -/
def exponent? : List Char → Option (Bool × List Char × List Char)
  | c :: rest =>
    if c = 'e' ∨ c = 'E' then do
      let (negative, rest) := sign rest
      let (ds, rest) ← digits? Decimal.isDigit rest
      return (negative, ds, rest)
    else none
  | [] => none

/-- A number with a fraction, an exponent or both. -/
def float? (cs : List Char) : Option (List Char) := do
  let (negative, rest) := sign cs
  if let some rest := stripLead "inf".toList rest <|> stripLead "nan".toList rest then
    return rest
  let (whole, rest) ← unsigned? rest
  let (fraction, rest) ←
    match rest with
    | '.' :: rest => digits? Decimal.isDigit rest
    | rest => if (exponent? rest).isSome then some ([], rest) else none
  let (down, exponent, rest) := (exponent? rest).getD (false, ['0'], rest)
  let tooLarge := !negative
    && overflows (Decimal.value (whole ++ fraction)) down (Decimal.value exponent) fraction.length
  if tooLarge then none else some rest

/-! ## Dates and times -/

/-- A number of exactly `n` digits between two bounds. -/
def fixed? (n low high : Nat) (cs : List Char) : Option (Nat × List Char) :=
  let ds := cs.take n
  if ds.length = n ∧ ds.all Decimal.isDigit ∧ low ≤ Decimal.value ds ∧ Decimal.value ds ≤ high then
    some (Decimal.value ds, cs.drop n)
  else none

def daysIn (year month : Nat) : Nat :=
  if month = 2 then
    if year % 4 = 0 ∧ (year % 100 ≠ 0 ∨ year % 400 = 0) then 29 else 28
  else if month = 4 ∨ month = 6 ∨ month = 9 ∨ month = 11 then 30
  else 31

def date? (cs : List Char) : Option (List Char) := do
  let (year, rest) ← fixed? 4 0 9999 cs
  let (month, rest) ← fixed? 2 1 12 (← stripLead ['-'] rest)
  let (_, rest) ← fixed? 2 1 (daysIn year month) (← stripLead ['-'] rest)
  return rest

def time? (cs : List Char) : Option (List Char) := do
  let (_, rest) ← fixed? 2 0 23 cs
  let (_, rest) ← fixed? 2 0 59 (← stripLead [':'] rest)
  let (_, rest) ← fixed? 2 0 60 (← stripLead [':'] rest)
  match rest with
  | '.' :: d :: more => if Decimal.isDigit d then some (more.dropWhile Decimal.isDigit) else none
  | ['.'] => none
  | rest => some rest

/-- How far a time is from universal time. -/
def offset? : List Char → Option (List Char)
  | c :: rest =>
    if c = 'Z' ∨ c = 'z' then some rest
    else if c = '+' ∨ c = '-' then do
      let (_, rest) ← fixed? 2 0 23 rest
      let (_, rest) ← fixed? 2 0 59 (← stripLead [':'] rest)
      return rest
    else none
  | [] => none

/-- A date, a time, or a date with a time and perhaps an offset. -/
def dateTime? (cs : List Char) : Option (List Char) :=
  match date? cs with
  | none => time? cs
  | some rest =>
    match rest with
    | c :: more =>
      if c = 'T' ∨ c = 't' ∨ c = ' ' then
        match time? more with
        | some rest => some ((offset? rest).getD rest)
        | none => some rest
      else some rest
    | [] => some rest

/-- Any scalar that begins with a digit, a sign or a letter. -/
def scalar? (cs : List Char) : Option (List Char) :=
  dateTime? cs <|> float? cs <|> integer? cs

end CrossRef.Toml
