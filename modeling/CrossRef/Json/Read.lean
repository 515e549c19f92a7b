/-
  CrossRef.Json.Read

  Reading JSON texts. Everything the format allows is read; blanks may stand
  around every token, and nothing may follow the value.
-/
import CrossRef.Json.Value
import CrossRef.Text.Decimal
import CrossRef.Text.Split

namespace CrossRef.Json

open CrossRef.Text

def isBlank (c : Char) : Bool := c == ' ' || c == '\n' || c == '\t' || c == '\r'

def skipBlanks (cs : List Char) : List Char := cs.dropWhile isBlank

/-! ## Strings -/

/-- What a piece of a string denotes: a character, or a unit given by number
    that may be half of one. -/
inductive Piece where
  | char (c : Char)
  | unit (n : Nat)
deriving DecidableEq, Repr

def hexValue? (c : Char) : Option Nat :=
  if '0' ≤ c ∧ c ≤ '9' then some (c.toNat - 48)
  else if 'a' ≤ c ∧ c ≤ 'f' then some (c.toNat - 87)
  else if 'A' ≤ c ∧ c ≤ 'F' then some (c.toNat - 55)
  else none

/-- The number four hexadecimal digits denote. -/
def unit? (a b c d : Char) : Option Nat := do
  return (((← hexValue? a) * 16 + (← hexValue? b)) * 16 + (← hexValue? c)) * 16 + (← hexValue? d)

/-- The character a single letter after a backslash stands for. -/
def escaped? : Char → Option Char
  | '\x22' => some '\x22'
  | '\\' => some '\\'
  | '/' => some '/'
  | 'b' => some '\x08'
  | 'f' => some '\x0c'
  | 'n' => some '\n'
  | 'r' => some '\r'
  | 't' => some '\t'
  | _ => none

/-- The pieces of a string up to its closing quote, and what follows. -/
def pieces : List Char → Option (List Piece × List Char)
  | '\x22' :: rest => some ([], rest)
  | '\\' :: 'u' :: a :: b :: c :: d :: rest => do
    let n ← unit? a b c d
    let (ps, rest) ← pieces rest
    return (.unit n :: ps, rest)
  | '\\' :: e :: rest => do
    let c ← escaped? e
    let (ps, rest) ← pieces rest
    return (.char c :: ps, rest)
  | c :: rest =>
    if c.toNat < 32 then none
    else do
      let (ps, rest) ← pieces rest
      return (.char c :: ps, rest)
  | [] => none

def isHighSurrogate (n : Nat) : Bool := 0xD800 ≤ n && n < 0xDC00

def isLowSurrogate (n : Nat) : Bool := 0xDC00 ≤ n && n < 0xE000

/-- The characters the pieces denote, unless half of a surrogate pair is missing. -/
def join : List Piece → Option (List Char)
  | [] => some []
  | .char c :: ps => (join ps).map (c :: ·)
  | .unit n :: ps =>
    if isHighSurrogate n then
      match ps with
      | .unit m :: ps' =>
        if isLowSurrogate m then
          (join ps').map (Char.ofNat (0x10000 + (n - 0xD800) * 0x400 + (m - 0xDC00)) :: ·)
        else none
      | _ => none
    else if isLowSurrogate n then none
    else (join ps).map (Char.ofNat n :: ·)

/-- A string behind its opening quote; the inner `none` is one that denotes no text. -/
def readString (cs : List Char) : Option (Option String × List Char) :=
  (pieces cs).map fun (ps, rest) => ((join ps).map String.ofList, rest)

/-! ## Numbers -/

/-- At least one digit, and what follows. -/
def readDigits (cs : List Char) : Option (List Char × List Char) :=
  let digits := cs.takeWhile Decimal.isDigit
  if digits.isEmpty then none else some (digits, cs.dropWhile Decimal.isDigit)

/-- The fraction and the exponent behind an integer, both optional: whether
    there is one, and what follows. -/
def readTail (cs : List Char) : Option (Bool × List Char) := do
  let (fraction, cs) ←
    match cs with
    | '.' :: cs => (readDigits cs).map fun (_, rest) => (true, rest)
    | cs => some (false, cs)
  let exponent (cs : List Char) : Option (Bool × List Char) :=
    match cs with
    | '+' :: cs | '-' :: cs | cs => (readDigits cs).map fun (_, rest) => (true, rest)
  match cs with
  | 'e' :: cs | 'E' :: cs => exponent cs
  | cs => some (fraction, cs)

/-- A number without its sign. A zero in front is only allowed by itself. -/
def readNumber (negative : Bool) (cs : List Char) : Option (Value × List Char) := do
  let (digits, rest) ← readDigits cs
  if digits.head? = some '0' ∧ digits.length > 1 then none
  let (more, rest) ← readTail rest
  return (if negative || more then .unusable else .number (Decimal.value digits), rest)

/-! ## Values -/

/-- An object with these members, keys that denote no text included. -/
def objectOf (members : List (Option String × Value)) : Value :=
  match members.mapM fun (k, v) => k.map fun k => (k, v) with
  | some ms => .object ms
  | none => .unusable

mutual

/-- A value, blanks in front of it allowed. -/
def readValue : Nat → List Char → Option (Value × List Char)
  | 0, _ => none
  | fuel + 1, cs =>
    match skipBlanks cs with
    | '[' :: rest =>
      match skipBlanks rest with
      | ']' :: rest => some (.array [], rest)
      | rest => do
        let (x, rest) ← readValue fuel rest
        let (xs, rest) ← readItems fuel rest
        return (.array (x :: xs), rest)
    | '\x7b' :: rest =>
      match skipBlanks rest with
      | '\x7d' :: rest => some (.object [], rest)
      | rest => do
        let (m, rest) ← readMember fuel rest
        let (ms, rest) ← readMembers fuel rest
        return (objectOf (m :: ms), rest)
    | '\x22' :: rest =>
      (readString rest).map fun (s, rest) => ((s.map Value.string).getD .unusable, rest)
    | '-' :: rest => readNumber true rest
    | rest =>
      if let some rest := stripLead "null".toList rest then some (.null, rest)
      else if let some rest := stripLead "true".toList rest then some (.bool true, rest)
      else if let some rest := stripLead "false".toList rest then some (.bool false, rest)
      else readNumber false rest

/-- Further items of an array, up to its end. -/
def readItems : Nat → List Char → Option (List Value × List Char)
  | 0, _ => none
  | fuel + 1, cs =>
    match skipBlanks cs with
    | ']' :: rest => some ([], rest)
    | ',' :: rest => do
      let (x, rest) ← readValue fuel rest
      let (xs, rest) ← readItems fuel rest
      return (x :: xs, rest)
    | _ => none

/-- A key with its value. -/
def readMember : Nat → List Char → Option ((Option String × Value) × List Char)
  | 0, _ => none
  | fuel + 1, cs =>
    match skipBlanks cs with
    | '\x22' :: rest => do
      let (k, rest) ← readString rest
      match skipBlanks rest with
      | ':' :: rest =>
        let (v, rest) ← readValue fuel rest
        return ((k, v), rest)
      | _ => none
    | _ => none

/-- Further members of an object, up to its end. -/
def readMembers : Nat → List Char → Option (List (Option String × Value) × List Char)
  | 0, _ => none
  | fuel + 1, cs =>
    match skipBlanks cs with
    | '\x7d' :: rest => some ([], rest)
    | ',' :: rest => do
      let (m, rest) ← readMember fuel rest
      let (ms, rest) ← readMembers fuel rest
      return (m :: ms, rest)
    | _ => none

end

/-- The value a text denotes. Each step of the reading uses up a character, or
    is one of two between which one is used up. -/
def parse? (text : String) : Option Value :=
  let cs := text.toList
  match readValue (2 * cs.length + 2) cs with
  | some (v, rest) => if (skipBlanks rest).isEmpty then some v else none
  | none => none

end CrossRef.Json
