/-
  CrossRef.Json.Value

  JSON values and their texts. The compact text has no blanks; the indented
  one puts every element and every member on a line of its own, two blanks
  further in than what holds it.
-/

namespace CrossRef.Json

/-- A JSON value. Numbers are natural numbers, and members keep their order.
    `unusable` stands for what is well-formed but no such value: a number with
    a sign, a fraction or an exponent, a string with half a surrogate pair, an
    object with such a string as a key. -/
inductive Value where
  | null
  | bool (b : Bool)
  | number (n : Nat)
  | string (s : String)
  | array (items : List Value)
  | object (members : List (String × Value))
  | unusable
deriving Repr, Inhabited

namespace Value

/-! ## Strings -/

def hexDigit (n : Nat) : Char := if n < 10 then Char.ofNat (48 + n) else Char.ofNat (87 + n)

/-- A character inside a string: quotes, backslashes and control characters are escaped. -/
def escape (c : Char) : List Char :=
  match c with
  | '\x22' => ['\\', '\x22']
  | '\\' => ['\\', '\\']
  | '\x08' => ['\\', 'b']
  | '\t' => ['\\', 't']
  | '\n' => ['\\', 'n']
  | '\x0c' => ['\\', 'f']
  | '\r' => ['\\', 'r']
  | c =>
    if c.toNat < 32 then
      ['\\', 'u', '0', '0', hexDigit (c.toNat / 16), hexDigit (c.toNat % 16)]
    else [c]

/-- A string in its quotes. -/
def quoted (s : String) : List Char := '\x22' :: s.toList.flatMap escape ++ ['\x22']

def literal (s : String) : List Char := s.toList

/-! ## Compact text -/

mutual

/-- The value without any blanks. -/
def compactChars : Value → List Char
  | null => literal "null"
  | bool b => literal (if b then "true" else "false")
  | number n => literal (toString n)
  | string s => quoted s
  | array [] => ['[', ']']
  | array (x :: xs) => '[' :: compactChars x ++ compactItems xs
  | object [] => ['\x7b', '\x7d']
  | object ((k, v) :: ms) =>
    '\x7b' :: quoted k ++ ':' :: compactChars v ++ compactMembers ms
  | unusable => literal "null"

/-- The items after the first, up to the closing bracket. -/
def compactItems : List Value → List Char
  | [] => [']']
  | x :: xs => ',' :: compactChars x ++ compactItems xs

/-- The members after the first, up to the closing brace. -/
def compactMembers : List (String × Value) → List Char
  | [] => ['\x7d']
  | (k, v) :: ms => ',' :: quoted k ++ ':' :: compactChars v ++ compactMembers ms

end

def compact (v : Value) : String := String.ofList v.compactChars

/-! ## Indented text -/

/-- A new line with room in front. -/
def newline (depth : Nat) : List Char := '\n' :: List.replicate (2 * depth) ' '

mutual

/-- The value over several lines, when what holds it stands `depth` steps in. -/
def indentedChars (depth : Nat) : Value → List Char
  | null => literal "null"
  | bool b => literal (if b then "true" else "false")
  | number n => literal (toString n)
  | string s => quoted s
  | array [] => ['[', ']']
  | array (x :: xs) =>
    '[' :: newline (depth + 1) ++ indentedChars (depth + 1) x ++ indentedItems depth xs
  | object [] => ['\x7b', '\x7d']
  | object ((k, v) :: ms) =>
    '\x7b' :: newline (depth + 1) ++ quoted k ++ ':' :: ' ' :: indentedChars (depth + 1) v
      ++ indentedMembers depth ms
  | unusable => literal "null"

def indentedItems (depth : Nat) : List Value → List Char
  | [] => newline depth ++ [']']
  | x :: xs =>
    ',' :: newline (depth + 1) ++ indentedChars (depth + 1) x ++ indentedItems depth xs

def indentedMembers (depth : Nat) : List (String × Value) → List Char
  | [] => newline depth ++ ['\x7d']
  | (k, v) :: ms =>
    ',' :: newline (depth + 1) ++ quoted k ++ ':' :: ' ' :: indentedChars (depth + 1) v
      ++ indentedMembers depth ms

end

def indented (v : Value) : String := String.ofList (v.indentedChars 0)

end Value

end CrossRef.Json
