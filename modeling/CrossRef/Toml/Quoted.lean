/-
  CrossRef.Toml.Quoted

  Strings in TOML: four ways of quoting them, the rule that chooses one when
  a string is written, and the reading of each.
-/
import CrossRef.Text.Decimal

namespace CrossRef.Toml

/-! ## Writing -/

/-- Ways to quote a string: in one line or several, with escapes or without any. -/
inductive Quoting where
  | basic | literal | longBasic | longLiteral
deriving DecidableEq, Repr

/-- Control characters other than tabs and line feeds can only be written as escapes. -/
def needsEscape (c : Char) : Bool :=
  (c.toNat < 32 && c != '\t' && c != '\n') || c.toNat == 127

/-- Length of the longest row of `c` that ends or stands in the text, where
    `run` of them stand in front. -/
def longestRun (c : Char) (run : Nat) : List Char → Nat
  | [] => run
  | d :: ds => if d = c then longestRun c (run + 1) ds else max run (longestRun c 0 ds)

/-- The first way of quoting that shows the text as it is: basic, literal, and
    then over several lines. Otherwise escapes are used. -/
def chooseQuoting (cs : List Char) : Quoting :=
  let controls := cs.any needsEscape
  let backslash := cs.contains '\\'
  let newline := cs.contains '\n'
  let doubles := longestRun '\x22' 0 cs
  let singles := longestRun '\x27' 0 cs
  if !controls && !backslash && doubles == 0 && !newline then .basic
  else if !controls && singles == 0 && !newline then .literal
  else if !controls && !backslash && doubles ≤ 2 then .longBasic
  else if !controls && singles ≤ 2 then .longLiteral
  else if newline then .longBasic
  else .basic

def hexDigit (n : Nat) : Char := if n < 10 then Char.ofNat (48 + n) else Char.ofNat (55 + n)

/-- A character other than a quote as it stands in an escaped string. -/
def escape (long : Bool) (c : Char) : List Char :=
  match c with
  | '\x08' => ['\\', 'b']
  | '\t' => ['\\', 't']
  | '\n' => if long then ['\n'] else ['\\', 'n']
  | '\x0c' => ['\\', 'f']
  | '\r' => ['\\', 'r']
  | '\\' => ['\\', '\\']
  | c =>
    if c.toNat < 32 ∨ c.toNat = 127 then
      ['\\', 'u', '0', '0', hexDigit (c.toNat / 16), hexDigit (c.toNat % 16)]
    else [c]

/-- A text as it stands in an escaped string. Up to `quotes` quotes in a row
    stand for themselves, `run` of which have been written. -/
def escapeAll (long : Bool) (quotes run : Nat) : List Char → List Char
  | [] => []
  | c :: cs =>
    if c = '\x22' then
      if run < quotes then '\x22' :: escapeAll long quotes (run + 1) cs
      else '\\' :: '\x22' :: escapeAll long quotes 0 cs
    else escape long c ++ escapeAll long quotes 0 cs

/-- A text between its quotes. A line feed behind long opening quotes does not
    count, so one is put there whenever the text has any. -/
def quote (cs : List Char) : List Char :=
  let lead := if cs.contains '\n' then ['\n'] else []
  match chooseQuoting cs with
  | .basic => '\x22' :: escapeAll false 0 0 cs ++ ['\x22']
  | .literal => '\x27' :: cs ++ ['\x27']
  | .longBasic =>
    ['\x22', '\x22', '\x22'] ++ lead ++ escapeAll true 2 0 cs ++ ['\x22', '\x22', '\x22']
  | .longLiteral => ['\x27', '\x27', '\x27'] ++ lead ++ cs ++ ['\x27', '\x27', '\x27']

/-! ## Reading -/

def isSpace (c : Char) : Bool := c == ' ' || c == '\t'

/-- Characters that stand for themselves in strings and comments. -/
def isPlain (c : Char) : Bool := c == '\t' || (32 ≤ c.toNat && c.toNat != 127)

def hexValue? (c : Char) : Option Nat :=
  if '0' ≤ c ∧ c ≤ '9' then some (c.toNat - 48)
  else if 'a' ≤ c ∧ c ≤ 'f' then some (c.toNat - 87)
  else if 'A' ≤ c ∧ c ≤ 'F' then some (c.toNat - 55)
  else none

/-- The character whose number a row of hexadecimal digits gives. -/
def character? (digits : List Char) : Option Char := do
  let values ← digits.mapM hexValue?
  let n := values.foldl (fun n v => 16 * n + v) 0
  if n.isValidChar then some (Char.ofNat n) else none

/-- The character a single letter behind a backslash stands for. -/
def escaped? : Char → Option Char
  | 'b' => some '\x08'
  | 't' => some '\t'
  | 'n' => some '\n'
  | 'f' => some '\x0c'
  | 'r' => some '\r'
  | '\x22' => some '\x22'
  | '\\' => some '\\'
  | _ => none

/-- What is left behind spaces and line ends. -/
def skipLines : List Char → List Char
  | '\r' :: '\n' :: rest => skipLines rest
  | '\n' :: rest => skipLines rest
  | ' ' :: rest => skipLines rest
  | '\t' :: rest => skipLines rest
  | rest => rest

theorem length_skipLines_le (cs : List Char) : (skipLines cs).length ≤ cs.length := by
  fun_induction skipLines cs <;> simp_all <;> omega

/-- What is left behind the rest of a line that is blank. -/
def blankLine? (cs : List Char) : Option (List Char) :=
  match cs.dropWhile isSpace with
  | '\n' :: rest => some rest
  | '\r' :: '\n' :: rest => some rest
  | _ => none

theorem length_lt_of_blankLine? {cs rest : List Char} (h : blankLine? cs = some rest) :
    rest.length < cs.length := by
  have := (List.dropWhile_suffix (p := isSpace) (l := cs)).length_le
  unfold blankLine? at h
  split at h
  · next he => cases h; simp only [he, List.length_cons] at this; omega
  · next he => cases h; simp only [he, List.length_cons] at this; omega
  · cases h

/-- One character of an escaped string behind a backslash, and what follows. -/
def readEscape : List Char → Option (Char × List Char)
  | 'u' :: a :: b :: c :: d :: rest => (character? [a, b, c, d]).map (·, rest)
  | 'U' :: a :: b :: c :: d :: e :: f :: g :: h :: rest =>
    (character? [a, b, c, d, e, f, g, h]).map (·, rest)
  | e :: rest => (escaped? e).map (·, rest)
  | [] => none

theorem length_lt_of_readEscape {cs rest : List Char} {c : Char}
    (h : readEscape cs = some (c, rest)) : rest.length < cs.length := by
  unfold readEscape at h
  split at h
  · obtain ⟨_, _, h⟩ := Option.map_eq_some_iff.1 h; cases h; simp only [List.length_cons]; omega
  · obtain ⟨_, _, h⟩ := Option.map_eq_some_iff.1 h; cases h; simp only [List.length_cons]; omega
  · obtain ⟨_, _, h⟩ := Option.map_eq_some_iff.1 h; cases h; simp
  · cases h

/-- A basic string behind its opening quote, and what follows. -/
def readBasic (cs : List Char) : Option (List Char × List Char) :=
  match cs with
  | [] => none
  | c :: rest =>
    if c = '\x22' then some ([], rest)
    else if c = '\\' then
      match _h : readEscape rest with
      | some (d, rest) => (readBasic rest).map fun (ds, rest) => (d :: ds, rest)
      | none => none
    else if isPlain c then (readBasic rest).map fun (ds, rest) => (c :: ds, rest)
    else none
termination_by cs.length
decreasing_by
  · have := length_lt_of_readEscape _h
    simp only [List.length_cons]; omega
  · simp

/-- A literal string behind its opening quote, and what follows. -/
def readLiteral : List Char → Option (List Char × List Char)
  | [] => none
  | c :: rest =>
    if c = '\x27' then some ([], rest)
    else if isPlain c then (readLiteral rest).map fun (ds, rest) => (c :: ds, rest)
    else none

/-- What a row of `quote` at least three long leaves of a long string: up to
    two of them belong to it. -/
def closing? (quote : Char) : List Char → Option (List Char × List Char)
  | a :: b :: c :: rest =>
    if a = quote ∧ b = quote ∧ c = quote then
      match rest with
      | d :: e :: rest' =>
        if d = quote ∧ e = quote then some ([quote, quote], rest')
        else if d = quote then some ([quote], e :: rest')
        else some ([], rest)
      | [d] => if d = quote then some ([quote], []) else some ([], rest)
      | [] => some ([], [])
    else none
  | _ => none

/-- A long basic string behind its opening quotes, and what follows. A
    backslash at the end of a line joins it to the next text. -/
def readLongBasic (cs : List Char) : Option (List Char × List Char) :=
  match closing? '\x22' cs with
  | some closed => some closed
  | none =>
    match cs with
    | [] => none
    | c :: rest =>
      if c = '\\' then
        match _h : blankLine? rest with
        | some next =>
          have := length_skipLines_le next
          readLongBasic (skipLines next)
        | none =>
          match _h : readEscape rest with
          | some (d, rest) => (readLongBasic rest).map fun (ds, rest) => (d :: ds, rest)
          | none => none
      else if c = '\n' ∨ isPlain c then
        (readLongBasic rest).map fun (ds, rest) => (c :: ds, rest)
      else if c = '\r' ∧ rest.head? = some '\n' then readLongBasic rest
      else none
termination_by cs.length
decreasing_by
  · have := length_lt_of_blankLine? _h
    simp only [List.length_cons]; omega
  · have := length_lt_of_readEscape _h
    simp only [List.length_cons]; omega
  · simp
  · simp

/-- A long literal string behind its opening quotes, and what follows. -/
def readLongLiteral (cs : List Char) : Option (List Char × List Char) :=
  match closing? '\x27' cs with
  | some closed => some closed
  | none =>
    match cs with
    | [] => none
    | c :: rest =>
      if c = '\n' ∨ isPlain c then
        (readLongLiteral rest).map fun (ds, rest) => (c :: ds, rest)
      else if c = '\r' ∧ rest.head? = some '\n' then readLongLiteral rest
      else none

/-- Without a line end in front. -/
def dropLineEnd : List Char → List Char
  | '\n' :: rest => rest
  | '\r' :: '\n' :: rest => rest
  | rest => rest

/-- A string in any quotes, and what follows. -/
def readString : List Char → Option (List Char × List Char)
  | '\x22' :: '\x22' :: '\x22' :: rest => readLongBasic (dropLineEnd rest)
  | '\x27' :: '\x27' :: '\x27' :: rest => readLongLiteral (dropLineEnd rest)
  | '\x22' :: rest => readBasic rest
  | '\x27' :: rest => readLiteral rest
  | _ => none

end CrossRef.Toml
