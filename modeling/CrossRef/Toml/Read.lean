/-
  CrossRef.Toml.Read

  Reading TOML documents.
-/
import CrossRef.Toml.Quoted
import CrossRef.Toml.Scalar
import CrossRef.Toml.Table

namespace CrossRef.Toml

open CrossRef.Text

/-! ## Blanks and keys -/

def skipSpaces (cs : List Char) : List Char := cs.dropWhile isSpace

/-- The rest of the text behind a comment, if one starts here: from its end of line on. -/
def skipComment : List Char → List Char
  | '#' :: rest => rest.dropWhile isPlain
  | rest => rest

/-- What is left behind spaces, comments and line ends. -/
def skipBlank : Nat → List Char → List Char
  | 0, cs => cs
  | fuel + 1, cs =>
    match skipComment (skipSpaces cs) with
    | '\n' :: rest => skipBlank fuel rest
    | '\r' :: '\n' :: rest => skipBlank fuel rest
    | rest => rest

/-- What is left behind the end of a line, before which spaces and a comment may stand. -/
def endOfLine? (cs : List Char) : Option (List Char) :=
  match skipComment (skipSpaces cs) with
  | [] => some []
  | '\n' :: rest => some rest
  | '\r' :: '\n' :: rest => some rest
  | _ => none

def isBareKey (c : Char) : Bool :=
  Decimal.isDigit c || ('a' ≤ c && c ≤ 'z') || ('A' ≤ c && c ≤ 'Z') || c == '_' || c == '-'

/-- One part of a key: in quotes, or bare. -/
def readSimpleKey (cs : List Char) : Option (String × List Char) :=
  match cs with
  | '\x22' :: rest => (readBasic rest).map fun (k, rest) => (String.ofList k, rest)
  | '\x27' :: rest => (readLiteral rest).map fun (k, rest) => (String.ofList k, rest)
  | cs =>
    let key := cs.takeWhile isBareKey
    if key.isEmpty then none else some (String.ofList key, cs.dropWhile isBareKey)

/-- The parts of a key, in front of the last and the last, and what follows.
    Spaces may stand around each part. -/
def readKeyParts : Nat → List Char → Option (List String × String × List Char)
  | 0, _ => none
  | fuel + 1, cs => do
    let (k, rest) ← readSimpleKey (skipSpaces cs)
    match skipSpaces rest with
    | '.' :: rest =>
      let (ks, last, rest) ← readKeyParts fuel rest
      return (k :: ks, last, rest)
    | rest => return ([], k, rest)

/-- How deep arrays, tables in braces and keys may nest. -/
def nestingLimit : Nat := 79

def readKey (cs : List Char) : Option (List String × String × List Char) :=
  readKeyParts nestingLimit cs

/-! ## Values -/

mutual

/-- A value that may nest `room` deep, and what follows. -/
def readValue : Nat → Nat → List Char → Option (Value × List Char)
  | 0, _, _ => none
  | fuel + 1, room, cs =>
    match cs with
    | '[' :: rest =>
      match room with
      | 0 => none
      | room + 1 => (readItems fuel room rest).map fun (vs, rest) => (.array vs, rest)
    | '\x7b' :: rest =>
      match room with
      | 0 => none
      | room + 1 =>
        match skipSpaces rest with
        | '\x7d' :: rest => some (.table .inline [], rest)
        | rest =>
          (readMembers fuel room [] rest).map fun (es, rest) => (.table .inline es, rest)
    | cs =>
      if let some (s, rest) := readString cs then some (.string (String.ofList s), rest)
      else if let some rest := stripLead "true".toList cs then some (.bool true, rest)
      else if let some rest := stripLead "false".toList cs then some (.bool false, rest)
      else (scalar? cs).map fun rest => (.scalar, rest)

/-- The items of an array up to its end. A comma may follow the last. -/
def readItems : Nat → Nat → List Char → Option (List Value × List Char)
  | 0, _, _ => none
  | fuel + 1, room, cs =>
    match skipBlank cs.length cs with
    | ']' :: rest => some ([], rest)
    | cs => do
      let (v, rest) ← readValue fuel room cs
      match skipBlank rest.length rest with
      | ']' :: rest => return ([v], rest)
      | ',' :: rest =>
        let (vs, rest) ← readItems fuel room rest
        return (v :: vs, rest)
      | _ => none

/-- The members of a table in braces up to its end, added to those before them. -/
def readMembers : Nat → Nat → Entries → List Char → Option (Entries × List Char)
  | 0, _, _, _ => none
  | fuel + 1, room, es, cs => do
    let (path, key, rest) ← readKey cs
    let rest ← stripLead ['='] rest
    let (v, rest) ← readValue fuel room (skipSpaces rest)
    let es ← insertKey path key v es
    match skipSpaces rest with
    | '\x7d' :: rest => return (es, rest)
    | ',' :: rest => readMembers fuel room es rest
    | _ => none

end

/-! ## Documents -/

/-- A document as far as it has been read: its tables, and the way to the one
    that was opened last. -/
structure Document where
  root : Entries
  current : List String

/-- One line that says something: a header, or a key with its value. -/
def readLine (doc : Document) (cs : List Char) : Option (Document × List Char) :=
  match cs with
  | '[' :: '[' :: rest => do
    let (path, key, rest) ← readKey rest
    let rest ← stripLead [']', ']'] rest
    return (⟨← openRow path key doc.root, path ++ [key]⟩, ← endOfLine? rest)
  | '[' :: rest => do
    let (path, key, rest) ← readKey rest
    let rest ← stripLead [']'] rest
    return (⟨← openTable path key doc.root, path ++ [key]⟩, ← endOfLine? rest)
  | cs => do
    let (path, key, rest) ← readKey cs
    let rest ← stripLead ['='] rest
    let (v, rest) ← readValue (rest.length + 1) nestingLimit (skipSpaces rest)
    return (⟨← insertAt doc.current path key v doc.root, doc.current⟩, ← endOfLine? rest)

/-- The lines of a document. -/
def readLines : Nat → Document → List Char → Option Document
  | 0, _, _ => none
  | fuel + 1, doc, cs =>
    match skipBlank cs.length cs with
    | [] => some doc
    | cs => do
      let (doc, rest) ← readLine doc cs
      readLines fuel doc rest

/-- The entries of a document. A mark of byte order in front does not count. -/
def parse? (text : String) : Option Entries :=
  let cs :=
    match text.toList with
    | c :: rest => if c.toNat = 0xFEFF then rest else c :: rest
    | [] => []
  (readLines (cs.length + 1) ⟨[], []⟩ cs).map (·.root)

end CrossRef.Toml
