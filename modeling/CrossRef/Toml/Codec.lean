/-
  CrossRef.Toml.Codec

  Writing and reading tables of TOML. The program can do with any writer and
  any reader; `Codec.standard` has those given here. Its writer knows the
  values that settings have, and puts the items of a longer list on lines of
  their own.
-/
import CrossRef.Toml.Read

namespace CrossRef.Toml

/-- A way to write a table as a document, which may fail, and to read one. -/
structure Codec where
  write? : Entries → Option String
  read? : String → Option Entries

/-! ## Writing -/

/-- A list of texts: two or more stand on lines of their own. -/
def listText : List String → List Char
  | [] => "[]".toList
  | [s] => '[' :: quote s.toList ++ [']']
  | ss =>
    '[' :: '\n' :: (ss.flatMap fun s => "    ".toList ++ quote s.toList ++ [',', '\n']) ++ [']']

def string? : Value → Option String
  | .string s => some s
  | _ => none

/-- A flag, a text or a list of texts as it is written. -/
def valueText? : Value → Option (List Char)
  | .bool b => some (if b then "true" else "false").toList
  | .string s => some (quote s.toList)
  | .array vs => (vs.mapM string?).map listText
  | _ => none

/-- A line that gives a key a value. -/
def line (key : String) (value : List Char) : List Char :=
  key.toList ++ " = ".toList ++ value ++ ['\n']

/-- The line of an entry. Its key must need no quotes. -/
def lineOf? (e : String × Value) : Option (List Char) :=
  if e.1 != "" && e.1.toList.all isBareKey then (valueText? e.2).map (line e.1) else none

/-- The document with a line for each entry. -/
def write? (es : Entries) : Option String :=
  (es.mapM lineOf?).map fun lines => String.ofList lines.flatten

/-- The writer and the reader of this library. -/
def Codec.standard : Codec := ⟨Toml.write?, Toml.parse?⟩

end CrossRef.Toml
