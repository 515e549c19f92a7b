/-
  CrossRef.ConfigFile

  Settings as a table: what is absent is left out when it is written, and what
  is left out is absent, or empty for lists, when it is read.
-/
import CrossRef.Config
import CrossRef.Toml.Codec

namespace CrossRef.Config

open CrossRef.Toml

/-- The table of these settings. -/
def toTable (c : Config) : Entries :=
  (c.crossFile.toList.map fun b => ("cross_file", .bool b))
    ++ (c.order.toList.map fun m => ("order", .string m.text))
    ++ [("include", .array (c.included.map .string)), ("exclude", .array (c.excluded.map .string))]

/-! ## Reading -/

def flag? : Value → Option Bool
  | .bool b => some b
  | _ => none

def texts? : Value → Option (List String)
  | .array vs => vs.mapM string?
  | _ => none

/-- A value that holds nothing. -/
def isVoid : Value → Bool
  | .array [] | .table _ [] => true
  | _ => false

/-- A mode by its word, by itself or as the only key of a table, with nothing below it. -/
def mode? (v : Value) : Option OrderMode :=
  let word :=
    match v with
    | .string s => some s
    | .table _ [(s, below)] => if isVoid below then some s else none
    | _ => none
  word.bind fun w =>
    [OrderMode.dependency, .dependencyRev, .lexicographic, .none].find? (·.text == w)

/-- The value of a key, if the table gives it one; unreadable values make the
    whole table unreadable. -/
def setting? {α : Type} (read? : Value → Option α) (es : Entries) (key : String) :
    Option (Option α) :=
  match es.value? key with
  | some v => (read? v).map some
  | none => some none

/-- The settings in a table. Unknown keys are passed over. -/
def ofTable? (es : Entries) : Option Config := do
  let crossFile ← setting? flag? es "cross_file"
  let order ← setting? mode? es "order"
  let included ← setting? texts? es "include"
  let excluded ← setting? texts? es "exclude"
  return ⟨crossFile, order, included.getD [], excluded.getD []⟩

end CrossRef.Config
