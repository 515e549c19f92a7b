/-
  CrossRef.Toml.Table

  TOML values, and how the lines of a document build up its tables. A table
  may be written in one piece, opened by a header, or come about because
  something below it is named; what may be added to it later depends on that.
-/

namespace CrossRef.Toml

/-- How a table came about: in braces, by its own header, by a header of
    something below it, or by a dotted key. -/
inductive Origin where
  | inline | header | implied | dotted
deriving DecidableEq, Repr

/-- A value. Numbers and dates are told apart from the rest only; `tables` are
    the tables of one header in double brackets. -/
inductive Value where
  | string (s : String)
  | bool (b : Bool)
  | scalar
  | array (items : List Value)
  | table (origin : Origin) (entries : List (String × Value))
  | tables (rows : List (List (String × Value)))
deriving Repr, Inhabited

/-- Keys with their values, in the order in which the keys first occur. -/
abbrev Entries := List (String × Value)

namespace Entries

/-- The value of a key. -/
def value? (es : Entries) (key : String) : Option Value := (List.lookup key es)

/-- With the value of a key replaced, or added behind all others. -/
def set (es : Entries) (key : String) (v : Value) : Entries :=
  if es.any (·.1 == key) then es.map fun e => if e.1 == key then (key, v) else e
  else es ++ [(key, v)]

end Entries

/-! ## Going down -/

/-- Changes the entries of the table that is meant when a key on the way to
    something has this value. `byKeys` says that the way is a dotted key and
    not a header: those do not lead through tables that have a header. -/
def Value.changeInside (byKeys : Bool) (change : Origin → Entries → Option Entries) :
    Option Value → Option Value
  | none =>
    let origin := if byKeys then Origin.dotted else .implied
    (change origin []).map (.table origin)
  | some (.table origin es) =>
    if origin = .inline ∨ (byKeys ∧ origin = .header) then none
    else (change origin es).map (.table origin)
  | some (.tables rows) =>
    match rows.getLast? with
    | some last => (change .header last).map fun es => .tables (rows.dropLast ++ [es])
    | none => none
  | some _ => none

/-- Changes the entries of the table at the end of a path. -/
def descend (byKeys : Bool) (change : Origin → Entries → Option Entries) :
    List String → Origin → Entries → Option Entries
  | [], origin, es => change origin es
  | key :: path, _, es =>
    (Value.changeInside byKeys (descend byKeys change path) (es.value? key)).map (es.set key)

/-! ## Lines -/

/-- Adds a key with a value to a table. -/
def insertKey (path : List String) (key : String) (v : Value) (es : Entries) : Option Entries :=
  let put (origin : Origin) (es : Entries) : Option Entries :=
    if (!path.isEmpty && origin != .dotted) || (es.value? key).isSome then none
    else some (es.set key v)
  descend true put path .header es

/-- Opens a table by its header. Only a table that is implied so far can be there. -/
def openTable (path : List String) (key : String) (root : Entries) : Option Entries :=
  let put (_ : Origin) (es : Entries) : Option Entries :=
    match es.value? key with
    | none => some (es.set key (.table .header []))
    | some (.table .implied below) => some (es.set key (.table .header below))
    | some _ => none
  descend false put path .header root

/-- Opens one more table of an array of tables. -/
def openRow (path : List String) (key : String) (root : Entries) : Option Entries :=
  let put (_ : Origin) (es : Entries) : Option Entries :=
    match es.value? key with
    | none => some (es.set key (.tables [[]]))
    | some (.tables rows) => some (es.set key (.tables (rows ++ [[]])))
    | some _ => none
  descend false put path .header root

/-- Adds a key with a value to the table that was opened last, at `current`. -/
def insertAt (current path : List String) (key : String) (v : Value) (root : Entries) :
    Option Entries :=
  descend false (fun _ es => insertKey path key v es) current .header root

end CrossRef.Toml
