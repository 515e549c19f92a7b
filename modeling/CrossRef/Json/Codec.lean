/-
  CrossRef.Json.Codec

  What is asked of a library for JSON: forms that values are given before they
  become texts and that texts are read into, and readers that tell what a form
  holds. The encodings of reports and settings can do with any such library.
-/

namespace CrossRef.Json

structure Codec where
  Form : Type
  bool : Bool → Form
  number : Nat → Form
  string : String → Form
  /-- A case of several that hold nothing, by its word. -/
  word : String → Form
  array : List Form → Form
  /-- Fields by their names. -/
  object : List (String × Form) → Form
  /-- The text of a form without any blanks. -/
  compact : Form → String
  /-- The form that a text denotes. -/
  parse? : String → Option Form
  flag? : Form → Option Bool
  /-- A natural number up to a largest one. -/
  natural? : Nat → Form → Option Nat
  text? : Form → Option String
  word? : Form → Option String
  items? : Form → Option (List Form)
  /-- Whether a form stands for what is absent. -/
  isNull : Form → Bool
  /-- The forms of the named fields, in the order of the names; `none` for one
      that is missing. -/
  fields? : List String → Form → Option (List (Option Form))

namespace Codec

variable (json : Codec) {α : Type}

/-- The items of an array, read one by one. -/
def list? (item? : json.Form → Option α) (v : json.Form) : Option (List α) :=
  (json.items? v).bind fun items => items.mapM item?

/-- Null for what is absent. -/
def optional? (item? : json.Form → Option α) (v : json.Form) : Option (Option α) :=
  if json.isNull v then some none else (item? v).map some

variable {json}

/-- A field that has to be there. -/
def required (item? : json.Form → Option α) : Option json.Form → Option α
  | some v => item? v
  | none => none

/-- A field with a value to take when it is missing. -/
def withDefault (default : α) (item? : json.Form → Option α) : Option json.Form → Option α
  | some v => item? v
  | none => some default

end Codec

end CrossRef.Json
