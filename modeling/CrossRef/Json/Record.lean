/-
  CrossRef.Json.Record

  Values with named fields as JSON values. They are written as objects in the
  order of their fields, and read from objects, whose unknown members are
  passed over, or from arrays that hold the fields in their order.
-/
import CrossRef.Json.Codec
import CrossRef.Json.Read

namespace CrossRef.Json

namespace Value

/-! ## Atoms -/

def text? : Value → Option String
  | string s => some s
  | _ => none

def flag? : Value → Option Bool
  | bool b => some b
  | _ => none

/-- A natural number up to `largest`. -/
def natural? (largest : Nat) : Value → Option Nat
  | number n => if n ≤ largest then some n else none
  | _ => none

/-- The word that names one of several cases, by itself or as the only key of
    an object that holds nothing. -/
def word? : Value → Option String
  | string s => some s
  | object [(s, null)] => some s
  | _ => none

/-! ## Parts -/

def items? : Value → Option (List Value)
  | array vs => some vs
  | _ => none

def isNull : Value → Bool
  | null => true
  | _ => false

/-- The values of the named fields, in the order of the names; `none` for one
    that is missing. A field given twice makes the whole record unreadable. -/
def fields? (names : List String) : Value → Option (List (Option Value))
  | object members =>
    names.mapM fun name =>
      match members.filter (·.1 == name) with
      | [] => some none
      | [(_, v)] => some (some v)
      | _ => none
  | array items =>
    if items.length ≤ names.length then
      some (items.map some ++ List.replicate (names.length - items.length) none)
    else none
  | _ => none

end Value

/-- The forms, texts and readers of this library. -/
def Codec.standard : Codec where
  Form := Value
  bool := .bool
  number := .number
  string := .string
  word := .string
  array := .array
  object := .object
  compact := Value.compact
  parse? := Json.parse?
  flag? := Value.flag?
  natural? := Value.natural?
  text? := Value.text?
  word? := Value.word?
  items? := Value.items?
  isNull := Value.isNull
  fields? := Value.fields?

end CrossRef.Json
