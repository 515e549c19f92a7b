/-
  CrossRef.Text.Rest

  What can be left of a text when a wildcard has taken its part. The text is a
  row of bytes or characters, and slashes part its names.
-/

namespace CrossRef.Text

variable {α : Type} [DecidableEq α]

/-- Every rest of a text. -/
def suffixes : List α → List (List α)
  | [] => [[]]
  | a :: as => (a :: as) :: suffixes as

/-- The rests that only leave out what stands before the next slash. -/
def withinName (slash : α) : List α → List (List α)
  | [] => [[]]
  | a :: as => (a :: as) :: if a = slash then [] else withinName slash as

/-- The rests behind each slash. -/
def behindSlashes (slash : α) : List α → List (List α)
  | [] => []
  | a :: as => if a = slash then as :: behindSlashes slash as else behindSlashes slash as

omit [DecidableEq α] in
/-- Of several rests of one text, one of each length. -/
def distinctRests (rests : List (List α)) : List (List α) :=
  rests.foldr (fun r kept => if kept.any (·.length == r.length) then kept else r :: kept) []

end CrossRef.Text
