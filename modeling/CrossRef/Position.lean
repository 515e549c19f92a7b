/-
  CrossRef.Position

  Where a name stands in a file, as reports count it.
-/

namespace CrossRef

/-- A place in a source text: lines count from one, columns from zero, and a
    column is a number of characters. Places are ordered by line, then column.
    Both are counted without a bound, so places stay in order in a text of any
    length; what holds only of numbers of 32 bits asks for them. -/
structure Position where
  line : Nat
  column : Nat
deriving DecidableEq, Repr, Inhabited, Hashable

namespace Position

/-- `a` stands before `b`. -/
def before (a b : Position) : Bool :=
  a.line < b.line || (a.line == b.line && a.column < b.column)

instance : LT Position := ⟨fun a b => a.line < b.line ∨ (a.line = b.line ∧ a.column < b.column)⟩

instance : LE Position := ⟨fun a b => a.line < b.line ∨ (a.line = b.line ∧ a.column ≤ b.column)⟩

theorem lt_def {a b : Position} :
    a < b ↔ a.line < b.line ∨ (a.line = b.line ∧ a.column < b.column) := Iff.rfl

theorem le_def {a b : Position} :
    a ≤ b ↔ a.line < b.line ∨ (a.line = b.line ∧ a.column ≤ b.column) := Iff.rfl

instance (a b : Position) : Decidable (a < b) := decidable_of_iff _ lt_def.symm

instance (a b : Position) : Decidable (a ≤ b) := decidable_of_iff _ le_def.symm

theorem not_lt {a b : Position} : ¬ a < b ↔ b ≤ a := by
  rw [lt_def, le_def]; omega

/-- The later of two places. -/
def latest (a b : Position) : Position := if a < b then b else a

/-- The first place of a file's own scope, before every real one. -/
def origin : Position := ⟨0, 0⟩

/-- A place after every real one: the end of a scope that is still open. -/
def unbounded : Position := ⟨4294967295, 4294967295⟩

end Position

end CrossRef
