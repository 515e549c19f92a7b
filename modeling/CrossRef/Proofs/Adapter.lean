/-
  CrossRef.Proofs.Adapter

  What an analysis comes from. A file that an adapter takes and has a tree for
  is analyzed by this tree; of every other file nothing is known
  (`Registry.analyze_eq`). So all that there is to know of the parsers of a
  registry is what their trees have in common (`Registry.Gives`).
-/
import CrossRef.Adapter

namespace CrossRef

open CrossRef.Syntax

namespace Registry

/-- The tree of a file, if an adapter takes the file and has a tree for its text. -/
def parse? (r : Registry) (file text : String) : Option Node :=
  (r.findAdapter? file).bind (·.parse? text)

variable {r : Registry} {file text : String} {P : String → Node → Prop}

/-- An analysis is that of the tree of the file. -/
theorem analyze_eq (r : Registry) (file text : String) :
    r.analyze file text = ((r.parse? file text).map (Analysis.ofTree file text)).getD .empty := by
  unfold analyze parse?
  cases r.findAdapter? file with
  | none => rfl
  | some a =>
    show a.analyze file text = ((a.parse? text).map _).getD _
    unfold Adapter.analyze
    cases a.parse? text with
    | none => rfl
    | some root => rfl

theorem analyze_of_parse? {root : Node} (h : r.parse? file text = some root) :
    r.analyze file text = .ofTree file text root := by
  rw [analyze_eq, h]
  rfl

/-- What holds where nothing is known, and of the analysis of the tree of the
    file, if there is one, holds of its analysis. -/
theorem analyze_of_tree {Q : Analysis → Prop} (hempty : Q .empty)
    (htree : ∀ root, r.parse? file text = some root → Q (.ofTree file text root)) :
    Q (r.analyze file text) := by
  rw [analyze_eq]
  cases hroot : r.parse? file text with
  | none => exact hempty
  | some root => exact htree root hroot

/-- The trees of files have the property, whatever their texts. -/
def Gives (r : Registry) (P : String → Node → Prop) : Prop :=
  ∀ file text root, r.parse? file text = some root → P text root

theorem gives_of_parsers (h : ∀ a ∈ r, ∀ text root, a.parse? text = some root → P text root) :
    r.Gives P := by
  intro file text root hroot
  obtain ⟨a, ha, hroot⟩ := Option.bind_eq_some_iff.1 hroot
  exact h a (List.mem_of_find?_eq_some ha) text root hroot

theorem gives_standard (h : ∀ text, P text (Syntax.parse text)) : standard.Gives P := by
  apply gives_of_parsers
  intro a ha text root hroot
  cases List.mem_singleton.1 ha
  cases hroot
  exact h text

/-- A file without a name is taken by no adapter. -/
theorem parse?_empty (r : Registry) (text : String) : r.parse? "" text = none := by
  have hnone : r.findAdapter? "" = none := by
    refine List.find?_eq_none.2 fun a _ => ?_
    have hextension : Path.extension? "" = none := by decide
    rw [Adapter.canHandle, hextension]
    exact Bool.false_ne_true
  rw [parse?, hnone]
  rfl

end Registry

end CrossRef
