/-
  CrossRef.Proofs.Extraction.Wildcards

  What a wildcard import names. The walk over a tree only comes to nodes of the
  tree (`within_expand`), so the module it records is what a dotted name of
  the tree covers. Dotted names are words between dots, so the name of the
  module is empty or ends in a word (`Registry.SpellsModules.endsInWord`).
-/
import CrossRef.Proofs.Extraction.Tables
import CrossRef.Proofs.Linking.ModulePath
import CrossRef.Proofs.Syntax.Names

namespace CrossRef

open CrossRef.Linking CrossRef.Syntax

/-- The module of a `from` import is given by dots, by a dotted name, or by both,
    and dotted names end in words. -/
structure Syntax.Node.SpellsModules (m : SourceMap) (n : Node) : Prop where
  module : n.kind = .importFromStatement → ∀ c, n.child? .moduleName = some c →
    c.kind = .relativeImport ∨ c.kind = .dottedName
  word : n.kind = .dottedName → EndsInWord (m.text n)

namespace Extraction

section

variable {P : Node → Prop} {n : Node}

/-! ## Tasks stay in the tree -/

/-- The task is about a node of a tree in which `P` holds everywhere. Wildcards
    are only asked for where something is imported from a module. -/
def Task.Within (P : Node → Prop) : Task → Prop
  | .wildcard _ n => n.Everywhere P ∧ n.kind = .importFromStatement
  | .visit _ n | .bind _ n | .enter _ n | .parameter _ _ n | .clause _ n | .declare _ _ n =>
    n.Everywhere P

/-- What a task about the tree leaves behind is about the tree. -/
theorem Leaves.within {x : Extraction} {t u : Task} (h : Leaves x t u) (ht : t.Within P) :
    u.Within P := by
  cases h with
  | visit hc | target hc | member hc | parameter hc | clause hc | inside hc | parameterCode hc
  | clauseTarget hc | clauseSource hc | caught hc => exact ht.of_below hc
  | named _ hc | renamed _ hc => exact ht.of_below (Node.below_of_child? hc)
  | construct | bound | boundWhole | code => exact ht
  | wildcard hkind => exact ⟨ht, hkind⟩
  | parameterName hc =>
    rcases hc with rfl | hc
    · exact ht
    · exact ht.of_below hc

/-- The tasks that a task about the tree leaves behind are about the tree. -/
theorem within_expand {src : Source} {t : Task} (h : t.Within P) (x : Extraction) :
    ∀ u ∈ (expand src t x).1, u.Within P := fun _ hu => (leaves_of_mem_expand hu).within h

end

/-! ## Imported modules -/

variable {src : Source}

/-- The name of the module is empty or ends in a word. -/
theorem endsInWord_importedModule {m : Node} (h : m.Everywhere (Node.SpellsModules src.map))
    (hm : m.kind = .relativeImport ∨ m.kind = .dottedName) :
    EndsInWord (importedModule src m).1 := by
  unfold importedModule
  split
  · refine List.foldlRecOn (motive := fun found : String × Nat => EndsInWord found.1) _ _
      endsInWord_empty fun found hfound part hpart => ?_
    simp only
    split
    · exact hfound
    · rename_i hkind
      have hpart := h.of_below (Node.below_of_mem_namedChildren hpart)
      exact hpart.here.word hkind
    · exact hfound
  · rename_i hrelative
    have hname := hm.resolve_left fun hk => hrelative (beq_iff_eq.2 hk)
    exact h.here.word hname

/-- Every wildcard import names a module by a name, or by dots alone. -/
def ImportsNames (x : Extraction) : Prop := ∀ w ∈ x.scopes.wildcards, EndsInWord w.module

theorem importsNames_recordWildcard {n : Node} (h : n.Everywhere (Node.SpellsModules src.map))
    (hn : n.kind = .importFromStatement) {x : Extraction} (hx : x.ImportsNames)
    (scope : ScopeId) : (recordWildcard src scope n x).ImportsNames := by
  unfold recordWildcard
  split
  · split
    · rename_i m hm
      intro w hw
      rcases Array.mem_push.1 hw with hw | rfl
      · exact hx w hw
      · exact endsInWord_importedModule (h.of_mem_children m (Node.mem_children_of_child? hm))
          (h.here.module hn m hm)
    · exact hx
  · exact hx

theorem wildcards_closeScope (g : ScopeGraph) (scope : ScopeId) (stop : Position) :
    (g.closeScope scope stop).wildcards = g.wildcards := by
  unfold ScopeGraph.closeScope
  split
  · rfl
  · rfl

theorem importsNames_expand {t : Task} (ht : t.Within (Node.SpellsModules src.map))
    {x : Extraction} (hx : x.ImportsNames) : (expand src t x).2.ImportsNames := by
  cases t with
  | visit | bind | parameter | clause => exact hx
  | enter outer n =>
    rw [expand]
    split
    · rw [ImportsNames, openScope, wildcards_closeScope]
      exact hx
    · exact hx
  | declare scope kind n =>
    rw [expand, declare]
    simp only
    split
    · exact hx
    · exact hx
  | wildcard scope n => exact importsNames_recordWildcard ht.1 ht.2 hx scope

theorem importsNames_ofTree {root : Node} (h : root.Everywhere (Node.SpellsModules src.map)) :
    (ofTree src root).ImportsNames := by
  refine ofTree_preserves (T := Task.Within (Node.SpellsModules src.map)) ?_ ?_ ?_ ?_
  · exact fun t x ht => within_expand ht x
  · exact fun t x ht hx => importsNames_expand ht hx
  · exact fun w hw => absurd hw (Array.not_mem_empty w)
  · exact fun n hn => h.of_below (Node.below_of_mem_namedChildren hn)

end Extraction

namespace Registry

/-- In the trees of the adapters, imports give modules by dots and words. -/
def SpellsModules (r : Registry) : Prop :=
  r.Gives fun text root => root.Everywhere (Node.SpellsModules (.ofText text))

/-- Whatever the text, its wildcard imports name modules by dots and words. -/
theorem SpellsModules.endsInWord {r : Registry} (h : r.SpellsModules) {file text : String} :
    ∀ w ∈ (r.analyze file text).scopes.wildcards, EndsInWord w.module := by
  refine analyze_of_tree (Q := fun a => ∀ w ∈ a.scopes.wildcards, EndsInWord w.module) ?_ ?_
  · exact fun w hw => absurd hw (Array.not_mem_empty w)
  · intro root hroot
    show (Extraction.ofTree ⟨file, .ofText text⟩ root).ImportsNames
    exact Extraction.importsNames_ofTree (h file text root hroot)

theorem ne_of_isNameRest {c : Char} (h : Text.isNameRest c = true) : c ≠ '/' ∧ c ≠ '.' := by
  constructor
  · rintro rfl
    exact absurd h (by decide)
  · rintro rfl
    exact absurd h (by decide)

theorem spellsModules_standard : standard.SpellsModules := by
  apply gives_standard
  intro text
  have hfits : (parse text).Everywhere (Node.Fits text.toList) :=
    .mk (.of_kind (by decide)) (everywhere_fits_parse text)
  exact hfits.imp fun n hn => ⟨hn.here.module, fun hkind c hc =>
    ne_of_isNameRest (endsInName_text (hn.here.name (.inr hkind)) c hc)⟩

end Registry

end CrossRef
