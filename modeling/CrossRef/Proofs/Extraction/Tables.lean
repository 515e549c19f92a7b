/-
  CrossRef.Proofs.Extraction.Tables

  What the walk over a tree leaves behind, whatever the tree: every
  declaration belongs to the file, and the table of names points at the last
  declaration of each name in each scope.

  Only the task that declares a name touches either of the two, so the walk
  needs no more than `ofTree_preserves`: what every single task keeps, it keeps.
-/
import CrossRef.Proofs.Adapter
import Mathlib.Data.List.Induction
import Mathlib.Tactic.Common

namespace CrossRef

open CrossRef.Syntax

/-! ## Last declarations -/

/-- `i` is the number of the last declaration of `name` in `scope`. -/
def IsLastDeclared (declarations : Array Declaration) (scope : ScopeId) (name : String)
    (i : Nat) : Prop :=
  (∃ d, declarations[i]? = some d ∧ d.scope = scope ∧ d.name = name) ∧
    ∀ j d, i < j → declarations[j]? = some d → ¬ (d.scope = scope ∧ d.name = name)

section

variable {declarations : Array Declaration} {scope : ScopeId} {name : String} {i j : Nat}

theorem IsLastDeclared.unique (hi : IsLastDeclared declarations scope name i)
    (hj : IsLastDeclared declarations scope name j) : i = j := by
  obtain ⟨⟨d, hd, hd'⟩, hlast⟩ := hi
  obtain ⟨⟨e, he, he'⟩, hlast'⟩ := hj
  rcases Nat.lt_trichotomy i j with h | h | h
  · exact absurd he' (hlast j e h he)
  · exact h
  · exact absurd hd' (hlast' i d h hd)

theorem isLastDeclared_push {d : Declaration} :
    IsLastDeclared (declarations.push d) scope name i ↔
      if d.scope = scope ∧ d.name = name then i = declarations.size
      else IsLastDeclared declarations scope name i := by
  have hold : ∀ (k : Nat) (e : Declaration), declarations[k]? = some e →
      (declarations.push d)[k]? = some e := by
    intro k e hk
    have hlt := (Array.getElem?_eq_some_iff.1 hk).1
    rw [Array.getElem?_push, if_neg (Nat.ne_of_lt hlt), hk]
  have hnew : (declarations.push d)[declarations.size]? = some d := Array.getElem?_push_size
  have hcases : ∀ (k : Nat) (e : Declaration), (declarations.push d)[k]? = some e →
      (k = declarations.size ∧ e = d) ∨ declarations[k]? = some e := by
    intro k e hk
    rw [Array.getElem?_push] at hk
    split at hk
    · rename_i hks
      exact .inl ⟨hks, (Option.some.inj hk).symm⟩
    · exact .inr hk
  split
  · -- the new declaration has the name, and none comes after it
    rename_i hd
    have hlast : IsLastDeclared (declarations.push d) scope name declarations.size := by
      refine ⟨⟨d, hnew, hd⟩, fun j e hj he => ?_⟩
      have hsize := (Array.getElem?_eq_some_iff.1 he).1
      rw [Array.size_push] at hsize
      omega
    constructor
    · exact fun hi => hi.unique hlast
    · rintro rfl
      exact hlast
  · -- it does not, so the last one with the name is an old one
    rename_i hd
    constructor
    · rintro ⟨⟨e, he, he'⟩, hlast⟩
      rcases hcases i e he with ⟨-, rfl⟩ | he
      · exact absurd he' hd
      · exact ⟨⟨e, he, he'⟩, fun j c hj hc => hlast j c hj (hold j c hc)⟩
    · rintro ⟨⟨e, he, he'⟩, hlast⟩
      refine ⟨⟨e, hold i e he, he'⟩, fun j c hj hc => ?_⟩
      rcases hcases j c hc with ⟨-, rfl⟩ | hc
      · exact hd
      · exact hlast j c hj hc

/-- A declared name has a last declaration. -/
theorem exists_isLastDeclared {d : Declaration} (hd : d ∈ declarations) :
    ∃ i, IsLastDeclared declarations d.scope d.name i := by
  obtain ⟨ds⟩ := declarations
  induction ds using List.reverseRecOn with
  | nil => simp at hd
  | append_singleton ds e ih =>
    have hpush : (⟨ds ++ [e]⟩ : Array Declaration) = (⟨ds⟩ : Array Declaration).push e := by simp
    rw [hpush] at hd ⊢
    simp only [isLastDeclared_push]
    by_cases he : e.scope = d.scope ∧ e.name = d.name
    · exact ⟨_, by rw [if_pos he]⟩
    · rw [Array.mem_push] at hd
      obtain ⟨i, hi⟩ := ih (hd.resolve_right fun h => he (by rw [h]; exact ⟨rfl, rfl⟩))
      exact ⟨i, by rwa [if_neg he]⟩

end

/-! ## Names in scope graphs -/

namespace ScopeGraph

theorem lookupLocal_define (g : ScopeGraph) (scope s : ScopeId) (name n : String) (i : Nat) :
    (g.define scope name i).lookupLocal s n =
      if scope = s ∧ name = n then some i else g.lookupLocal s n := by
  rw [lookupLocal, define, List.find?_cons]
  by_cases h : scope = s ∧ name = n
  · obtain ⟨rfl, rfl⟩ := h
    simp
  · have hfalse : (scope == s && name == n) = false := by
      rw [Bool.and_eq_false_iff]
      by_cases hs : scope = s
      · exact .inr (beq_eq_false_iff_ne.2 fun hn => h ⟨hs, hn⟩)
      · exact .inl (beq_eq_false_iff_ne.2 hs)
    rw [if_neg h]
    simp only [hfalse]
    rfl

end ScopeGraph

/-! ## The walk -/

namespace Extraction

section

variable {T : Task → Prop} {P : Extraction → Prop} {src : Source}
variable (split : ∀ t x, T t → ∀ u ∈ (expand src t x).1, T u)
variable (step : ∀ t x, T t → P x → P (expand src t x).2)
include split step

/-- What no task of a kind breaks, the walk from such a task does not break, if
    it only comes to tasks of the kind. -/
theorem run_preserves (t : Task) (ht : T t) (x : Extraction) (h : P x) : P (run src t x) := by
  rw [run_eq]
  refine List.foldlRecOn _ _ (step t x ht h) fun y hy u hu => ?_
  -- a task that this one leaves behind is smaller
  have hlt : u.weight < t.weight := weight_expand hu
  exact run_preserves u (split t x ht u hu) y hy
termination_by t.weight

/-- What no task of the kind breaks holds of a whole file if it holds before the walk. -/
theorem ofTree_preserves (hempty : P .empty) {root : Node}
    (hroot : ∀ n ∈ root.namedChildren, T (.visit 0 n)) : P (ofTree src root) := by
  rw [ofTree]
  refine List.foldlRecOn _ _ hempty fun x hx t ht => ?_
  obtain ⟨n, hn, rfl⟩ := List.mem_map.1 ht
  exact run_preserves split step _ (hroot n hn) x hx

end

/-- The table of names points at last declarations, and all of them are the file's own. -/
structure Tabled (src : Source) (x : Extraction) : Prop where
  lookupLocal : ∀ scope name i, x.scopes.lookupLocal scope name = some i ↔
    IsLastDeclared x.declarations scope name i
  file : ∀ d ∈ x.declarations, d.file = src.file

theorem tabled_empty (src : Source) : Tabled src .empty where
  lookupLocal := fun scope name i => by
    simp [empty, ScopeGraph.empty, ScopeGraph.lookupLocal, IsLastDeclared]
  file := fun d hd => by simp [empty] at hd

theorem tabled_declare {src : Source} {x : Extraction} (h : Tabled src x) (scope : ScopeId)
    (kind : DeclarationKind) (n : Node) : Tabled src (declare src scope kind n x) := by
  unfold declare
  simp only
  split
  · exact h
  · constructor
    · intro s name i
      rw [ScopeGraph.lookupLocal_define, isLastDeclared_push]
      simp only
      split
      · rw [Option.some.injEq, eq_comm]
      · exact h.lookupLocal s name i
    · intro d hd
      rcases Array.mem_push.1 hd with hd | rfl
      · exact h.file d hd
      · rfl

/-- Scopes and wildcard imports leave declarations and names as they are. -/
theorem Tabled.congr {src : Source} {x y : Extraction} (h : Tabled src x)
    (hdeclarations : y.declarations = x.declarations)
    (hbindings : y.scopes.bindings = x.scopes.bindings) : Tabled src y where
  lookupLocal := fun scope name i => by
    rw [ScopeGraph.lookupLocal, hbindings, hdeclarations]
    exact h.lookupLocal scope name i
  file := fun d hd => h.file d (hdeclarations ▸ hd)

theorem bindings_closeScope (g : ScopeGraph) (scope : ScopeId) (stop : Position) :
    (g.closeScope scope stop).bindings = g.bindings := by
  unfold ScopeGraph.closeScope
  split <;> rfl

theorem tabled_expand {src : Source} {x : Extraction} (h : Tabled src x) (t : Task) :
    Tabled src (expand src t x).2 := by
  cases t with
  | visit | bind | parameter | clause => exact h
  | enter outer n =>
    simp only [expand]
    split
    · exact h.congr rfl (bindings_closeScope _ _ _)
    · exact h
  | declare scope kind n => exact tabled_declare h scope kind n
  | wildcard scope n =>
    simp only [expand, recordWildcard]
    split
    · split
      · exact h.congr rfl rfl
      · exact h
    · exact h

theorem tabled_ofTree (src : Source) (root : Node) : Tabled src (ofTree src root) := by
  refine ofTree_preserves (T := fun _ => True) ?_ ?_ (tabled_empty src) ?_
  · exact fun _ _ _ _ _ => trivial
  · exact fun t _ _ h => tabled_expand h t
  · exact fun _ _ => trivial

end Extraction

/-! ## Analyses -/

theorem Usages.file_of_mem_ofTree {src : Extraction.Source} {root : Node}
    {declarations : Array Declaration} {u : Usage} (h : u ∈ ofTree src root declarations) :
    u.file = src.file := by
  obtain ⟨o, -, ho⟩ := List.mem_filterMap.1 h
  obtain ⟨-, rfl⟩ := usage?_eq_some_iff.1 ho
  rfl

namespace Analysis

/-- The table of names points at the last declaration of each name in each scope. -/
def LastWins (a : Analysis) : Prop :=
  ∀ scope name i, a.scopes.lookupLocal scope name = some i ↔
    IsLastDeclared a.declarations scope name i

/-- Declarations and usages name the file they were found in. -/
structure OwnedBy (a : Analysis) (file : String) : Prop where
  declaration : ∀ d ∈ a.declarations, d.file = file
  usage : ∀ u ∈ a.usages, u.file = file

theorem lastWins_ofTree (file text : String) (root : Node) : (ofTree file text root).LastWins :=
  (Extraction.tabled_ofTree _ root).lookupLocal

theorem ownedBy_ofTree (file text : String) (root : Node) :
    (ofTree file text root).OwnedBy file :=
  ⟨(Extraction.tabled_ofTree _ root).file, fun _ hu => Usages.file_of_mem_ofTree hu⟩

end Analysis

namespace Registry

/-- Every analysis has its names in order, whatever the text. -/
theorem lastWins_analyze (r : Registry) (file text : String) : (r.analyze file text).LastWins := by
  apply analyze_of_tree
  · exact (Extraction.tabled_empty ⟨file, .ofText text⟩).lookupLocal
  · exact fun root _ => Analysis.lastWins_ofTree file text root

theorem ownedBy_analyze (r : Registry) (file text : String) :
    (r.analyze file text).OwnedBy file := by
  refine analyze_of_tree (Q := fun a => a.OwnedBy file) ?_ ?_
  · exact ⟨fun d hd => by simp [Analysis.empty] at hd, fun u hu => by simp [Analysis.empty] at hu⟩
  · exact fun root _ => Analysis.ownedBy_ofTree file text root

end Registry

end CrossRef
