/-
  CrossRef.Proofs.Extraction.Declares

  What a walk declares. A task declares the name it is for, or leaves other
  tasks behind. So if each task has a share of the names of the tree, and its
  share is split among the tasks that it leaves behind, what a walk declares is
  from the share of its task (`declares_run`). Whether the shares are split in
  order or in any way is the same for this (`Splitting`).
-/
import CrossRef.Proofs.Extraction.Tables
import Mathlib.Data.List.Perm.Subperm

namespace CrossRef

open CrossRef.Syntax

namespace Extraction

variable {src : Source}

/-- `y` declares what `x` declares, and behind it what the nodes cover, each where
    it stands. None of them is empty. -/
structure Declares (src : Source) (x y : Extraction) (ns : List Node) : Prop where
  declarations : y.declarations.toList.map (fun d => (d.name, d.position)) =
    x.declarations.toList.map (fun d => (d.name, d.position)) ++
      ns.map fun n => (src.map.text n, src.map.start n)
  nonempty : ∀ n ∈ ns, src.map.text n ≠ ""

namespace Declares

variable {x y z : Extraction} {ms ns : List Node}

theorem of_eq (h : y.declarations = x.declarations) : Declares src x y [] where
  declarations := by rw [h, List.map_nil, List.append_nil]
  nonempty _ hn := absurd hn List.not_mem_nil

theorem trans (h : Declares src x y ms) (h' : Declares src y z ns) :
    Declares src x z (ms ++ ns) where
  declarations := by
    rw [h'.declarations, h.declarations, List.map_append, List.append_assoc]
  nonempty := List.forall_mem_append.2 ⟨h.nonempty, h'.nonempty⟩

/-- From nothing on, the nodes are all that is declared. -/
theorem map_eq (h : Declares src .empty y ns) :
    y.declarations.toList.map (fun d => (d.name, d.position)) =
      ns.map fun n => (src.map.text n, src.map.start n) := h.declarations

theorem map_position (h : Declares src .empty y ns) :
    y.declarations.toList.map (·.position) = ns.map src.map.start := by
  have hall := congrArg (List.map Prod.snd) h.map_eq
  rwa [List.map_map, List.map_map] at hall

end Declares

theorem declares_declare (src : Source) (scope : ScopeId) (kind : DeclarationKind) (n : Node)
    (x : Extraction) : ∃ ns, Declares src x (declare src scope kind n x) ns ∧
      (ns = [] ∨ ns = [n]) := by
  unfold declare
  simp only
  split
  · exact ⟨[], .of_eq rfl, .inl rfl⟩
  · rename_i hname
    refine ⟨[n], ⟨?_, List.forall_mem_singleton.2 fun h => hname ?_⟩, .inr rfl⟩
    · rw [Array.toList_push, List.map_append]
      rfl
    · exact String.isEmpty_iff.2 h

theorem declarations_recordWildcard (src : Source) (scope : ScopeId) (n : Node)
    (x : Extraction) : (recordWildcard src scope n x).declarations = x.declarations := by
  unfold recordWildcard
  split
  · split
    · rfl
    · rfl
  · rfl

/-- A task for a name declares it, unless it is empty. No other task declares anything. -/
theorem declares_expand (src : Source) (t : Task) (x : Extraction) :
    ∃ ns, Declares src x (expand src t x).2 ns ∧
      (ns = [] ∨ ∃ scope kind n, t = .declare scope kind n ∧ ns = [n]) := by
  cases t with
  | visit | bind | parameter | clause => exact ⟨[], .of_eq rfl, .inl rfl⟩
  | enter outer n =>
    refine ⟨[], .of_eq ?_, .inl rfl⟩
    rw [expand]
    split
    · rfl
    · rfl
  | declare scope kind n =>
    obtain ⟨ns, hns, hcase⟩ := declares_declare src scope kind n x
    exact ⟨ns, hns, hcase.imp_right fun h => ⟨scope, kind, n, rfl, h⟩⟩
  | wildcard scope n => exact ⟨[], .of_eq (declarations_recordWildcard src scope n x), .inl rfl⟩

/-! ## Shares -/

/-- A way in which some names may be taken from others. What is taken from parts is
    taken from the whole. -/
structure Splitting (R : List Node → List Node → Prop) : Prop where
  refl : ∀ ns, R ns ns
  trans : ∀ {ks ms ns}, R ks ms → R ms ns → R ks ns
  append : ∀ {ks ls ms ns}, R ks ms → R ls ns → R (ks ++ ls) (ms ++ ns)

theorem splitting_sublist : Splitting List.Sublist := ⟨.refl, .trans, .append⟩

theorem splitting_subperm : Splitting List.Subperm := ⟨.refl, .trans, .append⟩

section

variable {R : List Node → List Node → Prop} (hR : Splitting R)
variable {T : Task → Prop} {share : Task → List Node}
variable (hkind : ∀ t x, T t → ∀ u ∈ (expand src t x).1, T u)
variable (hsplit : ∀ t x, T t → R ((expand src t x).1.flatMap share) (share t))
variable (hname : ∀ scope kind n, T (.declare scope kind n) →
  R [n] (share (.declare scope kind n)))
include hR

/-- What tasks declare one after another, given what each of them declares. -/
theorem declares_foldl {ts : List Task}
    (h : ∀ t ∈ ts, ∀ x, ∃ ns, Declares src x (run src t x) ns ∧ R ns (share t))
    (x : Extraction) :
    ∃ ns, Declares src x (ts.foldl (fun y t => run src t y) x) ns ∧ R ns (ts.flatMap share) := by
  induction ts generalizing x with
  | nil => exact ⟨[], .of_eq rfl, hR.refl _⟩
  | cons t ts ih =>
    obtain ⟨ht, hts⟩ := List.forall_mem_cons.1 h
    obtain ⟨ms, hms, hmsub⟩ := ht x
    obtain ⟨ns, hns, hnsub⟩ := ih hts (run src t x)
    refine ⟨ms ++ ns, hms.trans hns, ?_⟩
    rw [List.flatMap_cons]
    exact hR.append hmsub hnsub

include hkind hsplit hname

theorem declares_run (t : Task) (ht : T t) (x : Extraction) :
    ∃ ns, Declares src x (run src t x) ns ∧ R ns (share t) := by
  have hparts : ∀ u ∈ (expand src t x).1, ∀ y, ∃ ns, Declares src y (run src u y) ns ∧
      R ns (share u) := fun u hu y =>
    -- a task that this one leaves behind is smaller
    have : u.weight < t.weight := weight_expand hu
    declares_run u (hkind t x ht u hu) y
  obtain ⟨ms, hms, hcase⟩ := declares_expand src t x
  obtain ⟨ns, hns, hnsub⟩ := declares_foldl hR hparts (expand src t x).2
  rw [run_eq]
  refine ⟨ms ++ ns, hms.trans hns, ?_⟩
  rcases hcase with rfl | ⟨scope, kind, n, rfl, rfl⟩
  · exact hR.trans hnsub (hsplit t x ht)
  · -- a task for a name leaves nothing else behind
    have hall := hR.append (hname scope kind n ht) hnsub
    rwa [expand, List.flatMap_nil, List.append_nil] at hall
termination_by t.weight

/-- What a file declares is from the shares of the visits to the parts of its tree. -/
theorem declares_ofTree {root : Node} (hroot : ∀ n ∈ root.namedChildren, T (.visit 0 n)) :
    ∃ ns, Declares src .empty (ofTree src root) ns ∧
      R ns ((root.namedChildren.map (Task.visit 0)).flatMap share) := by
  refine declares_foldl hR (List.forall_mem_map.2 fun n hn x => ?_) .empty
  exact declares_run hR hkind hsplit hname _ (hroot n hn) x

end

end Extraction

end CrossRef
