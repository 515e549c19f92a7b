/-
  CrossRef.Proofs.Syntax.Parents

  The names in a tree and the nodes that they are children of. A name that
  occurs once in a tree is a child of one node only (`parent_unique`): two ways
  down to it pass the same child of the root, and so on. The names of a tree
  whose spans nest follow one another in the text (`pairwise_names_of_nested`).
-/
import CrossRef.Proofs.Syntax.Identifiers
import CrossRef.Proofs.Syntax.Nesting
import Mathlib.Data.List.Lattice
import Mathlib.Data.List.Nodup
import Mathlib.Data.List.Pairwise

namespace CrossRef.Syntax.Node

variable {n c x : Node}

theorem toList_child?_sublist (n : Node) (f : Field) : (n.child? f).toList.Sublist n.children := by
  cases h : n.child? f with
  | none => exact List.nil_sublist _
  | some c => exact List.singleton_sublist.2 (mem_children_of_child? h)

/-! ## Names in a node -/

theorem names_sublist_of_mem_children (h : c ∈ n.children) : c.names.Sublist n.names := by
  have hsingle := flatMap_names_sublist (List.singleton_sublist.2 h)
  rwa [List.flatMap_singleton] at hsingle

theorem names_sublist_of_has (h : n.Has c) : c.names.Sublist n.names := by
  rcases h with rfl | h
  · exact .refl _
  · induction h with
    | child hc => exact names_sublist_of_mem_children hc
    | further _ hc ih => exact (names_sublist_of_mem_children hc).trans ih

theorem mem_names_of_has (h : n.Has x) (hx : x.kind = .identifier) : x ∈ n.names := by
  apply (names_sublist_of_has h).subset
  apply (singleton_sublist_names hx).subset
  exact List.mem_singleton_self x

theorem has_of_mem_names (n : Node) {x : Node} (h : x ∈ n.names) : n.Has x := by
  rw [n.names_eq] at h
  rcases List.mem_append.1 h with h | h
  · split at h
    · exact .inl (List.mem_singleton.1 h)
    · cases h
  · obtain ⟨c, hc, h⟩ := List.mem_flatMap.1 h
    have : c.size < n.size := size_lt_of_mem hc
    exact (has_of_mem_children hc).trans (has_of_mem_names c h)
termination_by n.size

/-! ## One parent -/

/-- A name that occurs once is in one child only. -/
theorem eq_of_mem_children {p : Node → Bool} (hnodup : (n.names.filter p).Nodup)
    (hx : x.kind = .identifier) (hp : p x = true) {d : Node} (hc : c ∈ n.children)
    (hd : d ∈ n.children) (hxc : c.Has x) (hxd : d.Has x) : c = d := by
  have hchildren := hnodup.sublist (n.flatMap_children_sublist.filter p)
  rw [List.filter_flatMap, List.nodup_flatMap] at hchildren
  have mem {e : Node} (hxe : e.Has x) : x ∈ e.names.filter p :=
    List.mem_filter.2 ⟨mem_names_of_has hxe hx, hp⟩
  have : Std.Symm (Function.onFun List.Disjoint fun e : Node => e.names.filter p) :=
    ⟨fun _ _ => List.Disjoint.symm⟩
  by_contra hne
  exact hchildren.2.forall hc hd hne (mem hxc) (mem hxd)

/-- The child of `n` that is passed on the way to the child `x` of `a`. -/
theorem exists_child_towards {a : Node} (ha : n.Has a) (hxa : x ∈ a.children) :
    ∃ d ∈ n.children, d.Has x ∧ ((a = n ∧ d = x) ∨ d.Has a) := by
  rcases ha with rfl | ha
  · exact ⟨x, hxa, x.has_self, .inl ⟨rfl, rfl⟩⟩
  · obtain ⟨d, hd, hda⟩ := below_iff.1 ha
    exact ⟨d, hd, hda.trans (has_of_mem_children hxa), .inr hda⟩

/-- No node has its own parent in it. -/
theorem not_has_parent {a : Node} (hxa : x ∈ a.children) : ¬ x.Has a := by
  have hlt : x.size < a.size := size_lt_of_mem hxa
  rintro (rfl | h)
  · omega
  · have hgt : a.size < x.size := h.size_lt
    omega

/-- A name that occurs once is a child of one node only. -/
theorem parent_unique {p : Node → Bool} (n : Node) (hnodup : (n.names.filter p).Nodup)
    (hx : x.kind = .identifier) (hp : p x = true) {a b : Node} (ha : n.Has a) (hb : n.Has b)
    (hxa : x ∈ a.children) (hxb : x ∈ b.children) : a = b := by
  obtain ⟨d, hd, hxd, hda⟩ := exists_child_towards ha hxa
  obtain ⟨e, he, hxe, heb⟩ := exists_child_towards hb hxb
  -- both ways pass the same child
  obtain rfl : d = e := eq_of_mem_children hnodup hx hp hd he hxd hxe
  rcases hda with ⟨rfl, rfl⟩ | hda
  · rcases heb with ⟨rfl, -⟩ | hdb
    · rfl
    · exact absurd hdb (not_has_parent hxb)
  · rcases heb with ⟨-, rfl⟩ | hdb
    · exact absurd hda (not_has_parent hxa)
    · have : d.size < n.size := size_lt_of_mem hd
      have hsublist := (names_sublist_of_mem_children hd).filter p
      exact parent_unique d (hnodup.sublist hsublist) hx hp hda hdb hxa hxb
termination_by n.size

/-! ## One after another -/

/-- The names of a tree with nested positions follow one another. -/
theorem pairwise_names_of_nested {m : SourceMap} (n : Node)
    (hn : n.Everywhere Node.FollowsGrammar) (hnested : n.Everywhere (Node.Nested m)) :
    n.names.Pairwise fun a b => m.finish a ≤ m.start b := by
  by_cases hname : n.kind = .identifier
  · -- a name is a leaf
    rw [n.names_eq, if_pos hname, hn.here.leaf (.inl hname)]
    exact List.pairwise_singleton ..
  · rw [names_of_ne hname, List.pairwise_flatMap]
    constructor
    · intro c hc
      have : c.size < n.size := size_lt_of_mem hc
      exact pairwise_names_of_nested c (hn.of_mem_children c hc) (hnested.of_mem_children c hc)
    · apply hnested.here.ordered.imp_of_mem
      intro c d hc hd hcd a ha b hb
      calc m.finish a ≤ m.finish c :=
            finish_le_of_has (hnested.of_mem_children c hc) (has_of_mem_names c ha)
        _ ≤ m.start d := hcd
        _ ≤ m.start b :=
            start_le_of_has (hnested.of_mem_children d hd) (has_of_mem_names d hb)
termination_by n.size

end CrossRef.Syntax.Node
