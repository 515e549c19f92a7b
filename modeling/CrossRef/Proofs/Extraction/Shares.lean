/-
  CrossRef.Proofs.Extraction.Shares

  No name is declared twice, whatever the tree. Where a construct is visited,
  names in it may be declared, but not the construct itself (`Node.inner`);
  where it is bound, all of them may. What a task leaves behind is about
  different children of its node, so its share of the names is split among them
  (`share_expand`), and what a file declares are names of its tree, each at most
  once (`exists_declared`).
-/
import CrossRef.Proofs.Extraction.Declares
import CrossRef.Proofs.Extraction.Sites
import CrossRef.Proofs.Syntax.Identifiers

namespace CrossRef

open CrossRef.Syntax

/-! ## Names in nodes -/

theorem Syntax.Kind.eq_of_isSplatPattern {k : Kind} (h : k.isSplatPattern = true) :
    k = .listSplatPattern ∨ k = .dictionarySplatPattern := by
  unfold isSplatPattern at h
  split at h
  · exact .inl rfl
  · exact .inr rfl
  · cases h

/-- What is taken from each part is taken from all of them. -/
theorem subperm_flatMap {α : Type} {f g : α → List Node} {l : List α}
    (h : ∀ a ∈ l, (f a).Subperm (g a)) : (l.flatMap f).Subperm (l.flatMap g) := by
  induction l with
  | nil => exact .refl _
  | cons a l ih =>
    obtain ⟨ha, hl⟩ := List.forall_mem_cons.1 h
    exact ha.append (ih hl)

namespace Syntax.Node

variable {n c d a : Node} {ms ns : List Node}

theorem flatMap_names_subperm (h : ms.Subperm ns) :
    (ms.flatMap names).Subperm (ns.flatMap names) := by
  obtain ⟨l, hperm, hsub⟩ := h
  exact (hperm.symm.flatMap_right names).subperm.trans (hsub.flatMap names).subperm

/-- The names below the node. -/
def inner (n : Node) : List Node := n.children.flatMap names

/-- The names that may be declared where the node is visited. The first name behind
    stars is none of them, since it is visited itself. -/
def visible (n : Node) : List Node :=
  if n.kind.isSplatPattern then n.children.flatMap inner else n.inner

theorem inner_subperm_names (n : Node) : n.inner.Subperm n.names :=
  n.flatMap_children_sublist.subperm

theorem visible_subperm_inner (n : Node) : n.visible.Subperm n.inner := by
  unfold visible
  split
  · exact subperm_flatMap fun c _ => c.inner_subperm_names
  · exact .refl _

theorem visible_subperm_names (n : Node) : n.visible.Subperm n.names :=
  n.visible_subperm_inner.trans n.inner_subperm_names

theorem singleton_subperm_names (h : n.kind = .identifier) : [n].Subperm n.names :=
  (singleton_sublist_names h).subperm

/-- A name is none of the names below it. -/
theorem cons_inner_subperm (h : n.kind = .identifier) : (n :: n.inner).Subperm n.names := by
  rw [n.names_eq, if_pos h]
  exact .refl _

/-- A child that is a name is none of the names below the children. -/
theorem cons_flatMap_inner_subperm (hc : c ∈ ns) (h : c.kind = .identifier) :
    (c :: ns.flatMap inner).Subperm (ns.flatMap names) := by
  obtain ⟨before, after, rfl⟩ := List.append_of_mem hc
  have below (ms : List Node) : (ms.flatMap inner).Subperm (ms.flatMap names) :=
    subperm_flatMap fun b _ => b.inner_subperm_names
  have hfront : (c :: (before ++ c :: after).flatMap inner).Perm
      (before.flatMap inner ++ ((c :: c.inner) ++ after.flatMap inner)) := by
    rw [List.flatMap_append, List.flatMap_cons]
    exact List.perm_middle.symm
  have hparts : (before.flatMap inner ++ ((c :: c.inner) ++ after.flatMap inner)).Subperm
      ((before ++ c :: after).flatMap names) := by
    rw [List.flatMap_append, List.flatMap_cons]
    exact (below before).append ((cons_inner_subperm h).append (below after))
  exact hfront.subperm.trans hparts

theorem names_subperm_of_mem_children (hc : c ∈ n.children) : c.names.Subperm n.names := by
  have hone := flatMap_names_sublist (List.singleton_sublist.2 hc)
  rw [List.flatMap_singleton] at hone
  exact hone.subperm

/-- A name in one child, and what may be declared where a child is visited, are
    different names, if they are where both are the same child. -/
theorem cons_visible_subperm (hc : c ∈ n.children) (hd : d ∈ n.children)
    (h : (a :: c.visible).Subperm c.names) : (a :: d.visible).Subperm n.names := by
  by_cases heq : c = d
  · subst heq
    exact h.trans (names_subperm_of_mem_children hc)
  · have hboth : [c, d].Subperm n.children := by
      apply List.subperm_of_subset
      · simpa using heq
      · simpa using ⟨hc, hd⟩
    have hall := flatMap_names_subperm hboth
    rw [List.flatMap_cons, List.flatMap_singleton] at hall
    have hname : [a].Subperm c.names :=
      (List.singleton_sublist.2 List.mem_cons_self).subperm.trans h
    exact ((hname.append d.visible_subperm_names).trans hall).trans n.inner_subperm_names

end Syntax.Node

namespace Extraction

/-! ## Shares of tasks -/

/-- The names that a task may declare. -/
def Task.share : Task → List Node
  | .visit _ n => n.visible
  | .bind _ n | .parameter _ _ n | .clause _ n => n.names
  | .enter _ n => (innerNodes n).flatMap Node.names
  | .declare _ _ n => [n]
  | .wildcard .. => []

/-- Where the task declares something, it is a name. -/
def Task.Names : Task → Prop
  | .declare _ _ n => n.kind = .identifier
  | .visit .. | .bind .. | .enter .. | .parameter .. | .clause .. | .wildcard .. => True

variable {src : Source} {scope outer inner : ScopeId} {n : Node} {t u : Task} {x : Extraction}

theorem Leaves.names (h : Leaves x t u) (ht : t.Within Node.BindsNames) : u.Names := by
  cases h with
  | named hkind hc => exact (Node.Everywhere.here ht).bound hkind _ hc
  | renamed hkind hc => exact (Node.Everywhere.here ht).renamed hkind _ hc
  | bound hkind | caught _ hkind | parameterName _ hkind => exact hkind
  | boundWhole hkind hempty =>
    -- a target has something in it
    exact absurd hempty ((Node.Everywhere.here ht).target hkind)
  | clause | visit | target | construct | wildcard | member | code | parameter | inside
  | parameterCode | clauseTarget | clauseSource => trivial

/-- What is gone into when a construct is entered has names of the parts by which it is. -/
theorem names_innerNodes (n : Node) :
    ((innerNodes n).flatMap Node.names).Subperm ((entered n).flatMap Node.names) := by
  have inside (f : Field) :
      (((n.child? f).toList.flatMap (·.namedChildren)).flatMap Node.names).Subperm
        ((n.child? f).toList.flatMap Node.names) := by
    rw [List.flatMap_assoc]
    exact subperm_flatMap fun c _ => (Node.flatMap_names_sublist c.namedChildren_sublist).subperm
  by_cases hn : HasBody n
  · rw [entered_of_hasBody hn, List.flatMap_append]
    rcases hn with hkind | hkind | hkind
    all_goals
      rw [innerNodes, hkind]
      simp only [List.flatMap_append]
    · exact (inside .parameters).append (inside .body)
    · exact (inside .parameters).append (.refl _)
    · exact (inside .body).trans (List.sublist_append_right _ _).subperm
  · rw [entered_of_not_hasBody hn, innerNodes_of_not_hasBody hn, List.flatMap_singleton]
    exact (Node.flatMap_names_sublist n.namedChildren_sublist).subperm

/-- The share of a task is of the names in the nodes that it is about. -/
theorem share_subperm_nodes (ht : t.Names) : t.share.Subperm (t.nodes.flatMap Node.names) := by
  have whole {n : Node} {ns : List Node} (h : ns.Subperm n.names) :
      ns.Subperm ([n].flatMap Node.names) := by
    rwa [List.flatMap_singleton]
  cases t with
  | visit scope n => exact whole n.visible_subperm_names
  | bind | parameter | clause => exact whole (.refl _)
  | enter outer n => exact names_innerNodes n
  | declare scope kind n => exact whole (Node.singleton_subperm_names ht)
  | wildcard => exact .refl _

/-! ## Splitting -/

theorem share_subperm {ts : List Task} (hts : ∀ t ∈ ts, t.Names) :
    (ts.flatMap Task.share).Subperm ((ts.flatMap Task.nodes).flatMap Node.names) := by
  rw [List.flatMap_assoc]
  exact subperm_flatMap fun t ht => share_subperm_nodes (hts t ht)

/-- Tasks about different children, or about the node as a whole, have shares of its names. -/
theorem share_of_parts {ts : List Task} (hts : ∀ t ∈ ts, t.Names)
    (h : n.Parts (ts.flatMap Task.nodes)) : (ts.flatMap Task.share).Subperm n.names := by
  refine (share_subperm hts).trans ?_
  rcases h with hone | hparts
  · rw [hone, List.flatMap_singleton]
  · exact (Node.flatMap_names_subperm hparts).trans n.inner_subperm_names

theorem share_visits (scope : ScopeId) (ns : List Node) :
    (ns.map (Task.visit scope)).flatMap Task.share = ns.flatMap Node.visible := by
  rw [List.flatMap_map]
  rfl

theorem share_visitTasks (hts : ∀ t ∈ visitTasks scope n, t.Names) :
    ((visitTasks scope n).flatMap Task.share).Subperm n.visible := by
  by_cases hwhole : n.kind ∈ comprehensions
  · have hsplat : n.kind.isSplatPattern = false := by
      have hall : ∀ k ∈ comprehensions, k.isSplatPattern = false := by decide
      exact hall _ hwhole
    rw [visitTasks_of_comprehension hwhole, List.flatMap_singleton, Task.share,
      innerNodes_of_not_hasBody (not_hasBody_of_comprehension hwhole), Node.visible, hsplat]
    exact (n.namedChildren_sublist.flatMap Node.names).subperm
  · unfold Node.visible
    split
    · -- behind stars everything is visited
      rename_i hsplat
      have hvisits : visitTasks scope n = n.namedChildren.map (.visit scope) := by
        rcases Kind.eq_of_isSplatPattern hsplat with hkind | hkind
        all_goals simp only [visitTasks, hkind]
      rw [hvisits, share_visits]
      exact (subperm_flatMap fun c _ => c.visible_subperm_inner).trans
        (n.namedChildren_sublist.flatMap Node.inner).subperm
    · exact (share_subperm hts).trans
        (Node.flatMap_names_subperm (nodes_visitTasks_subperm scope hwhole))

theorem share_innerTasks (hts : ∀ t ∈ innerTasks outer inner n, t.Names) :
    ((innerTasks outer inner n).flatMap Task.share).Subperm
      ((innerNodes n).flatMap Node.names) := by
  have hnodes : (innerTasks outer inner n).flatMap (fun t => t.nodes.flatMap Node.names) =
      (innerNodes n).flatMap Node.names :=
    flatMap_innerTasks (fun _ _ => List.flatMap_singleton ..)
      (fun _ _ _ => List.flatMap_singleton ..) (fun _ _ => List.flatMap_singleton ..) outer inner n
  rw [← hnodes]
  exact subperm_flatMap fun t ht => share_subperm_nodes (hts t ht)

/-! ## Parameters -/

/-- The name of a parameter is none of the names in its annotation and its default. -/
theorem name_and_code_subperm {c : Node} (hc : parameterName? n = some c)
    (hname : c.kind = .identifier) :
    (c :: (parameterCode n).flatMap Node.visible).Subperm n.names := by
  have default (hcode : parameterCode n = (n.child? .type).toList ++ (n.child? .value).toList)
      (hc : n.child? .name = some c) :
      (c :: (parameterCode n).flatMap Node.visible).Subperm n.names := by
    have hdistinct : [Field.name, .type, .value].Nodup := by decide
    have hroles := Node.flatMap_names_subperm (n.roles_subperm hdistinct)
    rw [List.filterMap_cons_some hc, List.filterMap_eq_flatMap_toList, List.flatMap_cons,
      List.flatMap_cons, List.flatMap_singleton, ← hcode] at hroles
    have hname := Node.singleton_subperm_names hname
    have hcode := subperm_flatMap fun b (_ : b ∈ parameterCode n) => b.visible_subperm_names
    exact ((hname.append hcode).trans hroles).trans n.inner_subperm_names
  have first {m : Node} (hhead : m.namedChildren.head? = some c) : c ∈ m.children :=
    m.namedChildren_sublist.subset (List.mem_of_mem_head? hhead)
  unfold parameterName? at hc
  split at hc
  case h_1 hkind =>
    cases hc
    rw [parameterCode, hkind]
    exact Node.singleton_subperm_names hname
  case h_2 hkind | h_3 hkind =>
    rw [parameterCode, hkind]
    exact (Node.singleton_subperm_names hname).trans
      (Node.names_subperm_of_mem_children (first hc))
  case h_4 hkind =>
    rw [parameterCode, hkind]
    split at hc
    · rename_i m hm
      have hmem : m ∈ n.children := n.namedChildren_sublist.subset (List.mem_of_mem_head? hm)
      have hown : (c :: m.visible).Subperm m.names := by
        split at hc
        · -- the name stands behind stars
          rename_i hsplat
          rw [Node.visible, if_pos hsplat]
          exact (Node.cons_flatMap_inner_subperm (first hc) hname).trans m.inner_subperm_names
        · cases hc
          exact ((List.Subperm.refl [c]).append c.visible_subperm_inner).trans
            (Node.cons_inner_subperm hname)
      -- the annotation is not the first child, so the two share no name
      cases hd : n.child? .type with
      | none =>
        have hname : [c].Subperm m.names :=
          (List.singleton_sublist.2 List.mem_cons_self).subperm.trans hown
        exact hname.trans (Node.names_subperm_of_mem_children hmem)
      | some d =>
        show (c :: [d].flatMap Node.visible).Subperm n.names
        rw [List.flatMap_singleton]
        exact Node.cons_visible_subperm hmem (Node.mem_children_of_child? hd) hown
    · cases hc
  case h_5 hkind => exact default (by rw [parameterCode, hkind]) hc
  case h_6 hkind => exact default (by rw [parameterCode, hkind]) hc
  case h_7 => cases hc

theorem share_parameterTasks (src : Source) (outer inner : ScopeId) (n : Node) :
    ((parameterTasks src outer inner n).flatMap Task.share).Subperm n.names := by
  have code : ((parameterCode n).flatMap Node.visible).Subperm n.names := by
    have hvisits : ∀ t ∈ (parameterCode n).map (Task.visit outer), t.Names :=
      List.forall_mem_map.2 fun _ _ => trivial
    rw [← share_visits outer]
    apply share_of_parts hvisits
    rw [nodes_map _ fun _ => rfl]
    exact parts_parameterCode n
  have names (ns : List Node) :
      (ns.map (Task.declare inner .variable)).flatMap Task.share = ns := by
    rw [List.flatMap_map]
    exact List.flatMap_singleton' ns
  rw [parameterTasks, List.flatMap_append, share_visits, names]
  cases hc : parameterName? n with
  | none => exact code
  | some c =>
    rw [Option.toList_some, List.filter_singleton]
    cases hdeclared : c.kind == .identifier && !Reserved.isImplicitParameter (src.map.text c) with
    | true =>
      rw [Bool.and_eq_true, beq_iff_eq] at hdeclared
      exact name_and_code_subperm hc hdeclared.1
    | false => exact code

/-! ## Walks -/

/-- The share of a task is split among the tasks that it leaves behind. -/
theorem share_expand (src : Source) (ht : t.Within Node.BindsNames) (x : Extraction) :
    ((expand src t x).1.flatMap Task.share).Subperm t.share := by
  have hnames : ∀ u ∈ (expand src t x).1, u.Names := fun u hu =>
    (leaves_of_mem_expand hu).names ht
  cases t with
  | visit scope n => exact share_visitTasks hnames
  | bind scope n => exact share_of_parts hnames (parts_bindTasks scope n)
  | enter outer n =>
    rw [expand] at hnames ⊢
    split
    · rename_i hopened
      rw [hopened] at hnames
      exact share_innerTasks hnames
    · exact List.nil_subperm
  | parameter outer inner n => exact share_parameterTasks src outer inner n
  | clause scope n => exact share_of_parts hnames (parts_clauseTasks scope n)
  | declare | wildcard => exact List.nil_subperm

/-- What a file declares are names of its tree, each at most once and none of them empty. -/
theorem exists_declared (src : Source) {root : Node} (h : root.Everywhere Node.BindsNames) :
    ∃ ns, Declares src .empty (ofTree src root) ns ∧ ns.Subperm root.names := by
  let T (t : Task) : Prop := t.Within Node.BindsNames ∧ t.Names
  have hkind : ∀ t x, T t → ∀ u ∈ (expand src t x).1, T u := fun t x ht u hu =>
    ⟨within_expand ht.1 x u hu, (leaves_of_mem_expand hu).names ht.1⟩
  have hsplit : ∀ t x, T t → ((expand src t x).1.flatMap Task.share).Subperm t.share :=
    fun t x ht => share_expand src ht.1 x
  have hroot : ∀ n ∈ root.namedChildren, T (.visit 0 n) := fun n hn =>
    ⟨h.of_below (Node.below_of_mem_namedChildren hn), trivial⟩
  obtain ⟨ns, hns, hsub⟩ := declares_ofTree splitting_subperm hkind hsplit
    (fun scope kind n _ => .refl _) hroot
  rw [share_visits] at hsub
  have hparts : (root.namedChildren.flatMap Node.visible).Subperm
      (root.namedChildren.flatMap Node.names) :=
    subperm_flatMap fun c _ => c.visible_subperm_names
  exact ⟨ns, hns, (hsub.trans hparts).trans
    (Node.flatMap_names_sublist root.namedChildren_sublist).subperm⟩

end Extraction

end CrossRef
