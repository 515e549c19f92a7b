/-
  CrossRef.Proofs.Extraction.WalkOrder

  What the walk over a tree declares, and in which order. The walk comes to the
  names of a tree in the order of the text, except that it goes into what a
  function returns before its parameters (`Node.walked`). The tasks that a task
  splits into share out its names in this order (`walked_expand`), so what is
  declared are names of the tree, in this order and each at most once
  (`declares_walked`).
-/
import CrossRef.Proofs.Extraction.Shares
import CrossRef.Proofs.Syntax.Roles

namespace CrossRef

open CrossRef.Syntax

/-! ## Names in the order of the walk -/

namespace Syntax.Node

variable {n c : Node} {ns : List Node}

/-- The roles in a function definition, in the order of the walk. -/
def walkRoles : List Field := [.name, .typeParameters, .returnType, .parameters, .body]

/-- The children in the order of the walk. -/
def walkedChildren (n : Node) : List Node :=
  if n.kind = .functionDefinition then walkRoles.filterMap n.child? else n.children

theorem walkedChildren_subperm (n : Node) : n.walkedChildren.Subperm n.children := by
  rw [walkedChildren]
  split
  · exact n.roles_subperm (by decide)
  · exact .refl _

/-- The names of the tree in the order of the walk. -/
def walked (n : Node) : List Node :=
  (if n.kind = .identifier then [n] else []) ++
    n.walkedChildren.attach.flatMap fun c => c.1.walked
termination_by n.size
decreasing_by exact size_lt_of_mem (n.walkedChildren_subperm.subset c.2)

theorem walked_eq (n : Node) : n.walked =
    (if n.kind = .identifier then [n] else []) ++ n.walkedChildren.flatMap walked := by
  rw [walked]
  simp only [List.flatMap_def, List.map_attach_eq_pmap, List.pmap_eq_map]

theorem IsIdle.walked (h : n.IsIdle) : n.walked = [] := by
  have hnone : n.walkedChildren = [] :=
    List.subperm_nil.1 (h.leaf ▸ n.walkedChildren_subperm)
  rw [walked_eq, if_neg h.kind, hnone]
  rfl

/-- The names of some of the children are among those of the node, in their order. -/
theorem flatMap_walked_sublist (h : ns.Sublist n.walkedChildren) :
    (ns.flatMap Node.walked).Sublist n.walked := by
  rw [n.walked_eq]
  exact (h.flatMap _).trans (List.sublist_append_right _ _)

theorem singleton_sublist_walked (h : n.kind = .identifier) : [n].Sublist n.walked := by
  rw [n.walked_eq, if_pos h]
  exact List.sublist_append_left _ _

/-- In other constructs the walk goes from left to right. -/
theorem walkedChildren_of_ne (h : n.kind ≠ .functionDefinition) :
    n.walkedChildren = n.children := if_neg h

theorem flatMap_namedChildren_walked_sublist (h : n.kind ≠ .functionDefinition) :
    (n.namedChildren.flatMap walked).Sublist n.walked :=
  flatMap_walked_sublist (walkedChildren_of_ne h ▸ n.namedChildren_sublist)

/-- The walk comes to no name of the tree twice. -/
theorem walked_subperm_names (n : Node) : n.walked.Subperm n.names := by
  have hall : ∀ ms : List Node, (∀ c ∈ ms, c.walked.Subperm c.names) →
      (ms.flatMap Node.walked).Subperm (ms.flatMap names) := by
    intro ms hms
    induction ms with
    | nil => exact .refl _
    | cons c ms ih =>
      obtain ⟨hc, hms⟩ := List.forall_mem_cons.1 hms
      exact hc.append (ih hms)
  have hchildren := hall n.walkedChildren fun c hc =>
    have : c.size < n.size := size_lt_of_mem (n.walkedChildren_subperm.subset hc)
    walked_subperm_names c
  rw [n.walked_eq, n.names_eq]
  exact (List.subperm_append_left _).2
    (hchildren.trans (flatMap_names_subperm n.walkedChildren_subperm))
termination_by n.size

/-- What is in some roles, in their order, is in the order of the children. -/
theorem Arranged.roles_sublist (h : n.Arranged) {fs : List Field}
    (hfs : fs.Sublist (roleOrder n.kind)) : (fs.filterMap n.child?).Sublist n.children := by
  by_cases hordered : roleOrder n.kind = []
  · rw [hordered, List.sublist_nil] at hfs
    rw [hfs]
    exact List.nil_sublist _
  · exact (hfs.filterMap _).trans
      ((h.roles hordered).filterMap_find?_sublist (nodup_roleOrder _))

/-- Nothing is in a role that the construct does not have. -/
theorem Arranged.child?_eq_none (h : n.Arranged) (hordered : roleOrder n.kind ≠ []) {f : Field}
    (hf : f ∉ roleOrder n.kind) : n.child? f = none := by
  cases hc : n.child? f with
  | none => rfl
  | some c =>
    exact absurd ((h.roles hordered).mem (mem_children_of_child? hc) (field_of_child? hc)) hf

end Syntax.Node

/-- What the grammar says of a node: names are where names are bound, what comes
    first in a parameter with an annotation is not the annotation, and the
    children are those that it gives to nodes of this kind, in their order. -/
structure Syntax.Node.WellMade (n : Node) : Prop where
  binds : n.BindsNames
  typed : n.kind = .typedParameter → ∀ m ∈ n.namedChildren.head?, m.field = none
  follows : n.FollowsGrammar
  arranged : n.Arranged

theorem Syntax.everywhere_wellMade_parse (text : String) :
    (parse text).Everywhere Node.WellMade := by
  have hfits : (parse text).Everywhere (Node.Fits text.toList) :=
    .mk (.of_kind (by decide)) (everywhere_fits_parse text)
  have hfollows := everywhere_followsGrammar_parse text
  exact (hfits.and (hfollows.and (everywhere_arranged_parse text))).imp fun c hc =>
    ⟨hc.here.1.bindsNames, hc.here.1.typed, hc.here.2.1, hc.here.2.2⟩

namespace Extraction

/-! ## What tasks come to -/

/-- The names that a task may declare, in the order of the walk. -/
def Task.walked : Task → List Node
  | .visit _ n | .bind _ n | .parameter _ _ n | .clause _ n | .declare _ _ n => n.walked
  | .enter _ n => (innerNodes n).flatMap Node.walked
  | .wildcard .. => []

variable {src : Source} {scope outer inner : ScopeId} {n : Node}

/-- Tasks of one kind come to the names of their nodes. -/
theorem walked_map (ns : List Node) {g : Node → Task} (hg : ∀ c, (g c).walked = c.walked) :
    (ns.map g).flatMap Task.walked = ns.flatMap Node.walked := by
  rw [List.flatMap_map]
  exact List.flatMap_congr fun c _ => hg c

theorem walked_innerTasks (outer inner : ScopeId) (n : Node) :
    (innerTasks outer inner n).flatMap Task.walked = (innerNodes n).flatMap Node.walked :=
  flatMap_innerTasks (fun _ _ => rfl) (fun _ _ _ => rfl) (fun _ _ => rfl) outer inner n

/-- What is gone into when a construct is entered has names of the parts by which it is. -/
theorem walked_innerNodes (h : n.Arranged) :
    ((innerNodes n).flatMap Node.walked).Sublist ((entered n).flatMap Node.walked) := by
  have inside {f : Field} (hf : ∀ c, n.child? f = some c → c.kind ≠ .functionDefinition) :
      (((n.child? f).toList.flatMap (·.namedChildren)).flatMap Node.walked).Sublist
        ((n.child? f).toList.flatMap Node.walked) := by
    rw [List.flatMap_assoc]
    exact List.Sublist.flatMap_right _ fun c hc =>
      Node.flatMap_namedChildren_walked_sublist (hf c (Option.mem_toList.1 hc))
  have parameters (hn : n.kind = .functionDefinition ∨ n.kind = .lambda) :=
    inside (f := .parameters) fun c hc => by
      rcases h.parameters hn c hc with hkind | hkind
      · exact hkind ▸ Kind.noConfusion
      · exact hkind ▸ Kind.noConfusion
  have body (hn : n.kind = .functionDefinition ∨ n.kind = .classDefinition) :=
    inside (f := .body) fun c hc => h.body hn c hc ▸ Kind.noConfusion
  by_cases hn : HasBody n
  · rw [entered_of_hasBody hn, List.flatMap_append]
    rcases hn with hkind | hkind | hkind
    all_goals
      rw [innerNodes, hkind]
      simp only [List.flatMap_append]
    · exact (parameters (.inl hkind)).append (body (.inl hkind))
    · exact (parameters (.inr hkind)).append (.refl _)
    · exact (body (.inr hkind)).trans (List.sublist_append_right _ _)
  · rw [entered_of_not_hasBody hn, innerNodes_of_not_hasBody hn, List.flatMap_singleton]
    exact Node.flatMap_namedChildren_walked_sublist fun hkind => hn (.inl hkind)

/-- A task comes to names of the nodes it is about. -/
theorem walked_sublist_nodes {t : Task} (h : ∀ outer n, t = .enter outer n → n.Arranged) :
    t.walked.Sublist (t.nodes.flatMap Node.walked) := by
  cases t with
  | visit | bind | parameter | clause | declare =>
    exact (List.flatMap_singleton Node.walked _).symm ▸ .refl _
  | enter outer n => exact walked_innerNodes (h outer n rfl)
  | wildcard => exact .refl _

/-- Tasks about children, in the order of the walk, come to names of the node in this order. -/
theorem walked_of_nodes {ts : List Task} (h : (ts.flatMap Task.nodes).Sublist n.walkedChildren)
    (hts : ∀ t ∈ ts, ∀ outer n, t = .enter outer n → n.Arranged) :
    (ts.flatMap Task.walked).Sublist n.walked := by
  have hnodes := Node.flatMap_walked_sublist h
  rw [List.flatMap_assoc] at hnodes
  exact (List.Sublist.flatMap_right ts fun t ht => walked_sublist_nodes (hts t ht)).trans hnodes

/-! ## Splitting -/

/-- The targets of a loop stand in front of all else that has names. -/
theorem walked_target_and_others {f : Field} {fs : List Field} {ns : List Node}
    (h : InRoles (f :: fs) ns) (hfs : (f :: fs).Nodup) :
    ((ns.find? (·.field == some f)).toList.flatMap Node.walked ++
      ((ns.filter (·.isNamed)).filter fun c => c.field != some f).flatMap Node.walked).Sublist
      (ns.flatMap Node.walked) := by
  have others (ms : List Node) :
      ((ms.filter (·.isNamed)).filter fun c => c.field != some f).Sublist ms :=
    List.filter_sublist.trans List.filter_sublist
  cases hfirst : ns.find? (·.field == some f) with
  | none => exact (others ns).flatMap _
  | some c =>
    obtain ⟨hc, before, after, rfl, -⟩ := List.find?_eq_some_iff_append.1 hfirst
    have hidle := h.idle_before hfs (beq_iff_eq.1 hc)
    have hnone {ms : List Node} (hms : ms ⊆ before) : ms.flatMap Node.walked = [] :=
      List.flatMap_eq_nil_iff.2 fun b hb => (hidle b (hms hb)).walked
    -- the target itself is not among the others
    have hskip : (([c].filter (·.isNamed)).filter fun c => c.field != some f) = [] := by
      refine List.filter_eq_nil_iff.2 fun d hd hne => ?_
      cases List.mem_singleton.1 (List.mem_filter.1 hd).1
      exact absurd (beq_iff_eq.1 hc) (bne_iff_ne.1 hne)
    rw [← List.singleton_append (x := c) (l := after)]
    simp only [List.filter_append, List.flatMap_append, hskip, hnone (others before).subset,
      hnone (List.Subset.refl before), List.nil_append]
    exact (List.Sublist.refl _).append ((others after).flatMap _)

/-- Where a construct is not gone into as a whole, visiting it is about its
    children in the order of the walk. In a loop, comments may come before the target. -/
theorem nodes_visitTasks (h : n.Arranged) (hfor : n.kind ≠ .forStatement)
    (hwhole : n.kind ∉ comprehensions) :
    ((visitTasks scope n).flatMap Task.nodes).Sublist n.walkedChildren := by
  have visited (ns : List Node) : (ns.map (Task.visit scope)).flatMap Task.nodes = ns :=
    nodes_map ns fun _ => rfl
  have targets (ns : List Node) : (ns.map (Task.bind scope)).flatMap Task.nodes = ns :=
    nodes_map ns fun _ => rfl
  have named (kind : DeclarationKind) (ns : List Node) :
      (ns.map (Task.declare scope kind)).flatMap Task.nodes = ns :=
    nodes_map ns fun _ => rfl
  have roles (fs : List Field) (hkind : n.kind ≠ .functionDefinition)
      (hfs : fs.Sublist (roleOrder n.kind)) :
      (fs.flatMap fun f => (n.child? f).toList).Sublist n.walkedChildren := by
    rw [Node.walkedChildren_of_ne hkind, ← List.filterMap_eq_flatMap_toList]
    exact h.roles_sublist hfs
  -- the cases are the kinds of `visitTasks`, from function definitions on
  unfold visitTasks
  split
  case h_1 hkind =>
    -- what a function returns is walked before its parameters, against the text
    have hall : ([Field.name, .returnType, .parameters, .body].filterMap n.child?).Sublist
        n.walkedChildren := by
      rw [Node.walkedChildren, if_pos hkind]
      exact List.Sublist.filterMap _ (by decide)
    simp only [List.flatMap_append, named, visited]
    rw [List.flatMap_singleton, nodes_enter (.inl hkind)]
    rw [List.filterMap_eq_flatMap_toList] at hall
    simpa only [List.flatMap_cons, List.flatMap_nil, List.append_nil, List.append_assoc] using hall
  case h_2 hkind =>
    -- a class is entered like a function, but has no parameters
    have hall := roles [.name, .superclasses, .body] (by rw [hkind]; decide)
      (by rw [hkind]; decide)
    have hparameters : n.child? .parameters = none :=
      h.child?_eq_none (by rw [hkind]; decide) (by rw [hkind]; decide)
    simp only [List.flatMap_append, named, visited]
    rw [List.flatMap_singleton, nodes_enter (.inr (.inr hkind)), hparameters, Option.toList_none,
      List.nil_append]
    simpa only [List.flatMap_cons, List.flatMap_nil, List.append_nil, List.append_assoc] using hall
  case h_3 hkind =>
    have hall := roles [.parameters, .body] (by rw [hkind]; decide) (by rw [hkind]; decide)
    rw [List.flatMap_singleton, nodes_enter (.inr (.inl hkind))]
    simpa only [List.flatMap_cons, List.flatMap_nil, List.append_nil] using hall
  case h_4 hkind | h_5 hkind | h_6 hkind | h_7 hkind =>
    exact absurd (by rw [hkind]; decide) hwhole
  case h_8 hkind =>
    have hall := roles [.left, .type, .right] (by rw [hkind]; decide)
      (by rw [hkind]; decide)
    simp only [List.flatMap_append, targets, visited]
    simpa only [List.flatMap_cons, List.flatMap_nil, List.append_nil, List.append_assoc] using hall
  case h_9 hkind => exact absurd hkind hfor
  case h_10 hkind =>
    rw [Node.walkedChildren_of_ne (by rw [hkind]; decide)]
    exact nodes_asPatternTasks scope n.children
  case h_11 hkind =>
    rw [Node.walkedChildren_of_ne (by rw [hkind]; decide)]
    exact nodes_exceptTasks scope false n.children
  case h_12 hkind =>
    have hall := roles [.name, .value] (by rw [hkind]; decide) (by rw [hkind]; decide)
    simp only [List.flatMap_append, named, visited]
    simpa only [List.flatMap_cons, List.flatMap_nil, List.append_nil] using hall
  case h_13 hkind =>
    have hall := roles [.alias] (by rw [hkind]; decide) (by rw [hkind]; decide)
    rw [List.flatMap_singleton] at hall
    rwa [named]
  case h_14 hkind =>
    -- recording a wildcard is about no node
    rw [Node.walkedChildren_of_ne (by rw [hkind]; decide), List.flatMap_append, visited,
      List.flatMap_singleton]
    show (_ ++ []).Sublist _
    rw [List.append_nil]
    exact List.filter_sublist.trans n.namedChildren_sublist
  case h_15 | h_16 | h_17 => exact List.nil_sublist _
  case h_18 hfunction _ _ _ _ _ _ _ _ _ _ _ _ _ _ _ _ =>
    rw [visited, Node.walkedChildren_of_ne hfunction]
    exact n.namedChildren_sublist

theorem walked_visitTasks (h : n.Arranged) :
    ((visitTasks scope n).flatMap Task.walked).Sublist n.walked := by
  by_cases hfor : n.kind = .forStatement
  · have hroles : InRoles (roleOrder n.kind) n.children := h.roles (by rw [hfor]; decide)
    have hall : (n.children.flatMap Node.walked).Sublist n.walked :=
      Node.flatMap_walked_sublist (Node.walkedChildren_of_ne (by rw [hfor]; decide) ▸ .refl _)
    rw [hfor] at hroles
    rw [visitTasks, hfor]
    simp only [List.flatMap_append]
    rw [walked_map _ fun _ => rfl, walked_map _ fun _ => rfl]
    exact (walked_target_and_others hroles (by decide)).trans hall
  by_cases hwhole : n.kind ∈ comprehensions
  · rw [visitTasks_of_comprehension hwhole, List.flatMap_singleton, Task.walked,
      innerNodes_of_not_hasBody (not_hasBody_of_comprehension hwhole)]
    refine Node.flatMap_namedChildren_walked_sublist fun hkind => ?_
    exact not_hasBody_of_comprehension hwhole (.inl hkind)
  · refine walked_of_nodes (nodes_visitTasks h hfor hwhole) ?_
    rintro t ht outer c rfl
    -- only the construct itself is entered
    cases leaves_visitTasks (x := .empty) _ ht
    exact h

theorem walked_bindTasks (scope : ScopeId) (n : Node) :
    ((bindTasks scope n).flatMap Task.walked).Sublist n.walked := by
  have whole {t : Task} (ht : t.walked = n.walked) :
      ([t].flatMap Task.walked).Sublist n.walked := by
    rw [List.flatMap_singleton, ht]
  unfold bindTasks
  split
  · exact whole rfl
  · split
    · exact whole rfl
    · split
      · rename_i hgroup
        rw [walked_map _ fun _ => rfl]
        refine Node.flatMap_namedChildren_walked_sublist fun hkind => ?_
        rw [hkind] at hgroup
        exact absurd hgroup (by decide)
      · exact whole rfl

/-! ## Parameters and clauses -/

theorem walked_head? (hkind : n.kind ≠ .functionDefinition) :
    (n.namedChildren.head?.toList.flatMap Node.walked).Sublist n.walked := by
  rw [← List.take_one]
  exact ((List.take_sublist 1 _).flatMap Node.walked).trans
    (Node.flatMap_namedChildren_walked_sublist hkind)

/-- A bare token has no names in it. -/
theorem isIdle_of_not_isNamed (hn : n.FollowsGrammar) (h : n.isNamed = false) : n.IsIdle where
  kind hkind := by
    rw [Node.isNamed, hkind] at h
    cases h
  leaf := hn.leaf (.inr h)

/-- A first child in no role comes before what is in a role. -/
theorem walked_head?_and_role (hn : n.Everywhere Node.WellMade)
    (hkind : n.kind ≠ .functionDefinition)
    (hhead : ∀ m ∈ n.namedChildren.head?, m.field = none) (f : Field) :
    (n.namedChildren.head?.toList.flatMap Node.walked ++
      (n.child? f).toList.flatMap Node.walked).Sublist n.walked := by
  have some_walked {ms : List Node} (h : ms.Sublist n.children) :
      (ms.flatMap Node.walked).Sublist n.walked :=
    Node.flatMap_walked_sublist (Node.walkedChildren_of_ne hkind ▸ h)
  cases hc : n.child? f with
  | none => exact (List.append_nil _).symm ▸ walked_head? hkind
  | some c =>
    have hmem : c ∈ n.children := Node.mem_children_of_child? hc
    cases hm : n.namedChildren.head? with
    | none => exact some_walked (List.singleton_sublist.2 hmem)
    | some m =>
      obtain ⟨rest, hrest⟩ := List.head?_eq_some_iff.1 hm
      cases hnamed : c.isNamed with
      | false =>
        have hidle := isIdle_of_not_isNamed (hn.of_mem_children c hmem).here.follows hnamed
        have hempty : (some c).toList.flatMap Node.walked = [] :=
          (List.flatMap_singleton ..).trans hidle.walked
        rw [hempty, List.append_nil, ← hm]
        exact walked_head? hkind
      | true =>
        -- the first child has no role, so what has one is another and stands behind it
        have hne : c ≠ m := by
          rintro rfl
          have hnone : none = some f := (hhead c hm).symm.trans (Node.field_of_child? hc)
          cases hnone
        have hbehind : c ∈ rest := by
          have hall : c ∈ n.namedChildren := List.mem_filter.2 ⟨hmem, hnamed⟩
          rw [hrest] at hall
          exact (List.mem_cons.1 hall).resolve_left hne
        have hboth : [m, c].Sublist n.namedChildren := by
          rw [hrest]
          exact (List.singleton_sublist.2 hbehind).cons_cons m
        rw [← List.flatMap_append]
        exact some_walked (hboth.trans n.namedChildren_sublist)

/-- The name of a parameter comes before its annotation, and that before its default. -/
theorem walked_parameter (hn : n.Everywhere Node.WellMade) :
    ((parameterName? n).toList.flatMap Node.walked ++
      (parameterCode n).flatMap Node.walked).Sublist n.walked := by
  have default (hkind : n.kind = .defaultParameter ∨ n.kind = .typedDefaultParameter) :
      ((n.child? .name).toList.flatMap Node.walked ++
        ((n.child? .type).toList ++ (n.child? .value).toList).flatMap Node.walked).Sublist
          n.walked := by
    have hroles : ([Field.name, .type, .value].filterMap n.child?).Sublist n.walkedChildren := by
      rcases hkind with hkind | hkind
      all_goals
        rw [Node.walkedChildren_of_ne (by rw [hkind]; decide)]
        exact hn.here.arranged.roles_sublist (by rw [hkind]; decide)
    have hall := Node.flatMap_walked_sublist hroles
    rw [List.filterMap_eq_flatMap_toList] at hall
    simpa only [List.flatMap_cons, List.flatMap_nil, List.append_nil, List.flatMap_append]
      using hall
  unfold parameterName?
  split
  case h_1 hkind =>
    rw [parameterCode, hkind, List.flatMap_nil, List.append_nil, Option.toList_some,
      List.flatMap_singleton]
  case h_2 hkind | h_3 hkind =>
    rw [parameterCode, hkind, List.flatMap_nil, List.append_nil]
    exact walked_head? (by rw [hkind]; decide)
  case h_4 hkind =>
    rw [parameterCode, hkind]
    refine List.Sublist.trans ?_ (walked_head?_and_role hn (by rw [hkind]; decide)
      (hn.here.typed hkind) .type)
    refine List.Sublist.append ?_ (.refl _)
    split
    · rename_i name hname
      rw [hname, Option.toList_some, List.flatMap_singleton]
      split
      · -- the name stands behind stars
        rename_i hsplat
        refine walked_head? fun hname => ?_
        rw [hname] at hsplat
        cases hsplat
      · rw [Option.toList_some, List.flatMap_singleton]
    · exact List.nil_sublist _
  case h_5 hkind =>
    rw [parameterCode, hkind]
    exact default (.inl hkind)
  case h_6 hkind =>
    rw [parameterCode, hkind]
    exact default (.inr hkind)
  case h_7 htyped hdefault htypedDefault =>
    -- what is no parameter has no code of one either
    have hnone : parameterCode n = [] := by
      unfold parameterCode
      split
      · exact absurd ‹_› htyped
      · exact absurd ‹_› hdefault
      · exact absurd ‹_› htypedDefault
      · rfl
    rw [hnone]
    exact List.nil_sublist _

theorem walked_parameterTasks (outer inner : ScopeId) (hn : n.Everywhere Node.WellMade) :
    ((parameterTasks src outer inner n).flatMap Task.walked).Sublist n.walked := by
  rw [parameterTasks, List.flatMap_append, walked_map _ fun _ => rfl, walked_map _ fun _ => rfl]
  exact ((List.filter_sublist.flatMap Node.walked).append (.refl _)).trans (walked_parameter hn)

/-- The targets of a clause come before its source. -/
theorem walked_clauseTasks (h : n.Arranged) (hkind : n.kind = .forInClause) :
    (((n.child? .left).toList.map (Task.bind scope) ++
      (n.child? .right).toList.map (Task.visit scope)).flatMap Task.walked).Sublist n.walked := by
  obtain ⟨front, back, hchildren, hfront, hback⟩ := h.clause hkind
  have hleft : (n.child? .left).toList.Sublist front := by
    have hnone : back.find? (·.field == some Field.left) = none := by
      refine InRoles.find?_eq_none_of_notMem fun hmem => ?_
      obtain ⟨c, hc, hfield⟩ := List.mem_filterMap.1 hmem
      rcases hback c hc with ⟨hfree, -⟩ | hright
      · exact absurd (hfree.symm.trans hfield) (Option.some_ne_none _).symm
      · exact absurd (hright.symm.trans hfield) (by decide)
    rw [Node.child?, hchildren, List.find?_append, hnone, Option.or_none]
    cases hc : front.find? (·.field == some Field.left) with
    | none => exact List.nil_sublist _
    | some c => exact List.singleton_sublist.2 (List.mem_of_find?_eq_some hc)
  have hright : (n.child? .right).toList.Sublist back := by
    have hnone : front.find? (·.field == some Field.right) = none :=
      InRoles.find?_eq_none_of_notMem fun hmem => absurd (hfront.order.subset hmem) (by decide)
    rw [Node.child?, hchildren, List.find?_append, hnone, Option.none_or]
    cases hc : back.find? (·.field == some Field.right) with
    | none => exact List.nil_sublist _
    | some c => exact List.singleton_sublist.2 (List.mem_of_find?_eq_some hc)
  rw [List.flatMap_append, walked_map _ fun _ => rfl, walked_map _ fun _ => rfl,
    ← List.flatMap_append]
  refine Node.flatMap_walked_sublist ?_
  rw [Node.walkedChildren_of_ne (by rw [hkind]; decide), hchildren]
  exact hleft.append hright

/-! ## One step -/

/-- Where the task goes into a clause, it is one of a comprehension. -/
def Task.Apt : Task → Prop
  | .clause _ n => n.kind = .forInClause
  | .visit .. | .bind .. | .enter .. | .parameter .. | .declare .. | .wildcard .. => True

theorem Leaves.apt {x : Extraction} {t u : Task} (h : Leaves x t u) : u.Apt := by
  cases h with
  | clause _ hkind => exact hkind
  | _ => trivial

/-- The tasks that a task leaves behind come to names of its own, in the order of the walk. -/
theorem walked_expand (src : Source) {t : Task} (ht : t.Within Node.WellMade)
    (hapt : t.Apt) (x : Extraction) :
    ((expand src t x).1.flatMap Task.walked).Sublist t.walked := by
  cases t with
  | visit scope n => exact walked_visitTasks (Node.Everywhere.here ht).arranged
  | bind scope n => exact walked_bindTasks scope n
  | enter outer n =>
    rw [expand]
    split
    · rw [walked_innerTasks]
      exact .refl _
    · exact List.nil_sublist _
  | parameter outer inner n => exact walked_parameterTasks outer inner ht
  | clause scope n => exact walked_clauseTasks (Node.Everywhere.here ht).arranged hapt
  | declare | wildcard => exact List.nil_sublist _

/-! ## The whole walk -/

/-- What a file declares are names of its tree, in the order of the walk. -/
theorem declares_walked (src : Source) {root : Node} (h : root.Everywhere Node.WellMade)
    (hmodule : root.kind ≠ .functionDefinition) :
    ∃ ns, Declares src .empty (ofTree src root) ns ∧ ns.Sublist root.walked := by
  let T (t : Task) : Prop := t.Within Node.WellMade ∧ t.Apt ∧ t.Names
  have hkind : ∀ t x, T t → ∀ u ∈ (expand src t x).1, T u := by
    intro t x ht u hu
    have hleaves := leaves_of_mem_expand hu
    have hbinds : t.Within Node.BindsNames := ht.1.imp fun c hc => hc.here.binds
    exact ⟨within_expand ht.1 x u hu, hleaves.apt, hleaves.names hbinds⟩
  have hsplit : ∀ t x, T t → ((expand src t x).1.flatMap Task.walked).Sublist t.walked :=
    fun t x ht => walked_expand src ht.1 ht.2.1 x
  have hname : ∀ scope kind n, T (.declare scope kind n) →
      [n].Sublist (Task.declare scope kind n).walked := fun scope kind n ht =>
    Node.singleton_sublist_walked ht.2.2
  have hroot : ∀ n ∈ root.namedChildren, T (.visit 0 n) := fun n hn =>
    ⟨h.of_below (Node.below_of_mem_namedChildren hn), trivial, trivial⟩
  obtain ⟨ns, hns, hsub⟩ := declares_ofTree splitting_sublist hkind hsplit hname hroot
  rw [walked_map _ fun _ => rfl] at hsub
  exact ⟨ns, hns, hsub.trans (Node.flatMap_namedChildren_walked_sublist hmodule)⟩

end Extraction

end CrossRef
