/-
  CrossRef.Proofs.Extraction.Sites

  Where the parts of a task are. A task is about one node, or about the parts
  by which a construct is entered (`Task.nodes`). What it splits into is about
  different children of its node, or about the node as a whole (`Node.Parts`),
  so the parts do not get in each other's way: in a tree whose spans nest they
  are apart (`apart_expand`), and each of them lies where the task does
  (`exists_site_of_mem_expand`).
-/
import CrossRef.Proofs.Extraction.Wildcards
import CrossRef.Proofs.Syntax.Nesting
import Mathlib.Data.List.Flatten
import Mathlib.Data.List.Nodup

namespace CrossRef

open CrossRef.Syntax

/-! ## Parts of a node -/

namespace Syntax.Node

variable {n : Node}

theorem namedChildren_sublist (n : Node) : n.namedChildren.Sublist n.children :=
  List.filter_sublist

/-- What is in different roles are different children. -/
theorem roles_subperm (n : Node) {fs : List Field} (hfs : fs.Nodup) :
    (fs.filterMap n.child?).Subperm n.children := by
  apply List.subperm_of_subset
  · refine List.Nodup.filterMap (fun f g c hf hg => ?_) hfs
    have hfield := (field_of_child? hf).symm.trans (field_of_child? hg)
    exact Option.some.inj hfield
  · intro c hc
    obtain ⟨f, -, hf⟩ := List.mem_filterMap.1 hc
    exact mem_children_of_child? hf

/-- The child in a role and the children in no such role are different ones. -/
theorem target_and_others_subperm (n : Node) (f : Field) :
    ((n.child? f).toList ++ n.namedChildren.filter fun c => c.field != some f).Subperm
      n.children := by
  have htarget : (n.child? f).toList.Sublist (n.children.filter (·.field == some f)) := by
    rw [Node.child?, ← List.head?_filter, ← List.take_one]
    exact List.take_sublist _ _
  have hothers : (n.namedChildren.filter fun c => c.field != some f).Sublist
      (n.children.filter fun c => !(c.field == some f)) :=
    n.namedChildren_sublist.filter _
  exact (htarget.append hothers).subperm.trans (List.filter_append_perm _ _).subperm

/-- The nodes are different children of `n`, or the node `n` alone. -/
def Parts (n : Node) (ns : List Node) : Prop := ns = [n] ∨ ns.Subperm n.children

theorem Parts.has {ns : List Node} (h : n.Parts ns) : ∀ c ∈ ns, n.Has c := by
  intro c hc
  rcases h with rfl | h
  · exact .inl (List.mem_singleton.1 hc)
  · exact has_of_mem_children (h.subset hc)

theorem Parts.pairwise_apart {m : SourceMap} {ns : List Node} (h : n.Parts ns)
    (hn : n.Nested m) : ns.Pairwise (Apart m) := by
  rcases h with rfl | h
  · exact List.pairwise_singleton _ _
  · exact hn.pairwise_apart h

theorem parts_roles (n : Node) (fs : List Field) (hfs : fs.Nodup) :
    n.Parts (fs.filterMap n.child?) := .inr (n.roles_subperm hfs)

theorem parts_nil (n : Node) : n.Parts [] := .inr List.nil_subperm

/-- What is in one role is apart from what is in another. -/
theorem Nested.apart_of_child? {m : SourceMap} {a b : Node} {f g : Field} (h : n.Nested m)
    (hfg : f ≠ g) (ha : n.child? f = some a) (hb : n.child? g = some b) : a.Apart m b := by
  have hroles := h.pairwise_apart (n.roles_subperm (show [f, g].Nodup by simpa using hfg))
  simpa [List.filterMap_cons, ha, hb] using hroles

end Syntax.Node

namespace Extraction

/-! ## What tasks are about -/

/-- The parts by which a construct is entered: parameters and body, or the
    whole of a comprehension. -/
def entered (n : Node) : List Node :=
  match n.kind with
  | .functionDefinition | .lambda | .classDefinition =>
    [Field.parameters, .body].filterMap n.child?
  | _ => [n]

/-- What is gone into when a construct is entered. -/
def innerNodes (n : Node) : List Node :=
  let inside (f : Field) := (n.child? f).toList.flatMap (·.namedChildren)
  match n.kind with
  | .functionDefinition => inside .parameters ++ inside .body
  | .lambda => inside .parameters ++ (n.child? .body).toList
  | .classDefinition => inside .body
  | _ => n.namedChildren

/-- The nodes in which a task may open scopes. -/
def Task.sites : Task → List Node
  | .visit _ n | .bind _ n | .parameter _ _ n | .clause _ n => [n]
  | .enter _ n => entered n
  | .declare .. | .wildcard .. => []

/-- The nodes that a task is about. -/
def Task.nodes : Task → List Node
  | .declare _ _ n => [n]
  | t => t.sites

/-- The scope that a task is done in. Parameters are gone into from outside. -/
def Task.home : Task → ScopeId
  | .visit scope _ | .bind scope _ | .clause scope _ | .declare scope _ _
  | .wildcard scope _ => scope
  | .enter outer _ | .parameter outer _ _ => outer

variable {src : Source} {scope outer inner : ScopeId} {n : Node}

/-- Tasks about one node each are about these nodes. -/
theorem nodes_map (ns : List Node) {g : Node → Task} (hg : ∀ c, (g c).nodes = [c]) :
    (ns.map g).flatMap Task.nodes = ns := by
  rw [List.flatMap_map, List.flatMap_congr fun c _ => hg c, List.flatMap_singleton']

theorem Task.sites_sublist_nodes (t : Task) : t.sites.Sublist t.nodes := by
  cases t with
  | declare => exact List.nil_sublist _
  | visit | bind | enter | parameter | clause | wildcard => exact .refl _

/-- The constructs with parameters and a body. -/
def HasBody (n : Node) : Prop :=
  n.kind = .functionDefinition ∨ n.kind = .lambda ∨ n.kind = .classDefinition

theorem entered_of_hasBody (h : HasBody n) :
    entered n = (n.child? .parameters).toList ++ (n.child? .body).toList := by
  have hroles : entered n = [Field.parameters, .body].filterMap n.child? := by
    rcases h with h | h | h
    all_goals rw [entered, h]
  rw [hroles, List.filterMap_eq_flatMap_toList, List.flatMap_cons, List.flatMap_singleton]

theorem nodes_enter (h : HasBody n) : (Task.enter scope n).nodes =
    (n.child? .parameters).toList ++ (n.child? .body).toList :=
  entered_of_hasBody h

theorem entered_of_not_hasBody (h : ¬ HasBody n) : entered n = [n] := by
  unfold entered
  split
  · exact absurd (.inl ‹_›) h
  · exact absurd (.inr (.inl ‹_›)) h
  · exact absurd (.inr (.inr ‹_›)) h
  · rfl

/-- In constructs without a body all children are gone into. -/
theorem innerNodes_of_not_hasBody (h : ¬ HasBody n) : innerNodes n = n.namedChildren := by
  unfold innerNodes
  split
  · exact absurd (.inl ‹_›) h
  · exact absurd (.inr (.inl ‹_›)) h
  · exact absurd (.inr (.inr ‹_›)) h
  · rfl

theorem parts_entered (n : Node) : n.Parts (entered n) := by
  by_cases h : HasBody n
  · have hroles := n.parts_roles [.parameters, .body] (by decide)
    rwa [List.filterMap_eq_flatMap_toList, List.flatMap_cons, List.flatMap_singleton,
      ← entered_of_hasBody h] at hroles
  · rw [entered_of_not_hasBody h]
    exact .inl rfl

/-- What entering a construct leaves to do is about what is gone into. -/
theorem flatMap_innerTasks {α : Type} {f : Task → List α} {g : Node → List α}
    (hvisit : ∀ s c, f (.visit s c) = g c) (hparameter : ∀ s i c, f (.parameter s i c) = g c)
    (hclause : ∀ s c, f (.clause s c) = g c) (outer inner : ScopeId) (n : Node) :
    (innerTasks outer inner n).flatMap f = (innerNodes n).flatMap g := by
  have below (role : Field) (t : Node → Task) (ht : ∀ c, f (t c) = g c) :
      ((n.child? role).toList.flatMap fun b => b.namedChildren.map t).flatMap f =
        ((n.child? role).toList.flatMap (·.namedChildren)).flatMap g := by
    rw [List.flatMap_assoc, List.flatMap_assoc]
    refine List.flatMap_congr fun b _ => ?_
    rw [List.flatMap_map]
    exact List.flatMap_congr fun c _ => ht c
  have hparameters := below .parameters (Task.parameter outer inner) (hparameter outer inner)
  have hbody := below .body (Task.visit inner) (hvisit inner)
  unfold innerTasks
  split
  · rename_i hkind
    rw [innerNodes, hkind]
    simp only [List.flatMap_append, hparameters, hbody]
  · rename_i hkind
    rw [innerNodes, hkind]
    simp only [List.flatMap_append, hparameters, List.flatMap_map, hvisit]
  · rename_i hkind
    rw [innerNodes, hkind]
    exact hbody
  · rename_i hfunction hlambda hclass
    rw [innerNodes_of_not_hasBody (not_or.2 ⟨hfunction, not_or.2 ⟨hlambda, hclass⟩⟩),
      List.flatMap_map]
    refine List.flatMap_congr fun c _ => ?_
    split
    · exact hclause inner c
    · exact hvisit inner c

/-! ## Tasks share out their node -/

theorem nodes_asPatternTasks (scope : ScopeId) (ns : List Node) :
    ((asPatternTasks scope ns).flatMap Task.nodes).Sublist ns := by
  induction ns with
  | nil => exact .refl _
  | cons c cs ih =>
    rw [asPatternTasks, List.filterMap_cons]
    split
    · exact ih.trans (List.sublist_cons_self _ _)
    · rename_i t ht
      have hnodes : t.nodes = [c] := by
        split at ht
        · cases ht
          rfl
        · split at ht
          · cases ht
            rfl
          · cases ht
      rw [List.flatMap_cons, hnodes]
      exact ih.cons_cons c

theorem nodes_exceptTasks (scope : ScopeId) (afterAs : Bool) (ns : List Node) :
    ((exceptTasks scope afterAs ns).flatMap Task.nodes).Sublist ns := by
  induction ns generalizing afterAs with
  | nil => exact .refl _
  | cons c cs ih =>
    rw [exceptTasks]
    split
    · exact (ih _).trans (List.sublist_cons_self _ _)
    · rw [List.flatMap_cons]
      split
      · exact (ih _).cons_cons c
      · exact (ih _).cons_cons c

/-- The constructs that open a scope over the whole of themselves. -/
def comprehensions : List Kind :=
  [.listComprehension, .setComprehension, .dictionaryComprehension, .generatorExpression]

theorem not_hasBody_of_comprehension (h : n.kind ∈ comprehensions) : ¬ HasBody n := by
  rintro (hkind | hkind | hkind)
  all_goals
    rw [hkind] at h
    exact absurd h (by decide)

theorem visitTasks_of_comprehension (h : n.kind ∈ comprehensions) :
    visitTasks scope n = [.enter scope n] := by
  simp only [comprehensions, List.mem_cons, List.not_mem_nil, or_false] at h
  rcases h with h | h | h | h
  all_goals rw [visitTasks, h]

/-- Where a construct is not gone into as a whole, visiting it is about different
    children of it. -/
theorem nodes_visitTasks_subperm (scope : ScopeId) (hwhole : n.kind ∉ comprehensions) :
    ((visitTasks scope n).flatMap Task.nodes).Subperm n.children := by
  have visited (ns : List Node) : (ns.map (Task.visit scope)).flatMap Task.nodes = ns :=
    nodes_map ns fun _ => rfl
  have targets (ns : List Node) : (ns.map (Task.bind scope)).flatMap Task.nodes = ns :=
    nodes_map ns fun _ => rfl
  have named (kind : DeclarationKind) (ns : List Node) :
      (ns.map (Task.declare scope kind)).flatMap Task.nodes = ns :=
    nodes_map ns fun _ => rfl
  have roles (fs : List Field) (hfs : fs.Nodup) :
      (fs.flatMap fun f => (n.child? f).toList).Subperm n.children :=
    List.filterMap_eq_flatMap_toList n.child? fs ▸ n.roles_subperm hfs
  unfold visitTasks
  split
  -- definitions: what they are entered by comes behind what is around it
  case h_1 hkind =>
    have hall := roles [.name, .returnType, .parameters, .body] (by decide)
    simp only [List.flatMap_append, named, visited]
    rw [List.flatMap_singleton, nodes_enter (.inl hkind)]
    simpa only [List.flatMap_cons, List.flatMap_nil, List.append_nil, List.append_assoc] using hall
  case h_2 hkind =>
    have hall := roles [.name, .superclasses, .parameters, .body] (by decide)
    simp only [List.flatMap_append, named, visited]
    rw [List.flatMap_singleton, nodes_enter (.inr (.inr hkind))]
    simpa only [List.flatMap_cons, List.flatMap_nil, List.append_nil, List.append_assoc] using hall
  case h_3 hkind =>
    have hall := roles [.parameters, .body] (by decide)
    rw [List.flatMap_singleton, nodes_enter (.inr (.inl hkind))]
    simpa only [List.flatMap_cons, List.flatMap_nil, List.append_nil] using hall
  case h_4 hkind | h_5 hkind | h_6 hkind | h_7 hkind =>
    exact absurd (by rw [hkind]; decide) hwhole
  case h_8 =>
    have hall := roles [.left, .type, .right] (by decide)
    simp only [List.flatMap_append, targets, visited]
    simpa only [List.flatMap_cons, List.flatMap_nil, List.append_nil, List.append_assoc] using hall
  case h_9 =>
    simp only [List.flatMap_append, targets, visited]
    exact n.target_and_others_subperm .left
  case h_10 => exact (nodes_asPatternTasks scope n.children).subperm
  case h_11 => exact (nodes_exceptTasks scope false n.children).subperm
  case h_12 =>
    have hall := roles [.name, .value] (by decide)
    simp only [List.flatMap_append, named, visited]
    simpa only [List.flatMap_cons, List.flatMap_nil, List.append_nil] using hall
  case h_13 =>
    have hall := roles [.alias] (by decide)
    rw [List.flatMap_singleton] at hall
    rwa [named]
  case h_14 =>
    rw [List.flatMap_append, visited, List.flatMap_singleton]
    show (_ ++ []).Subperm _
    rw [List.append_nil]
    exact (List.filter_sublist.trans n.namedChildren_sublist).subperm
  case h_15 | h_16 | h_17 => exact List.nil_subperm
  case h_18 =>
    rw [visited]
    exact n.namedChildren_sublist.subperm

theorem parts_visitTasks (scope : ScopeId) (n : Node) :
    n.Parts ((visitTasks scope n).flatMap Task.nodes) := by
  by_cases hwhole : n.kind ∈ comprehensions
  · rw [visitTasks_of_comprehension hwhole, List.flatMap_singleton]
    exact parts_entered n
  · exact .inr (nodes_visitTasks_subperm scope hwhole)

theorem parts_bindTasks (scope : ScopeId) (n : Node) :
    n.Parts ((bindTasks scope n).flatMap Task.nodes) := by
  unfold bindTasks
  split
  · exact .inl rfl
  · split
    · exact .inl rfl
    · split
      · rw [nodes_map _ fun _ => rfl]
        exact .inr n.namedChildren_sublist.subperm
      · exact .inl rfl

theorem parts_clauseTasks (scope : ScopeId) (n : Node) :
    n.Parts (((n.child? .left).toList.map (Task.bind scope) ++
      (n.child? .right).toList.map (Task.visit scope)).flatMap Task.nodes) := by
  have hroles := n.parts_roles [.left, .right] (by decide)
  rw [List.filterMap_eq_flatMap_toList, List.flatMap_cons, List.flatMap_singleton] at hroles
  rwa [List.flatMap_append, nodes_map _ fun _ => rfl, nodes_map _ fun _ => rfl]

theorem sites_parameterTasks (src : Source) (outer inner : ScopeId) (n : Node) :
    (parameterTasks src outer inner n).flatMap Task.sites = parameterCode n := by
  have hnames (ns : List Node) :
      (ns.map (Task.declare inner .variable)).flatMap Task.sites = [] := by
    rw [List.flatMap_map]
    exact List.flatMap_eq_nil_iff.2 fun c _ => rfl
  rw [parameterTasks, List.flatMap_append, hnames, List.nil_append, List.flatMap_map]
  exact List.flatMap_singleton' _

theorem parts_parameterCode (n : Node) : n.Parts (parameterCode n) := by
  have hboth := n.parts_roles [.type, .value] (by decide)
  have htype := n.parts_roles [.type] (by decide)
  rw [List.filterMap_eq_flatMap_toList, List.flatMap_cons, List.flatMap_singleton] at hboth
  rw [List.filterMap_eq_flatMap_toList, List.flatMap_singleton] at htype
  unfold parameterCode
  split
  · exact htype
  · exact hboth
  · exact hboth
  · exact n.parts_nil

/-! ## What is gone into -/

theorem sites_innerTasks (outer inner : ScopeId) (n : Node) :
    (innerTasks outer inner n).flatMap Task.sites = innerNodes n := by
  rw [flatMap_innerTasks (g := fun c => [c]) (fun _ _ => rfl) (fun _ _ _ => rfl) fun _ _ => rfl]
  exact List.flatMap_singleton' _

/-- A scope is opened over the body, or over a construct without one as a whole. -/
theorem opened?_cases {kind : ScopeKind} {body : Node} (h : opened? n = some (kind, body)) :
    (HasBody n ∧ n.child? .body = some body) ∨ (¬ HasBody n ∧ body = n) := by
  have bodied {k : ScopeKind}
      (h : (n.child? .body).map (fun b => (k, b)) = some (kind, body)) :
      n.child? .body = some body := by
    obtain ⟨b, hb, heq⟩ := Option.map_eq_some_iff.1 h
    cases heq
    exact hb
  have whole (hn : ¬ HasBody n)
      (h : some (ScopeKind.function, n) = some (kind, body)) :
      (HasBody n ∧ n.child? .body = some body) ∨ (¬ HasBody n ∧ body = n) := by
    cases h
    exact .inr ⟨hn, rfl⟩
  unfold opened? at h
  split at h
  case h_1 hkind => exact .inl ⟨.inl hkind, bodied h⟩
  case h_2 hkind => exact .inl ⟨.inr (.inl hkind), bodied h⟩
  case h_3 hkind => exact .inl ⟨.inr (.inr hkind), bodied h⟩
  case h_4 hkind | h_5 hkind | h_6 hkind | h_7 hkind =>
    refine whole ?_ h
    rw [HasBody, hkind]
    decide
  case h_8 => cases h

theorem mem_entered_of_opened? {kind : ScopeKind} {body : Node}
    (h : opened? n = some (kind, body)) : body ∈ entered n := by
  rcases opened?_cases h with ⟨hn, hbody⟩ | ⟨hn, rfl⟩
  · rw [entered_of_hasBody hn, hbody]
    exact List.mem_append_right _ List.mem_cons_self
  · rw [entered_of_not_hasBody hn]
    exact List.mem_cons_self

/-- What is left to do in a construct is in its body and done in the scope over
    it, or is in its parameters and done outside. -/
theorem innerTasks_cases {kind : ScopeKind} {body : Node} (h : opened? n = some (kind, body)) :
    ∀ t ∈ innerTasks outer inner n,
      (t.home = inner ∧ ∀ r ∈ t.sites, body.Has r) ∨
      (t.home = outer ∧ ∃ ps ∈ entered n, n.child? .parameters = some ps ∧
        n.child? .body = some body ∧ ∀ r ∈ t.sites, ps.Has r) := by
  have parameters (hn : HasBody n) (hbody : n.child? .body = some body) :
      ∀ t ∈ (n.child? .parameters).toList.flatMap
        (fun ps => ps.namedChildren.map (Task.parameter outer inner)),
        t.home = outer ∧ ∃ ps ∈ entered n, n.child? .parameters = some ps ∧
          n.child? .body = some body ∧ ∀ r ∈ t.sites, ps.Has r := by
    intro t ht
    obtain ⟨ps, hps, ht⟩ := List.mem_flatMap.1 ht
    obtain ⟨c, hc, rfl⟩ := List.mem_map.1 ht
    refine ⟨rfl, ps, ?_, Option.mem_toList.1 hps, hbody,
      List.forall_mem_singleton.2 (.inr (Node.below_of_mem_namedChildren hc))⟩
    rw [entered_of_hasBody hn]
    exact List.mem_append_left _ hps
  have inside (hbody : n.child? .body = some body) :
      ∀ t ∈ (n.child? .body).toList.flatMap (fun b => b.namedChildren.map (Task.visit inner)),
        t.home = inner ∧ ∀ r ∈ t.sites, body.Has r := by
    intro t ht
    rw [hbody, Option.toList_some, List.flatMap_singleton] at ht
    obtain ⟨c, hc, rfl⟩ := List.mem_map.1 ht
    exact ⟨rfl, List.forall_mem_singleton.2 (.inr (Node.below_of_mem_namedChildren hc))⟩
  intro t ht
  rcases opened?_cases h with ⟨hn, hbody⟩ | ⟨hn, rfl⟩
  · unfold innerTasks at ht
    split at ht
    · exact (List.mem_append.1 ht).elim (fun ht => .inr (parameters hn hbody t ht))
        fun ht => .inl (inside hbody t ht)
    · rcases List.mem_append.1 ht with ht | ht
      · exact .inr (parameters hn hbody t ht)
      · -- the body of a lambda is visited itself
        rw [hbody] at ht
        cases List.mem_singleton.1 ht
        exact .inl ⟨rfl, List.forall_mem_singleton.2 body.has_self⟩
    · exact .inl (inside hbody t ht)
    · rename_i hfunction hlambda hclass
      exact absurd hn (not_or.2 ⟨hfunction, not_or.2 ⟨hlambda, hclass⟩⟩)
  · unfold innerTasks at ht
    split at ht
    · exact absurd (.inl ‹_›) hn
    · exact absurd (.inr (.inl ‹_›)) hn
    · exact absurd (.inr (.inr ‹_›)) hn
    · obtain ⟨c, hc, rfl⟩ := List.mem_map.1 ht
      have hhas : ∀ r ∈ [c], body.Has r :=
        List.forall_mem_singleton.2 (.inr (Node.below_of_mem_namedChildren hc))
      split
      · exact .inl ⟨rfl, hhas⟩
      · exact .inl ⟨rfl, hhas⟩

section

variable {m : SourceMap} (h : n.Everywhere (Node.Nested m))
include h

/-- What is gone into is apart. -/
theorem apart_innerNodes : (innerNodes n).Pairwise (Node.Apart m) := by
  have children {b : Node} (hb : n.Has b) : b.namedChildren.Pairwise (Node.Apart m) :=
    (h.of_has hb).here.pairwise_apart b.namedChildren_sublist.subperm
  have within (f : Field) :
      ((n.child? f).toList.flatMap (·.namedChildren)).Pairwise (Node.Apart m) := by
    cases hb : n.child? f with
    | none => exact .nil
    | some b =>
      rw [Option.toList_some, List.flatMap_singleton]
      exact children (.inr (Node.below_of_child? hb))
  have between {c d : Node} (hc : c ∈ (n.child? .parameters).toList.flatMap (·.namedChildren))
      (hd : ∃ b ∈ (n.child? .body).toList, b.Has d) : c.Apart m d := by
    obtain ⟨ps, hps, hc⟩ := List.mem_flatMap.1 hc
    obtain ⟨b, hb, hd⟩ := hd
    have hps := Option.mem_toList.1 hps
    have hb := Option.mem_toList.1 hb
    have hapart : ps.Apart m b := h.here.apart_of_child? (by decide) hps hb
    exact hapart.of_has (h.of_below (Node.below_of_child? hps))
      (h.of_below (Node.below_of_child? hb)) (.inr (Node.below_of_mem_namedChildren hc)) hd
  unfold innerNodes
  split
  · refine List.pairwise_append.2 ⟨within _, within _, fun c hc d hd => between hc ?_⟩
    obtain ⟨b, hb, hd⟩ := List.mem_flatMap.1 hd
    exact ⟨b, hb, .inr (Node.below_of_mem_namedChildren hd)⟩
  · refine List.pairwise_append.2 ⟨within _, ?_, fun c hc d hd => between hc ⟨d, hd, d.has_self⟩⟩
    cases n.child? .body with
    | none => exact .nil
    | some b => exact List.pairwise_singleton _ _
  · exact within _
  · exact children n.has_self

end

/-! ## What tasks split into -/

section

variable {x : Extraction} {t u : Task}

theorem Task.Within.of_mem_sites {P : Node → Prop} (h : t.Within P) {r : Node}
    (hr : r ∈ t.sites) : r.Everywhere P := by
  cases t with
  | visit | bind | parameter | clause =>
    rw [List.mem_singleton.1 hr]
    exact h
  | enter outer n => exact Node.Everywhere.of_has h ((parts_entered n).has r hr)
  | declare | wildcard => cases hr

theorem Task.Within.imp {P Q : Node → Prop} (hPQ : ∀ c, c.Everywhere P → Q c)
    (h : t.Within P) : t.Within Q := by
  cases t with
  | visit | bind | enter | parameter | clause | declare => exact Node.Everywhere.imp hPQ h
  | wildcard => exact ⟨h.1.imp hPQ, h.2⟩

/-- Only entering a construct leads to another scope. -/
theorem Leaves.home_eq (h : Leaves x t u) (ht : ∀ outer n, t ≠ .enter outer n)
    (hu : u.sites ≠ []) : u.home = t.home := by
  cases h with
  | parameter | clause | inside => exact absurd rfl (ht _ _)
  | parameterName => exact absurd rfl hu
  | _ => rfl

theorem Leaves.exists_site (h : Leaves x t u) (ht : ∀ outer n, t ≠ .enter outer n) :
    ∀ r ∈ u.sites, ∃ a ∈ t.sites, a.Has r := by
  intro r hr
  cases h with
  | parameter | clause | inside => exact absurd rfl (ht _ _)
  | construct => exact ⟨_, List.mem_cons_self, (parts_entered _).has r hr⟩
  | code =>
    rw [List.mem_singleton.1 hr]
    exact ⟨_, List.mem_cons_self, Node.has_self _⟩
  | visit hc | target hc | member hc | parameterCode hc | clauseTarget hc | clauseSource hc =>
    rw [List.mem_singleton.1 hr]
    exact ⟨_, List.mem_cons_self, .inr hc⟩
  | named | renamed | caught | wildcard | bound | boundWhole | parameterName => cases hr

/-- What a task splits into lies where the task does. -/
theorem exists_site_of_mem_expand {src : Source} (hu : u ∈ (expand src t x).1) :
    ∀ r ∈ u.sites, ∃ a ∈ t.sites, a.Has r := by
  cases t with
  | enter outer n =>
    rw [expand] at hu
    split at hu
    · rename_i kind body hopened
      intro r hr
      rcases innerTasks_cases hopened u hu with ⟨-, hhas⟩ | ⟨-, ps, hps, -, -, hhas⟩
      · exact ⟨body, mem_entered_of_opened? hopened, hhas r hr⟩
      · exact ⟨ps, hps, hhas r hr⟩
    · cases hu
  | visit | bind | parameter | clause | declare | wildcard =>
    exact (leaves_of_mem_expand hu).exists_site fun _ _ h => by cases h

variable {m : SourceMap}

/-- Where the one task opens scopes, the other does not. -/
def Task.Apart (m : SourceMap) (t u : Task) : Prop :=
  ∀ a ∈ t.sites, ∀ b ∈ u.sites, a.Apart m b

/-- The parts that a task splits into do not get in each other's way. -/
theorem apart_expand {src : Source} (h : t.Within (Node.Nested m)) (x : Extraction) :
    (expand src t x).1.Pairwise (Task.Apart m) := by
  have shared {n : Node} {ts : List Task} (hn : n.Nested m)
      (hts : n.Parts (ts.flatMap Task.nodes)) : (ts.flatMap Task.sites).Pairwise (Node.Apart m) :=
    (hts.pairwise_apart hn).sublist
      (List.Sublist.flatMap_right _ fun t _ => t.sites_sublist_nodes)
  have hsites : ((expand src t x).1.flatMap Task.sites).Pairwise (Node.Apart m) := by
    cases t with
    | visit scope n => exact shared (Node.Everywhere.here h) (parts_visitTasks scope n)
    | bind scope n => exact shared (Node.Everywhere.here h) (parts_bindTasks scope n)
    | enter outer n =>
      rw [expand]
      split
      · rw [sites_innerTasks]
        exact apart_innerNodes h
      · exact .nil
    | parameter outer inner n =>
      rw [expand, sites_parameterTasks]
      exact (parts_parameterCode n).pairwise_apart (Node.Everywhere.here h)
    | clause scope n => exact shared (Node.Everywhere.here h) (parts_clauseTasks scope n)
    | declare | wildcard => exact .nil
  exact (List.pairwise_flatMap.1 hsites).2

end

end Extraction

end CrossRef
