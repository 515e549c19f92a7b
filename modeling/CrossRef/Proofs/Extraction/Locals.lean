/-
  CrossRef.Proofs.Extraction.Locals

  What parameters and the targets of comprehensions come to. The search for
  usages and the walk that declares names go their own ways through a tree. On
  the common part of the ways (`Node.Follows`) the walk comes to every construct
  that binds names in a scope of its own (`Covers.enters`), and declares each of
  these names there, so that it is not a usage where it stands
  (`locals_declared`). Names behind stars are bound where they come first.
-/
import CrossRef.Proofs.Extraction.Bindings
import CrossRef.Proofs.Extraction.Reach
import CrossRef.Proofs.Extraction.SourceOrder
import CrossRef.Proofs.Usages.Exact

namespace CrossRef

open CrossRef.Syntax CrossRef.Extraction

/-! ## Names in scopes of their own -/

theorem Extraction.opened?_of_comprehension {n : Node} (h : n.kind ∈ comprehensions) :
    opened? n = some (.function, n) := by
  simp only [comprehensions, List.mem_cons, List.not_mem_nil, or_false] at h
  rcases h with h | h | h | h
  all_goals simp only [opened?, h]

namespace Syntax.Node

/-- The parameters with an annotation or a default. -/
def extendedParameters : List Kind :=
  [.typedParameter, .defaultParameter, .typedDefaultParameter]

/-- `x` is the name of the parameter. Behind stars it comes first. -/
inductive ParameterName (p : Node) : Node → Prop where
  | plain : p.kind = .identifier → ParameterName p p
  | starred {x : Node} : p.kind.isSplatPattern = true → p.namedChildren.head? = some x →
      x.kind = .identifier → ParameterName p x
  | typed {x : Node} : p.kind = .typedParameter → p.namedChildren.head? = some x →
      x.kind = .identifier → ParameterName p x
  | typedStarred {s x : Node} : p.kind = .typedParameter → p.namedChildren.head? = some s →
      s.kind.isSplatPattern = true → s.namedChildren.head? = some x → x.kind = .identifier →
      ParameterName p x
  | default {x : Node} : p.kind = .defaultParameter ∨ p.kind = .typedDefaultParameter →
      p.child? .name = some x → x.kind = .identifier → ParameterName p x

/-- The target binds the name `x`, alone or as a member of a group. -/
inductive TargetName : Node → Node → Prop where
  | name {x : Node} : x.kind = .identifier → TargetName x x
  | member {t c x : Node} : t.kind.isTargetGroup = true → c ∈ t.children → TargetName c x →
      TargetName t x

/-- The construct binds the name in a scope of its own: a function or a lambda
    with a body its parameters, but for the customary first names, and a
    comprehension its targets. -/
inductive Binds (m : SourceMap) (n : Node) : Node → Prop where
  | parameter {b ps p x : Node} : n.kind = .functionDefinition ∨ n.kind = .lambda →
      n.child? .body = some b → n.child? .parameters = some ps → p ∈ ps.children →
      p.ParameterName x → Reserved.isImplicitParameter (m.text x) = false → Binds m n x
  | target {c t x : Node} : n.kind ∈ comprehensions → c ∈ n.children → c.kind = .forInClause →
      c.child? .left = some t → t.TargetName x → Binds m n x

/-- Usages in `n` are looked for in `c`, and it is none of the code in which
    bindings are not: type parameters, the parameters of a function without a
    body, what is in the name of a parameter, and all that a clause goes over
    but the first. -/
structure Follows (n c : Node) : Prop where
  leads : Usages.Leads n c
  noTypeParameter : c.field ≠ some .typeParameters
  hasBody : c.field = some .parameters → (n.child? .body).isSome = true
  extended : n.field = some .parameters → c.kind ∈ extendedParameters
  annotation : n.kind ∈ extendedParameters →
    n.child? .type = some c ∨ (n.kind ≠ .typedParameter ∧ n.child? .value = some c)
  source : n.kind = .forInClause → c.field = some .right → n.child? .right = some c

end Syntax.Node

/-- Groups of targets are constructs, and other ones than those that are gone into
    in a way of their own. -/
theorem Syntax.Kind.of_isTargetGroup {k : Kind} (h : k.isTargetGroup = true) :
    k.isNamed = true ∧ k ≠ .identifier ∧ k ≠ .asPatternTarget ∧ k ≠ .importFromStatement := by
  unfold isTargetGroup at h
  split at h
  case h_10 => cases h
  all_goals decide

namespace Syntax.Node

variable {m : SourceMap} {n c x : Node}

theorem ParameterName.parameterName?_eq {p : Node} (h : p.ParameterName x) :
    parameterName? p = some x ∧ x.kind = .identifier := by
  cases h with
  | plain hkind => exact ⟨by simp only [parameterName?, hkind], hkind⟩
  | starred hkind hhead hx =>
    refine ⟨?_, hx⟩
    rcases Kind.eq_of_isSplatPattern hkind with hkind | hkind
    all_goals simpa only [parameterName?, hkind] using hhead
  | typed hkind hhead hx =>
    refine ⟨?_, hx⟩
    simp [parameterName?, hkind, hhead, hx, Kind.isSplatPattern]
  | typedStarred hkind hhead hsplat hhead' hx =>
    refine ⟨?_, hx⟩
    simp only [parameterName?, hkind, hhead, hsplat, hhead', if_true]
  | default hkind hname hx =>
    refine ⟨?_, hx⟩
    rcases hkind with hkind | hkind
    all_goals simpa only [parameterName?, hkind] using hname

theorem ParameterName.isNamed {p : Node} (h : p.ParameterName x) : p.isNamed = true := by
  rw [Node.isNamed]
  cases h with
  | plain hkind | typed hkind | typedStarred hkind =>
    rw [hkind]
    rfl
  | starred hkind =>
    rcases Kind.eq_of_isSplatPattern hkind with hkind | hkind
    all_goals
      rw [hkind]
      rfl
  | default hkind =>
    rcases hkind with hkind | hkind
    all_goals
      rw [hkind]
      rfl

theorem TargetName.isNamed {t : Node} (h : t.TargetName x) : t.isNamed = true := by
  rw [Node.isNamed]
  cases h with
  | name hkind =>
    rw [hkind]
    rfl
  | member hgroup => exact (Kind.of_isTargetGroup hgroup).1

theorem TargetName.identifier {t : Node} (h : t.TargetName x) : x.kind = .identifier := by
  induction h with
  | name hkind => exact hkind
  | member _ _ _ ih => exact ih

theorem TargetName.has {t : Node} (h : t.TargetName x) : t.Has x := by
  induction h with
  | name => exact has_self _
  | member _ hc _ ih => exact (has_of_mem_children hc).trans ih

namespace Binds

theorem identifier (h : n.Binds m x) : x.kind = .identifier := by
  cases h with
  | parameter _ _ _ _ hname => exact hname.parameterName?_eq.2
  | target _ _ _ _ hname => exact hname.identifier

theorem has (h : n.Binds m x) : n.Has x := by
  cases h with
  | parameter _ _ hps hp hname =>
    refine .trans (.inr (.further (below_of_child? hps) hp)) ?_
    exact below_of_parameterName? hname.parameterName?_eq.1
  | target _ hc _ ht hname =>
    exact .trans (has_of_mem_children hc) (.trans (.inr (below_of_child? ht)) hname.has)

theorem opened (h : n.Binds m x) : ∃ body, opened? n = some (.function, body) := by
  cases h with
  | @parameter b _ _ _ hkind hb =>
    refine ⟨b, ?_⟩
    rcases hkind with hkind | hkind
    all_goals simp only [opened?, hkind, hb, Option.map_some]
  | target hkind => exact ⟨n, opened?_of_comprehension hkind⟩

theorem children_ne_nil (h : n.Binds m x) : n.children ≠ [] := by
  intro hnil
  cases h with
  | parameter _ _ hps =>
    have hmem := mem_children_of_child? hps
    rw [hnil] at hmem
    cases hmem
  | target _ hc =>
    rw [hnil] at hc
    cases hc

/-- The constructs that bind names of their own. -/
def binders : List Kind := [.functionDefinition, .lambda] ++ comprehensions

theorem mem_binders (h : n.Binds m x) : n.kind ∈ binders := by
  cases h with
  | parameter hkind =>
    rcases hkind with hkind | hkind
    all_goals
      rw [hkind]
      decide
  | target hkind => exact List.mem_append_right _ hkind

end Binds

/-- In most constructs the way goes on to every child. -/
theorem Follows.of_ordinary
    (hn : n.kind ∉ Usages.special ++ extendedParameters ++ [Kind.forInClause])
    (hfield : n.field ≠ some .parameters)
    (hc : c ∈ n.children) (hrole : c.field ∉ [some .typeParameters, some .parameters]) :
    n.Follows c := by
  simp only [List.mem_append, List.mem_cons, List.not_mem_nil, or_false, not_or] at hn hrole
  exact ⟨.inside hn.1.1 hc, hrole.1, fun h => absurd h hrole.2, fun h => absurd h hfield,
    fun h => absurd h hn.1.2, fun h => absurd h hn.2⟩

/-! ## Where nothing is bound -/

/-- Nothing in the tree binds names of its own. -/
def Silent (m : SourceMap) (n : Node) : Prop := ∀ c, n.Has c → ∀ x, ¬ c.Binds m x

theorem Silent.of_below (h : n.Silent m) (hc : n.Below c) : c.Silent m :=
  fun d hd => h d (.trans (.inr hc) hd)

theorem silent_of_leaf (h : n.children = []) : n.Silent m := by
  rintro c (rfl | hc) x hx
  · exact hx.children_ne_nil h
  · obtain ⟨d, hd, -⟩ := below_iff.1 hc
    rw [h] at hd
    cases hd

theorem silent_of_dottedName (hn : n.Arranged) (hkind : n.kind = .dottedName) : n.Silent m := by
  rintro c (rfl | hc) x hx
  · have hbinder := hx.mem_binders
    rw [hkind] at hbinder
    exact absurd hbinder (by decide)
  · obtain ⟨d, hd, hc⟩ := below_iff.1 hc
    exact silent_of_leaf (hn.dotted hkind d hd) c hc x hx

theorem silent_of_not_isNamed (hn : n.FollowsGrammar) (h : n.isNamed = false) : n.Silent m :=
  silent_of_leaf (hn.leaf (.inr h))

theorem silent_of_identifier (hn : n.FollowsGrammar) (h : n.kind = .identifier) : n.Silent m :=
  silent_of_leaf (hn.leaf (.inl h))

end Syntax.Node

/-! ## What the walk comes to -/

namespace Extraction

variable {src : Source} {root n c x : Node} {scope outer inner : ScopeId}

/-- The walk has come to all that is in the node, or there is nothing in it. -/
inductive Covers (src : Source) (root n : Node) : Prop where
  | visited {scope : ScopeId} : Meets src root (.visit scope n) → Covers src root n
  | bound {scope : ScopeId} : Meets src root (.bind scope n) → Covers src root n
  | block {scope : ScopeId} : n.kind = .module ∨ n.kind = .block →
      (∀ c ∈ n.namedChildren, Meets src root (.visit scope c)) → Covers src root n
  | parameters {outer inner : ScopeId} : n.kind = .parameters ∨ n.kind = .lambdaParameters →
      n.field = some .parameters →
      (∀ p ∈ n.namedChildren, Meets src root (.parameter outer inner p)) → Covers src root n
  | parameter {outer inner : ScopeId} : n.kind ∈ Node.extendedParameters →
      Meets src root (.parameter outer inner n) → Covers src root n
  | clause {scope : ScopeId} : n.kind = .forInClause → Meets src root (.clause scope n) →
      Covers src root n
  | silent : n.Silent src.map → Covers src root n

/-- What a construct is visited for is visited or bound in its turn. -/
theorem Covers.of_visit_mem (h : Meets src root (.visit scope n))
    (hc : .visit scope c ∈ visitTasks scope n) : Covers src root c :=
  .visited (h.next fun _ => hc)

theorem Covers.of_bind_mem (h : Meets src root (.visit scope n))
    (hc : .bind scope c ∈ visitTasks scope n) : Covers src root c :=
  .bound (h.next fun _ => hc)

/-! ### Inside constructs -/

theorem isSome_opened?_of_body (hkind : HasBody n) {b : Node} (hb : n.child? .body = some b) :
    (opened? n).isSome = true := by
  rcases hkind with hkind | hkind | hkind
  all_goals simp only [opened?, hkind, hb, Option.map_some, Option.isSome_some]

theorem innerTasks_of_comprehension (h : n.kind ∈ comprehensions) :
    innerTasks outer inner n = n.namedChildren.map fun c =>
      if c.kind == .forInClause then .clause inner c else .visit inner c := by
  simp only [comprehensions, List.mem_cons, List.not_mem_nil, or_false] at h
  rcases h with h | h | h | h
  all_goals simp only [innerTasks, h]

theorem parameter_mem_innerTasks (hkind : n.kind = .functionDefinition ∨ n.kind = .lambda)
    {ps p : Node} (hps : n.child? .parameters = some ps) (hp : p ∈ ps.namedChildren) :
    .parameter outer inner p ∈ innerTasks outer inner n := by
  have hmem : Task.parameter outer inner p ∈ (n.child? .parameters).toList.flatMap fun ps =>
      ps.namedChildren.map (.parameter outer inner) := by
    rw [hps, Option.toList_some, List.flatMap_singleton]
    exact List.mem_map_of_mem hp
  rcases hkind with hkind | hkind
  all_goals
    simp only [innerTasks, hkind]
    exact List.mem_append_left _ hmem

theorem visit_mem_innerTasks (hkind : n.kind = .functionDefinition ∨ n.kind = .classDefinition)
    {b : Node} (hb : n.child? .body = some b) (hc : c ∈ b.namedChildren) :
    .visit inner c ∈ innerTasks outer inner n := by
  have hmem : Task.visit inner c ∈ (n.child? .body).toList.flatMap fun b =>
      b.namedChildren.map (.visit inner) := by
    rw [hb, Option.toList_some, List.flatMap_singleton]
    exact List.mem_map_of_mem hc
  rcases hkind with hkind | hkind
  · simp only [innerTasks, hkind]
    exact List.mem_append_right _ hmem
  · simp only [innerTasks, hkind]
    exact hmem

theorem Enters.covers_parameters (h : Enters src root n scope) (hn : n.Arranged)
    (hkind : n.kind = .functionDefinition ∨ n.kind = .lambda)
    (hc : n.child? .parameters = some c) : Covers src root c := by
  obtain ⟨outer, hmeets⟩ := h.meets
  exact .parameters (hn.parameters hkind c hc) (Node.field_of_child? hc)
    fun p hp => hmeets _ (parameter_mem_innerTasks hkind hc hp)

theorem Enters.covers_block (h : Enters src root n scope) (hn : n.Arranged)
    (hkind : n.kind = .functionDefinition ∨ n.kind = .classDefinition)
    (hc : n.child? .body = some c) : Covers src root c := by
  obtain ⟨outer, hmeets⟩ := h.meets
  exact .block (.inr (hn.body hkind c hc)) fun d hd => hmeets _ (visit_mem_innerTasks hkind hc hd)

theorem Enters.covers_lambdaBody (h : Enters src root n scope) (hkind : n.kind = .lambda)
    (hc : n.child? .body = some c) : Covers src root c := by
  obtain ⟨outer, hmeets⟩ := h.meets
  refine .visited (hmeets (.visit scope c) ?_)
  simp only [innerTasks, hkind, hc, Option.toList_some, List.map_cons, List.map_nil]
  exact List.mem_append_right _ List.mem_cons_self

theorem Enters.covers_comprehension (h : Enters src root n scope)
    (hkind : n.kind ∈ comprehensions) (hc : c ∈ n.namedChildren) : Covers src root c := by
  obtain ⟨outer, hmeets⟩ := h.meets
  rw [innerTasks_of_comprehension hkind] at hmeets
  have hmem := hmeets _ (List.mem_map_of_mem hc)
  split at hmem
  · exact .clause (beq_iff_eq.1 ‹_›) hmem
  · exact .visited hmem

/-! ### One step of the way -/

theorem enter_mem_visitTasks (hkind : n.kind ∈ Node.Binds.binders ∨ n.kind = .classDefinition) :
    .enter scope n ∈ visitTasks scope n := by
  simp only [Node.Binds.binders, comprehensions, List.mem_append, List.mem_cons,
    List.not_mem_nil, or_false] at hkind
  rcases hkind with ((hkind | hkind) | hkind | hkind | hkind | hkind) | hkind
  all_goals simp [visitTasks, hkind]

/-- In a handler a construct is visited, if it is not the name behind `as`. -/
theorem visit_mem_exceptTasks {ns : List Node} (hc : c ∈ ns) (hnamed : c.isNamed = true)
    (hname : c.kind ≠ .identifier) (afterAs : Bool) :
    .visit scope c ∈ exceptTasks scope afterAs ns := by
  induction ns generalizing afterAs with
  | nil => cases hc
  | cons d ds ih =>
    rw [exceptTasks]
    rcases List.mem_cons.1 hc with rfl | hc
    · simp [hnamed, hname]
    · split
      · exact ih hc _
      · exact List.mem_cons_of_mem _ (ih hc _)

/-- What is in a role of a definition or a lambda is declared, visited, or gone into
    when the construct is entered. -/
theorem covers_of_definition (h : Meets src root (.visit scope n))
    (hn : n.Everywhere Node.WellMade) (hkind : HasBody n) (hfollow : n.Follows c)
    {f : Field} (hf : f ∈ roleOrder n.kind) (hchild : n.child? f = some c) :
    Covers src root c := by
  have hfield : c.field = some f := Node.field_of_child? hchild
  have name (hdefinition : n.kind = .functionDefinition ∨ n.kind = .classDefinition)
      (hchild : n.child? .name = some c) : Covers src root c := by
    have hidentifier : c.kind = .identifier :=
      hn.here.binds.bound (hdefinition.imp_right .inl) c hchild
    have hc := (hn.of_below (Node.below_of_child? hchild)).here.follows
    exact .silent (Node.silent_of_identifier hc hidentifier)
  have entered {b : Node} (hb : n.child? .body = some b) : ∃ inner, Enters src root n inner := by
    have henters : n.kind ∈ Node.Binds.binders ∨ n.kind = .classDefinition := by
      rcases hkind with hkind | hkind | hkind
      · exact .inl (by rw [hkind]; decide)
      · exact .inl (by rw [hkind]; decide)
      · exact .inr hkind
    have hmeets : Meets src root (.enter scope n) := h.next fun _ => enter_mem_visitTasks henters
    exact hmeets.enters (isSome_opened?_of_body hkind hb)
  have parameters (hfunction : n.kind = .functionDefinition ∨ n.kind = .lambda)
      (hchild : n.child? .parameters = some c) : Covers src root c := by
    obtain ⟨b, hb⟩ := Option.isSome_iff_exists.1 (hfollow.hasBody (Node.field_of_child? hchild))
    obtain ⟨inner, hinner⟩ := entered hb
    exact hinner.covers_parameters hn.here.arranged hfunction hchild
  have block (hdefinition : n.kind = .functionDefinition ∨ n.kind = .classDefinition)
      (hchild : n.child? .body = some c) : Covers src root c := by
    obtain ⟨inner, hinner⟩ := entered hchild
    exact hinner.covers_block hn.here.arranged hdefinition hchild
  rcases hkind with hkind | hkind | hkind
  · rw [hkind] at hf
    simp only [roleOrder, List.mem_cons, List.not_mem_nil, or_false] at hf
    -- type parameters are the only role that the walk leaves out, and are ruled out
    rcases hf with rfl | rfl | rfl | rfl | rfl
    · exact name (.inl hkind) hchild
    · exact absurd hfield hfollow.noTypeParameter
    · exact parameters (.inl hkind) hchild
    · exact .of_visit_mem h (by simp [visitTasks, hkind, hchild])
    · exact block (.inl hkind) hchild
  · rw [hkind] at hf
    simp only [roleOrder, List.mem_cons, List.not_mem_nil, or_false] at hf
    rcases hf with rfl | rfl
    · exact parameters (.inr hkind) hchild
    · obtain ⟨inner, hinner⟩ := entered hchild
      exact hinner.covers_lambdaBody hkind hchild
  · rw [hkind] at hf
    simp only [roleOrder, List.mem_cons, List.not_mem_nil, or_false] at hf
    rcases hf with rfl | rfl | rfl | rfl
    · exact name (.inr hkind) hchild
    · exact absurd hfield hfollow.noTypeParameter
    · exact .of_visit_mem h (by simp [visitTasks, hkind, hchild])
    · exact block (.inr hkind) hchild

/-- What is in a role of another construct that has an order of roles is bound,
    visited, or a name. -/
theorem covers_of_role (h : Meets src root (.visit scope n))
    (hn : n.Everywhere Node.WellMade) (hbody : ¬ HasBody n) (hnamed : c.isNamed = true)
    {f : Field} (hf : f ∈ roleOrder n.kind) (hchild : n.child? f = some c) :
    Covers src root c := by
  have hc : c.WellMade := (hn.of_below (Node.below_of_child? hchild)).here
  have leaf (hkind : c.kind = .identifier) : Covers src root c :=
    .silent (Node.silent_of_identifier hc.follows hkind)
  have hmem : c ∈ n.namedChildren :=
    List.mem_filter.2 ⟨Node.mem_children_of_child? hchild, hnamed⟩
  have hfield : c.field = some f := Node.field_of_child? hchild
  -- the cases are the kinds of `roleOrder`, from function definitions on
  unfold roleOrder at hf
  split at hf
  case h_1 hkind => exact absurd (.inl hkind) hbody
  case h_2 hkind => exact absurd (.inr (.inr hkind)) hbody
  case h_3 hkind => exact absurd (.inr (.inl hkind)) hbody
  case h_4 hkind =>
    simp only [List.mem_cons, List.not_mem_nil, or_false] at hf
    rcases hf with rfl | rfl | rfl
    · exact .of_bind_mem h (by simp [visitTasks, hkind, hchild])
    · exact .of_visit_mem h (by simp [visitTasks, hkind, hchild])
    · exact .of_visit_mem h (by simp [visitTasks, hkind, hchild])
  case h_5 hkind =>
    -- in a loop everything but the target is visited, in a role or not
    by_cases hleft : f = .left
    · subst hleft
      exact .of_bind_mem h (by simp [visitTasks, hkind, hchild])
    · apply Covers.of_visit_mem h
      simp only [visitTasks, hkind]
      refine List.mem_append_right _ (List.mem_map_of_mem (List.mem_filter.2 ⟨hmem, ?_⟩))
      rw [hfield, bne_iff_ne]
      exact fun heq => hleft (Option.some.inj heq)
  case h_6 hkind =>
    simp only [List.mem_cons, List.not_mem_nil, or_false] at hf
    rcases hf with rfl | rfl
    · exact leaf (hn.here.binds.bound (.inr (.inr hkind)) c hchild)
    · exact .of_visit_mem h (by simp [visitTasks, hkind, hchild])
  case h_7 hkind =>
    simp only [List.mem_cons, List.not_mem_nil, or_false] at hf
    rcases hf with rfl | rfl
    · have hdotted := hn.here.follows.renamed hkind c hchild
      exact .silent (Node.silent_of_dottedName hc.arranged hdotted)
    · exact leaf (hn.here.binds.renamed hkind c hchild)
  case h_8 hkind | h_9 hkind =>
    apply Covers.of_visit_mem h
    simp only [visitTasks, hkind]
    exact List.mem_map_of_mem hmem
  case h_10 => cases hf

/-- What is in a construct without an order of roles is visited, bound, or gone into
    when the construct is entered. -/
theorem covers_of_others (h : Meets src root (.visit scope n)) (hc : c.WellMade)
    (hordered : roleOrder n.kind = []) (hmem : c ∈ n.namedChildren)
    (himport : n.kind ≠ .importFromStatement) (hclosed : n.kind ∉ Usages.closed) :
    Covers src root c := by
  have visited := Covers.of_visit_mem (c := c) h
  have bound := Covers.of_bind_mem (c := c) h
  by_cases hwhole : n.kind ∈ comprehensions
  · have hopened := opened?_of_comprehension hwhole
    have hmeets : Meets src root (.enter scope n) :=
      h.next fun _ => enter_mem_visitTasks (.inl (List.mem_append_right _ hwhole))
    obtain ⟨inner, hinner⟩ := hmeets.enters (by rw [hopened]; rfl)
    exact hinner.covers_comprehension hwhole hmem
  obtain ⟨hchild, hnamed⟩ := List.mem_filter.1 hmem
  obtain ⟨ts, hts⟩ : ∃ ts, visitTasks scope n = ts := ⟨_, rfl⟩
  rw [hts] at visited bound
  -- the cases are the kinds of `visitTasks`; those with roles are none of these
  unfold visitTasks at hts
  split at hts
  case h_1 hkind | h_2 hkind | h_3 hkind | h_8 hkind | h_9 hkind | h_12 hkind | h_13 hkind =>
    -- these have an order of roles
    rw [hkind] at hordered
    cases hordered
  case h_4 hkind | h_5 hkind | h_6 hkind | h_7 hkind => exact absurd (by rw [hkind]; decide) hwhole
  case h_10 =>
    subst hts
    -- in `value as target` the target has the role of the alias
    by_cases halias : (c.field == some .alias) = true
    · exact bound (List.mem_filterMap.2 ⟨c, hchild, if_pos halias⟩)
    · refine visited (List.mem_filterMap.2 ⟨c, hchild, ?_⟩)
      rw [if_neg halias, if_pos hnamed]
  case h_11 =>
    subst hts
    -- a name may be the one behind `as`, which is only declared
    by_cases hname : c.kind = .identifier
    · exact .silent (Node.silent_of_identifier hc.follows hname)
    · exact visited (visit_mem_exceptTasks hchild hnamed hname false)
  case h_14 hkind => exact absurd hkind himport
  case h_15 hkind | h_16 hkind | h_17 hkind => exact absurd (by rw [hkind]; decide) hclosed
  case h_18 =>
    subst hts
    exact visited (List.mem_map_of_mem hmem)

/-- The walk goes on from a construct that it visits. -/
theorem covers_of_visit (h : Meets src root (.visit scope n))
    (hn : n.Everywhere Node.WellMade) (hfollow : n.Follows c) : Covers src root c := by
  have hcmade : c.WellMade := (hn.of_below hfollow.leads.below).here
  by_cases himport : n.kind = .importFromStatement
  · -- only the words of names are looked at
    cases hfollow.leads with
    | @imported m _ _ hm hc =>
      have hdotted : m.kind = .dottedName :=
        hm.kind_eq himport (hn.imp fun _ hc => hc.here.follows)
      have hmade : m.WellMade := (hn.of_below hm.below).here
      exact .silent (Node.silent_of_leaf (hmade.arranged.dotted hdotted c hc))
    | object hkind | value hkind | function hkind | arguments hkind =>
      exact absurd (hkind.symm.trans himport) (by decide)
    | inside hspecial => exact absurd (by rw [himport]; decide) hspecial
  have hc : c ∈ n.children := hfollow.leads.mem_children himport
  -- usages are looked for in bare tokens as well, but there are none
  by_cases htoken : c.isNamed = false
  · exact .silent (Node.silent_of_not_isNamed hcmade.follows htoken)
  have hnamed : c.isNamed = true := by rwa [Bool.not_eq_false] at htoken
  have hmem : c ∈ n.namedChildren := List.mem_filter.2 ⟨hc, hnamed⟩
  by_cases hordered : roleOrder n.kind = []
  · exact covers_of_others h hcmade hordered hmem himport hfollow.leads.not_mem_closed
  · rcases hn.here.arranged.cases hordered hc with hidle | ⟨f, hf, hchild⟩
    · exact .silent (Node.silent_of_leaf hidle.leaf)
    · by_cases hbody : HasBody n
      · exact covers_of_definition h hn hbody hfollow hf hchild
      · exact covers_of_role h hn hbody hnamed hf hchild

/-- The walk goes on from a target. -/
theorem covers_of_bind (h : Meets src root (.bind scope n))
    (hn : n.Everywhere Node.WellMade) (hfollow : n.Follows c) : Covers src root c := by
  have hcmade : c.WellMade := (hn.of_below hfollow.leads.below).here
  have next {u : Task} (hu : u ∈ bindTasks scope n) : Meets src root u := h.next fun _ => hu
  obtain ⟨ts, hts⟩ : ∃ ts, bindTasks scope n = ts := ⟨_, rfl⟩
  rw [hts] at next
  unfold bindTasks at hts
  split at hts
  · -- a name leads nowhere
    rename_i hname
    exact absurd (hn.here.follows.leaf (.inl (beq_iff_eq.1 hname))) hfollow.leads.children_ne_nil
  split at hts
  · rename_i hwhole
    obtain ⟨hkind, hempty⟩ := Bool.and_eq_true_iff.1 hwhole
    exact absurd (List.isEmpty_iff.1 hempty) (hn.here.binds.target (beq_iff_eq.1 hkind))
  split at hts
  · rename_i hgroup
    have himport : n.kind ≠ .importFromStatement := by
      intro himport
      rw [himport] at hgroup
      exact absurd hgroup (by decide)
    have hc : c ∈ n.children := hfollow.leads.mem_children himport
    subst hts
    by_cases hnamed : c.isNamed = true
    · exact .bound (next (List.mem_map_of_mem (List.mem_filter.2 ⟨hc, hnamed⟩)))
    · rw [Bool.not_eq_true] at hnamed
      exact .silent (Node.silent_of_not_isNamed hcmade.follows hnamed)
  · subst hts
    exact covers_of_visit (next List.mem_cons_self) hn hfollow

/-- The walk goes on from a parameter to its annotation and its default. -/
theorem covers_of_parameter (h : Meets src root (.parameter outer inner n))
    (hkind : n.kind ∈ Node.extendedParameters) (hfollow : n.Follows c) : Covers src root c := by
  have hcode : c ∈ parameterCode n := by
    have hannotation := hfollow.annotation hkind
    simp only [Node.extendedParameters, List.mem_cons, List.not_mem_nil, or_false] at hkind
    rcases hkind with hkind | hkind | hkind
    · have htype := hannotation.resolve_right fun hvalue => hvalue.1 hkind
      simp [parameterCode, hkind, htype]
    · rcases hannotation with hc | ⟨-, hc⟩
      all_goals simp [parameterCode, hkind, hc]
    · rcases hannotation with hc | ⟨-, hc⟩
      all_goals simp [parameterCode, hkind, hc]
  exact .visited (h.next fun _ => List.mem_append_right _ (List.mem_map_of_mem hcode))

/-- The walk goes on from a clause to its targets and the first thing it goes over. -/
theorem covers_of_clause (h : Meets src root (.clause scope n))
    (hn : n.Everywhere Node.WellMade) (hkind : n.kind = .forInClause)
    (hfollow : n.Follows c) : Covers src root c := by
  have hc : c ∈ n.children := hfollow.leads.mem_children (by rw [hkind]; decide)
  obtain ⟨front, back, hchildren, hfront, hback⟩ := hn.here.arranged.clause hkind
  rw [hchildren] at hc
  have left (hc : c ∈ front) : Covers src root c := by
    cases hfield : c.field with
    | none => exact .silent (Node.silent_of_leaf (hfront.idle c hc hfield).leaf)
    | some f =>
      obtain rfl := List.mem_singleton.1 (hfront.mem hc hfield)
      have hchild : n.child? .left = some c := by
        rw [Node.child?, hchildren, List.find?_append,
          hfront.find?_eq (List.nodup_singleton _) hc hfield, Option.some_or]
      have hbind : Meets src root (.bind scope c) := h.next fun _ =>
        List.mem_append_left _ (List.mem_map_of_mem (Option.mem_toList.2 hchild))
      exact .bound hbind
  rcases List.mem_append.1 hc with hc | hc
  · exact left hc
  · rcases hback c hc with ⟨-, hidle⟩ | hfield
    · exact .silent (Node.silent_of_leaf hidle.leaf)
    · have hchild := hfollow.source hkind hfield
      have hvisit : Meets src root (.visit scope c) := h.next fun _ =>
        List.mem_append_right _ (List.mem_map_of_mem (Option.mem_toList.2 hchild))
      exact .visited hvisit

/-- Where the walk has come to all that is in a node, it has come to all that is
    in what follows. -/
theorem Covers.follow (h : Covers src root n) (hn : n.Everywhere Node.WellMade)
    (hfollow : n.Follows c) : Covers src root c := by
  have child {k l : Kind} (hkind : n.kind = k ∨ n.kind = l)
      (hkl : Kind.importFromStatement ∉ [k, l]) (hnamed : c.isNamed = true) :
      c ∈ n.namedChildren := by
    refine List.mem_filter.2 ⟨hfollow.leads.mem_children fun himport => hkl ?_, hnamed⟩
    rw [himport] at hkind
    exact List.mem_pair.2 hkind
  cases h with
  | visited h => exact covers_of_visit h hn hfollow
  | bound h => exact covers_of_bind h hn hfollow
  | block hkind h =>
    by_cases hnamed : c.isNamed = true
    · exact .visited (h c (child hkind (by decide) hnamed))
    · rw [Bool.not_eq_true] at hnamed
      have hc := (hn.of_below hfollow.leads.below).here.follows
      exact .silent (Node.silent_of_not_isNamed hc hnamed)
  | parameters hkind hfield h =>
    have hextended := hfollow.extended hfield
    have hall : ∀ k ∈ Node.extendedParameters, k.isNamed = true := by decide
    exact .parameter hextended (h c (child hkind (by decide) (hall _ hextended)))
  | parameter hkind h => exact covers_of_parameter h hkind hfollow
  | clause hkind h => exact covers_of_clause h hn hkind hfollow
  | silent h => exact .silent (h.of_below hfollow.leads.below)

/-! ### The whole way -/

theorem has_of_follows (h : Relation.ReflTransGen Node.Follows root n) : root.Has n := by
  induction h with
  | refl => exact root.has_self
  | tail _ hstep ih => exact ih.trans (.inr hstep.leads.below)

theorem covers_of_follows (hroot : root.Everywhere Node.WellMade)
    (hkind : root.kind = .module) (h : Relation.ReflTransGen Node.Follows root n) :
    Covers src root n := by
  induction h with
  | refl => exact .block (.inl hkind) fun c hc => .of_mem (List.mem_map_of_mem hc)
  | tail hway hstep ih => exact ih.follow (hroot.of_has (has_of_follows hway)) hstep

/-- A construct that binds names of its own is entered, if the walk comes to it. -/
theorem Covers.enters (h : Covers src root n) (hx : n.Binds src.map x) :
    ∃ scope, Enters src root n scope := by
  have hbinder := hx.mem_binders
  obtain ⟨body, hbody⟩ := hx.opened
  have hopened : (opened? n).isSome = true := Option.isSome_iff_exists.2 ⟨_, hbody⟩
  have notKind {k : Kind} (hkind : n.kind = k) : k ∈ Node.Binds.binders := hkind ▸ hbinder
  have visited {scope : ScopeId} (h : Meets src root (.visit scope n)) :
      ∃ scope, Enters src root n scope :=
    (h.next fun _ => enter_mem_visitTasks (.inl hbinder)).enters hopened
  cases h with
  | visited h => exact visited h
  | @bound scope h =>
    have hcode : bindTasks scope n = [.visit scope n] := by
      have hall : ∀ k ∈ Node.Binds.binders,
          k ≠ .identifier ∧ k ≠ .asPatternTarget ∧ k.isTargetGroup = false := by decide
      obtain ⟨hname, htarget, hgroup⟩ := hall _ hbinder
      simp [bindTasks, hname, htarget, hgroup]
    exact visited (h.next fun _ => by rw [expand, hcode]; exact List.mem_cons_self)
  | block hkind =>
    rcases hkind with hkind | hkind
    all_goals exact absurd (notKind hkind) (by decide)
  | parameters hkind =>
    rcases hkind with hkind | hkind
    all_goals exact absurd (notKind hkind) (by decide)
  | parameter hkind =>
    have hall : ∀ k ∈ Node.extendedParameters, k ∉ Node.Binds.binders := by decide
    exact absurd hbinder (hall _ hkind)
  | clause hkind => exact absurd (notKind hkind) (by decide)
  | silent h => exact absurd hx (h n n.has_self x)

theorem meets_declare_of_targetName {t : Node} (hx : t.TargetName x)
    (h : Meets src root (.bind scope t)) : Meets src root (.declare scope .variable x) := by
  induction hx with
  | name hkind => exact h.next fun _ => by simp [expand, bindTasks, hkind]
  | @member t c x hgroup hc hx ih =>
    obtain ⟨-, hname, htarget, -⟩ := Kind.of_isTargetGroup hgroup
    have hmem : c ∈ t.namedChildren := List.mem_filter.2 ⟨hc, hx.isNamed⟩
    exact ih (h.next fun _ => by simp [expand, bindTasks, hgroup, hname, htarget, hmem])

/-- In a construct that is entered, the names of its own are declared. -/
theorem Enters.meets_declare (h : Enters src root n scope) (hx : n.Binds src.map x) :
    Meets src root (.declare scope .variable x) := by
  obtain ⟨outer, hmeets⟩ := h.meets
  cases hx with
  | @parameter b ps p _ hkind hb hps hp hname himplicit =>
    have hmem : p ∈ ps.namedChildren := List.mem_filter.2 ⟨hp, hname.isNamed⟩
    obtain ⟨heq, hidentifier⟩ := hname.parameterName?_eq
    refine (hmeets _ (parameter_mem_innerTasks hkind hps hmem)).next fun _ => ?_
    simp [expand, parameterTasks, heq, hidentifier, himplicit]
  | @target c t _ hkind hc hclause ht hname =>
    have hnamed : c.isNamed = true := by
      rw [Node.isNamed, hclause]
      rfl
    rw [innerTasks_of_comprehension hkind] at hmeets
    have hmem := hmeets _ (List.mem_map_of_mem (List.mem_filter.2 ⟨hc, hnamed⟩))
    rw [if_pos (beq_iff_eq.2 hclause)] at hmem
    refine meets_declare_of_targetName hname (hmem.next fun _ => ?_)
    exact List.mem_append_left _ (by simp [ht])

end Extraction

/-! ## Declarations and usages -/

/-- The name is declared once where it stands, as a variable of the scope, and it
    is not a usage. -/
structure Analysis.DeclaresLocal (a : Analysis) (m : SourceMap) (scope : ScopeId) (x : Node) :
    Prop where
  once : ∃! i : Nat, ∃ d, a.declarations[i]? = some d ∧ d.position = m.start x
  bound : ∀ d ∈ a.declarations, d.position = m.start x →
    d.name = m.text x ∧ d.kind = .variable ∧ d.scope = scope
  unused : ∀ u ∈ a.usages, u.position ≠ m.start x

/-- The scope with the number `scope` is a function scope over what the construct
    opens one for: its body, or the whole of a comprehension. -/
def Analysis.OpensFunction (a : Analysis) (m : SourceMap) (scope : ScopeId) (n : Node) : Prop :=
  ∃ body outer, opened? n = some (.function, body) ∧ a.scopes.scopes[scope]? =
    some ⟨.function, some outer, m.start body, Position.latest (m.start body) (m.stop body)⟩

/-- Every construct that the way from the root leads to and that binds names of its
    own has a function scope, which is not that of another one, and the names are
    declared there. -/
def Analysis.KeepsLocals (a : Analysis) (m : SourceMap) (root : Node) : Prop :=
  ∃ own : Node → ScopeId,
    (∀ n n' x x', Relation.ReflTransGen Node.Follows root n →
      Relation.ReflTransGen Node.Follows root n' → n.Binds m x → n'.Binds m x' →
      own n = own n' → n = n') ∧
    ∀ n x, Relation.ReflTransGen Node.Follows root n → n.Binds m x →
      a.OpensFunction m (own n) n ∧ a.DeclaresLocal m (own n) x

/-- A usage is a name of the tree that is not declared where it stands. -/
theorem Usages.exists_name_of_mem {src : Source} {root : Node} {declarations : Array Declaration}
    {u : Usage} (h : u ∈ ofTree src root declarations) :
    ∃ y, y.kind = .identifier ∧ root.Has y ∧ u.position = src.map.start y ∧
      ∀ d ∈ declarations, ¬ (d.position = src.map.start y ∧ d.name = src.map.text y) := by
  obtain ⟨o, ho, hu⟩ := List.mem_filterMap.1 h
  obtain ⟨c, hc, ho⟩ := List.mem_flatMap.1 ho
  obtain ⟨⟨-, -, hdeclared⟩, rfl⟩ := usage?_eq_some_iff.1 hu
  have hreached : c.Has o.2 := (reaches_of_mem_occurrences ho).has
  refine ⟨o.2, (last_step _ c ho).1, .trans (.inr (Node.below_of_mem_namedChildren hc)) hreached,
    rfl, declaredIn_eq_false.1 hdeclared⟩

namespace Analysis

variable {text : String} {root : Node}

/-- What the walk comes to declare is declared once. -/
theorem declaresLocal_of_meets (hroot : root.Accepted text) {file : String} {x : Node}
    {scope : ScopeId} (hx : root.Has x) (hname : x.kind = .identifier)
    (h : Meets ⟨file, .ofText text⟩ root (.declare scope .variable x)) :
    (ofTree file text root).DeclaresLocal (.ofText text) scope x := by
  have hmem : x ∈ root.names := Node.mem_names_of_has hx hname
  obtain ⟨i, hi⟩ := h.exists_declaration (hroot.nonempty x hmem)
  let positions := (ofTree file text root).declarations.toList.map (·.position)
  have hapart : positions.Nodup :=
    nodup_positions file text (hroot.made.imp fun n hn => hn.here.binds) hroot.ascends.nodup_start
  have position {j : Nat} {d : Declaration}
      (hd : (ofTree file text root).declarations[j]? = some d) :
      positions[j]? = some d.position := by
    rw [List.getElem?_map, Array.getElem?_toList, hd, Option.map_some]
  have honce {j : Nat} {d : Declaration}
      (hd : (ofTree file text root).declarations[j]? = some d)
      (hposition : d.position = (SourceMap.ofText text).start x) : j = i := by
    have hj : positions[j]? = some ((SourceMap.ofText text).start x) := hposition ▸ position hd
    have hlt : j < positions.length := (List.getElem?_eq_some_iff.1 hj).1
    exact (List.getElem?_inj hlt hapart).1 (hj.trans (position hi).symm)
  constructor
  · exact ⟨i, ⟨_, hi, rfl⟩, fun j ⟨d, hd, hposition⟩ => honce hd hposition⟩
  · intro d hd hposition
    obtain ⟨j, hj⟩ := Array.mem_iff_getElem?.1 hd
    obtain rfl := honce hj hposition
    obtain rfl := Option.some.inj (hj.symm.trans hi)
    exact ⟨rfl, rfl, rfl⟩
  · intro u hu hposition
    obtain ⟨y, hy, hhas, hstart, hnone⟩ := Usages.exists_name_of_mem hu
    have hmem' : y ∈ root.names := Node.mem_names_of_has hhas hy
    obtain rfl := hroot.ascends.eq_of_start_eq hmem' hmem (hstart.symm.trans hposition)
    exact hnone _ (Array.mem_of_getElem? hi) ⟨rfl, rfl⟩

theorem keepsLocals_ofTree (hroot : root.Accepted text) (file : String) :
    (ofTree file text root).KeepsLocals (.ofText text) root := by
  let src : Source := ⟨file, .ofText text⟩
  have enters (n : Node) : ∃ scope, ∀ x, Relation.ReflTransGen Node.Follows root n →
      n.Binds src.map x → Enters src root n scope := by
    by_cases h : ∃ x, Relation.ReflTransGen Node.Follows root n ∧ n.Binds src.map x
    · obtain ⟨x, hway, hx⟩ := h
      obtain ⟨scope, hscope⟩ := (covers_of_follows hroot.made hroot.module hway).enters hx
      exact ⟨scope, fun _ _ _ => hscope⟩
    · exact ⟨0, fun x hway hx => absurd ⟨x, hway, hx⟩ h⟩
  choose own howns using enters
  refine ⟨own, fun n n' x x' hway hway' hx hx' heq => ?_, fun n x hway hx => ⟨?_, ?_⟩⟩
  · exact (howns n x hway hx).unique (heq ▸ howns n' x' hway' hx')
  · obtain ⟨body, hbody⟩ := hx.opened
    obtain ⟨outer, hscope⟩ := (howns n x hway hx).exists_scope hbody
    exact ⟨body, outer, hbody, hscope⟩
  · have hhas : root.Has x := (has_of_follows hway).trans hx.has
    exact declaresLocal_of_meets hroot hhas hx.identifier ((howns n x hway hx).meets_declare hx)

end Analysis

/-- **Parameters and the targets of comprehensions are declared where they
    belong.** Let an adapter have a tree for the text that the grammar accepts.
    Every function with a body, lambda and comprehension on the way on which
    usages are looked for has a function scope of its own, as far as that way
    leads through no type parameters, parameters of a function without a body,
    names of parameters, or things that a clause goes over behind its first one.
    Each of its parameters that is no customary first name, and each of its
    targets, is declared once where it stands, as a variable of that scope, and is
    not a usage; the name of a starred parameter, if it comes first behind the
    stars. -/
theorem locals_declared (a : Adapter) (file text : String) (root : Node)
    (htree : a.parse? text = some root) (hroot : root.Accepted text) :
    (a.analyze file text).KeepsLocals (.ofText text) root := by
  rw [Adapter.analyze, htree]
  exact Analysis.keepsLocals_ofTree hroot file

/-- A lambda with a parameter. -/
def lambdaText : String := "lambda a: a\n"

theorem locals_declared_lambdaText :
    let m := SourceMap.ofText lambdaText
    let a := Adapter.python fun text => some (parse text)
    a.parse? lambdaText = some (parse lambdaText) ∧ (parse lambdaText).Accepted lambdaText ∧
      ∃ n x scope, Relation.ReflTransGen Node.Follows (parse lambdaText) n ∧ n.Binds m x ∧
        m.text x = "a" ∧ (a.analyze "m.py" lambdaText).DeclaresLocal m scope x := by
  intro m a
  have hroot := accepted_parse lambdaText
  have htree : ∃ s ∈ (parse lambdaText).children, ∃ n ∈ s.children,
      ∃ b ∈ (n.child? .body).toList, ∃ ps ∈ (n.child? .parameters).toList, ∃ x ∈ ps.children,
      s.kind = .expressionStatement ∧ s.field = none ∧ n.kind = .lambda ∧ n.field = none ∧
        x.kind = .identifier ∧ (SourceMap.ofText lambdaText).text x = "a" := by
    decide +kernel
  obtain ⟨s, hs, n, hn, b, hb, ps, hps, x, hx, hskind, hsfield, hnkind, hnfield, hxkind, htext⟩ :=
    htree
  have hfirst : (parse lambdaText).Follows s :=
    .of_ordinary (by decide) (by decide) hs (by rw [hsfield]; decide)
  have hsecond : s.Follows n :=
    .of_ordinary (by rw [hskind]; decide) (by rw [hsfield]; decide) hn (by rw [hnfield]; decide)
  have hway : Relation.ReflTransGen Node.Follows (parse lambdaText) n :=
    .tail (.single hfirst) hsecond
  have hbinds : n.Binds m x := .parameter (.inr hnkind) (Option.mem_toList.1 hb)
    (Option.mem_toList.1 hps) hx (.plain hxkind) (by rw [htext]; decide)
  obtain ⟨own, -, hown⟩ := locals_declared a "m.py" lambdaText _ rfl hroot
  exact ⟨rfl, hroot, n, x, own n, hway, hbinds, htext, (hown n x hway hbinds).2⟩

/-- A comment between a star and the name behind it. -/
def hiddenText : String := "def f(* # c\n args):\n    return args\n"

/-- The name is that of a parameter, but it is a usage where it stands, and not declared. -/
theorem locals_declared_hiddenText :
    let m := SourceMap.ofText hiddenText
    let a := Registry.standard.analyze "m.py" hiddenText
    (∃ n ∈ (parse hiddenText).children, ∃ ps ∈ n.children, ∃ p ∈ ps.children, ∃ x ∈ p.children,
      n.kind = .functionDefinition ∧ (n.child? .body).isSome = true ∧
      ps.field = some .parameters ∧ p.kind = .listSplatPattern ∧ x.kind = .identifier ∧
      m.text x = "args" ∧ m.start x = ⟨2, 1⟩) ∧
    a.declarations.map (fun d => (d.name, d.position)) = #[("f", ⟨1, 4⟩)] ∧
    a.usages.map (fun u => (u.identifier, u.position)) = [("args", ⟨2, 1⟩), ("args", ⟨3, 11⟩)] ∧
    Reserved.isImplicitParameter "args" = false := by
  decide +kernel

end CrossRef
