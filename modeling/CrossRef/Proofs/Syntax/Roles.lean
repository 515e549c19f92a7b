/-
  CrossRef.Proofs.Syntax.Roles

  Roles in the order of the text. What is in the roles of a definition, a loop,
  an assignment and their like comes one after another in the order in which
  the grammar has the roles, and there is nothing else in such a construct but
  tokens and comments (`Node.Arranged`). So the children that are found in some
  roles, taken in that order, are children in the order of the text
  (`InRoles.filterMap_find?_sublist`).
-/
import CrossRef.Proofs.Syntax.Grammar
import Mathlib.Data.List.Basic
import Mathlib.Data.List.Flatten

namespace CrossRef.Syntax

/-! ## Nodes in roles -/

namespace InRoles

variable {fs : List Field} {ns ms : List Node} {f : Field} {n : Node}

theorem nil : InRoles fs [] where
  idle _ hn := absurd hn List.not_mem_nil
  order := List.nil_sublist fs

theorem of_sublist (h : InRoles fs ns) (hms : ms.Sublist ns) : InRoles fs ms where
  idle n hn := h.idle n (hms.subset hn)
  order := (hms.filterMap _).trans h.order

theorem mem (h : InRoles fs ns) (hn : n ∈ ns) (hf : n.field = some f) : f ∈ fs :=
  h.order.subset (List.mem_filterMap.2 ⟨n, hn, hf⟩)

/-- The search for a role stops at a node in it. -/
theorem find?_cons_of_role (hf : n.field = some f) :
    (n :: ns).find? (·.field == some f) = some n := by
  have hrole : (n.field == some f) = true := beq_iff_eq.2 hf
  rw [List.find?_cons, hrole]

theorem find?_cons_of_ne (hf : n.field ≠ some f) :
    (n :: ns).find? (·.field == some f) = ns.find? (·.field == some f) := by
  have hrole : (n.field == some f) = false := beq_eq_false_iff_ne.2 hf
  rw [List.find?_cons, hrole]

theorem find?_eq_none_of_notMem (hf : f ∉ ns.filterMap Node.field) :
    ns.find? (·.field == some f) = none := by
  refine List.find?_eq_none.2 fun n hn hrole => hf ?_
  exact List.mem_filterMap.2 ⟨n, hn, beq_iff_eq.1 hrole⟩

/-- A node in a role is the first one that is. -/
theorem find?_eq (h : InRoles fs ns) (hfs : fs.Nodup) (hn : n ∈ ns) (hf : n.field = some f) :
    ns.find? (·.field == some f) = some n := by
  have hroles : (ns.filterMap Node.field).Nodup := h.order.nodup hfs
  obtain ⟨before, after, rfl⟩ := List.append_of_mem hn
  rw [List.filterMap_append, List.filterMap_cons_some hf] at hroles
  have hbefore : f ∉ before.filterMap Node.field := fun hmem =>
    (List.nodup_append.1 hroles).2.2 f hmem f List.mem_cons_self rfl
  rw [List.find?_append, find?_eq_none_of_notMem hbefore, Option.none_or, find?_cons_of_role hf]

/-- In front of what is in the first role all is idle. -/
theorem idle_before {before after : List Node} (h : InRoles (f :: fs) (before ++ n :: after))
    (hfs : (f :: fs).Nodup) (hn : n.field = some f) : ∀ b ∈ before, b.IsIdle := by
  intro b hb
  cases hfield : b.field with
  | none => exact h.idle b (List.mem_append_left _ hb) hfield
  | some g =>
    have hg : g ∈ before.filterMap Node.field := List.mem_filterMap.2 ⟨b, hb, hfield⟩
    have hroles : [g, f].Sublist ((before ++ n :: after).filterMap Node.field) := by
      rw [List.filterMap_append, List.filterMap_cons_some hn]
      exact (List.singleton_sublist.2 hg).append (List.singleton_sublist.2 List.mem_cons_self)
    -- nothing comes before the first role, nor a second time
    have htwice : f ∈ fs := by
      rcases List.sublist_cons_iff.1 (hroles.trans h.order) with hsub | ⟨r, heq, hsub⟩
      · exact hsub.subset (List.mem_cons_of_mem _ List.mem_cons_self)
      · cases heq
        exact List.singleton_sublist.1 hsub
    exact absurd htwice (List.nodup_cons.1 hfs).1

/-- What is found in the roles, in their order, is in the order of the nodes. -/
theorem filterMap_find?_sublist (h : InRoles fs ns) (hfs : fs.Nodup) :
    (fs.filterMap fun f => ns.find? (·.field == some f)).Sublist ns := by
  have horder := h.order
  clear h
  generalize hroles : ns.filterMap Node.field = gs at horder
  -- by induction on how the roles that are taken lie in the list of roles
  induction horder generalizing ns with
  | slnil => exact List.nil_sublist ns
  | @cons gs fs f hsub ih =>
    obtain ⟨hf, hfs⟩ := List.nodup_cons.1 hfs
    have hnone : ns.find? (·.field == some f) = none :=
      find?_eq_none_of_notMem (hroles ▸ fun hmem => hf (hsub.subset hmem))
    rw [List.filterMap_cons, hnone]
    exact ih hfs hroles
  | @cons_cons gs fs f hsub ih =>
    obtain ⟨hf, hfs⟩ := List.nodup_cons.1 hfs
    obtain ⟨before, n, after, rfl, hbefore, hn, hafter⟩ := List.filterMap_eq_cons_iff.1 hroles
    have hskip (g : Field) : (before ++ n :: after).find? (·.field == some g) =
        (n :: after).find? (·.field == some g) := by
      have hnone : g ∉ before.filterMap Node.field := by
        rw [List.filterMap_eq_nil_iff.2 hbefore]
        exact List.not_mem_nil
      rw [List.find?_append, find?_eq_none_of_notMem hnone, Option.none_or]
    have hothers : (fs.filterMap fun g => (before ++ n :: after).find? (·.field == some g)) =
        fs.filterMap fun g => after.find? (·.field == some g) := by
      refine List.filterMap_congr fun g hg => ?_
      have hne : n.field ≠ some g := by
        rw [hn]
        rintro ⟨⟩
        exact hf hg
      rw [hskip, find?_cons_of_ne hne]
    rw [List.filterMap_cons, hskip, find?_cons_of_role hn, hothers]
    exact ((ih hfs hafter).cons_cons n).trans (List.sublist_append_right _ _)

end InRoles

/-! ## Arranged constructs -/

/-- The construct is made of its roles in their order, if it has such an order,
    with parameters and blocks where they belong. A clause of a comprehension
    has its targets before its sources, and a dotted name is made of words. -/
structure Node.Arranged (n : Node) : Prop where
  roles : roleOrder n.kind ≠ [] → InRoles (roleOrder n.kind) n.children
  parameters : n.kind = .functionDefinition ∨ n.kind = .lambda →
    ∀ c, n.child? .parameters = some c → c.kind = .parameters ∨ c.kind = .lambdaParameters
  body : n.kind = .functionDefinition ∨ n.kind = .classDefinition → ∀ c, n.child? .body = some c →
    c.kind = .block
  clause : n.kind = .forInClause → ∃ front back, n.children = front ++ back ∧
    InRoles [.left] front ∧ ∀ c ∈ back, (c.field = none ∧ c.IsIdle) ∨ c.field = some .right
  dotted : n.kind = .dottedName → ∀ c ∈ n.children, c.children = []

theorem Node.IsExtra.isIdle {n : Node} (h : n.IsExtra) : n.IsIdle := by
  obtain ⟨⟨kind, text, span, afterBreak, indent⟩, ht, rfl⟩ := h
  cases kind with
  | comment | lineContinuation => exact ⟨Kind.noConfusion, rfl⟩
  | _ => cases ht

theorem nodup_roleOrder (k : Kind) : (roleOrder k).Nodup := by
  unfold roleOrder
  split
  all_goals decide

section

variable {fs : List Field} {ps qs : List Part} {k : Kind} {n : Node}

theorem contents_sublist (ps : List Part) :
    (Part.contents ps).Sublist (ps.flatMap fun p => p.leading ++ p.node.toList) := by
  cases ps with
  | nil => exact .refl _
  | cons p ps =>
    rw [List.flatMap_cons, List.append_assoc]
    exact List.sublist_append_right _ _

/-- Comments between pieces do not change their roles. -/
theorem inRoles_contents (h : TakeRoles fs ps)
    (hleading : ∀ p ∈ ps, ∀ e ∈ p.leading, e.IsExtra) : InRoles fs (Part.contents ps) := by
  have hroles : (ps.flatMap fun p => p.leading ++ p.node.toList).filterMap Node.field =
      (ps.flatMap (·.node.toList)).filterMap Node.field := by
    rw [List.filterMap_flatMap, List.filterMap_flatMap]
    refine List.flatMap_congr fun p hp => ?_
    rw [List.filterMap_append, List.filterMap_eq_nil_iff.2 fun e he => (hleading p hp e he).field,
      List.nil_append]
  have hall : InRoles fs (ps.flatMap fun p => p.leading ++ p.node.toList) := by
    refine ⟨fun c hc hfield => ?_, hroles ▸ h.order⟩
    obtain ⟨p, hp, hc⟩ := List.mem_flatMap.1 hc
    rcases List.mem_append.1 hc with hc | hc
    · exact (hleading p hp c hc).isIdle
    · exact h.idle c (List.mem_flatMap_of_mem hp hc) hfield
  exact hall.of_sublist (contents_sublist ps)

theorem contents_append (ps qs : List Part) : ∃ cs, Part.contents (ps ++ qs) =
    Part.contents ps ++ cs ∧ cs.Sublist (qs.flatMap fun q => q.leading ++ q.node.toList) := by
  cases ps with
  | nil => exact ⟨_, rfl, contents_sublist qs⟩
  | cons p ps =>
    refine ⟨_, ?_, .refl _⟩
    rw [List.cons_append, Part.contents, List.flatMap_append, ← List.append_assoc]
    rfl

theorem arranged_build (hk : Shape k ps) (hleading : ∀ p ∈ ps, ∀ e ∈ p.leading, e.IsExtra)
    (hn : n ∈ (Part.build k ps).node) : n.Arranged := by
  have hkind : n.kind = k := by
    cases hn
    rfl
  have hchildren : n.children = Part.contents ps := by
    cases hn
    rfl
  have found {f : Field} {c : Node} (hc : n.child? f = some c) :
      c ∈ Part.contents ps ∧ c.field = some f := by
    rw [← hchildren]
    exact ⟨Node.mem_children_of_child? hc, Node.field_of_child? hc⟩
  constructor
  · -- each shape says in which order its parts take their roles
    rw [hkind, hchildren]
    intro hordered
    refine inRoles_contents ?_ hleading
    unfold roleOrder at hordered
    split at hordered
    case h_1 | h_2 => exact hk.2.1
    case h_3 => exact hk.1
    case h_6 | h_7 => exact hk.2
    case h_4 | h_5 | h_8 | h_9 => exact hk
    case h_10 => exact absurd rfl hordered
  · rw [hkind]
    rintro (rfl | rfl) c hc
    · exact .inl (List.mem_singleton.1 (kind_of_allIn hk.2.2.1 hleading (found hc).1 (found hc).2))
    · exact .inr (List.mem_singleton.1 (kind_of_allIn hk.2 hleading (found hc).1 (found hc).2))
  · rw [hkind]
    rintro (rfl | rfl) c hc
    · exact List.mem_singleton.1 (kind_of_allIn hk.2.2.2 hleading (found hc).1 (found hc).2)
    · exact List.mem_singleton.1 (kind_of_allIn hk.2.2 hleading (found hc).1 (found hc).2)
  · rw [hkind, hchildren]
    rintro rfl
    -- behind the target of a clause there are idle nodes and operands, and nothing else
    obtain ⟨front, back, rfl, hfront, hback⟩ := hk
    obtain ⟨cs, hcs, hsub⟩ := contents_append front back
    refine ⟨_, cs, hcs, inRoles_contents hfront fun p hp =>
      hleading p (List.mem_append_left _ hp), fun c hc => ?_⟩
    obtain ⟨p, hp, hc⟩ := List.mem_flatMap.1 (hsub.subset hc)
    rcases List.mem_append.1 hc with hc | hc
    · have hextra := hleading p (List.mem_append_right _ hp) c hc
      exact .inl ⟨hextra.field, hextra.isIdle⟩
    · rcases hback p hp with hbare | ⟨q, rfl⟩
      · exact .inl (hbare c (Option.mem_toList.1 hc))
      · obtain ⟨⟨k, g, s, cs⟩, -, rfl⟩ := Option.map_eq_some_iff.1 (Option.mem_toList.1 hc)
        exact .inr rfl
  · rw [hkind, hchildren]
    rintro rfl c hc
    obtain ⟨p, hp, hc | hc⟩ := mem_contents hc
    · exact (hleading p hp c hc).isIdle.leaf
    · exact hk.2 p hp c hc

end

namespace Node.Arranged

variable {k : Kind} {f : Option Field} {s : Span} {cs : List Node}

theorem of_leaf : (Node.mk k f s []).Arranged where
  roles _ := .nil
  parameters _ _ h := by cases h
  body _ _ h := by cases h
  clause _ := ⟨[], [], rfl, .nil, nofun⟩
  dotted _ := nofun

/-- The kinds of nodes of which the order is asked. -/
def asked : List Kind :=
  [.functionDefinition, .classDefinition, .lambda, .assignment, .forStatement, .namedExpression,
    .aliasedImport, .defaultParameter, .typedDefaultParameter, .forInClause, .dottedName]

theorem of_kind (hk : k ∉ asked) : (Node.mk k f s cs).Arranged := by
  have hne : ∀ k' ∈ asked, k ≠ k' := fun k' hk' heq => hk (heq ▸ hk')
  have hordered : roleOrder k = [] := by
    unfold roleOrder
    split
    case h_10 => rfl
    all_goals exact absurd (by decide) hk
  constructor
  · exact fun h => absurd hordered h
  · exact fun h => (h.elim (hne _ (by decide)) (hne _ (by decide))).elim
  · exact fun h => (h.elim (hne _ (by decide)) (hne _ (by decide))).elim
  · exact fun h => (hne _ (by decide) h).elim
  · exact fun h => (hne _ (by decide) h).elim

end Node.Arranged

theorem arranged_byShape : ByShape Node.Arranged where
  leaf _ _ _ := .of_leaf
  build hk hleading hn := arranged_build hk hleading hn
  role := by
    rintro ⟨k, g, s, cs⟩ f h
    exact ⟨h.roles, h.parameters, h.body, h.clause, h.dotted⟩
  pattern := by
    rintro k f s cs (rfl | rfl | rfl)
    all_goals exact .of_kind (by decide)

/-- The constructs in the tree of a text are arranged by their roles. -/
theorem everywhere_arranged_parse (text : String) : (parse text).Everywhere Node.Arranged :=
  arranged_byShape.everywhere_parse (fun _ _ _ => .of_kind (by decide)) text

namespace Node.Arranged

variable {n c : Node}

/-- What is in a construct is idle or is what is found in its role. -/
theorem cases (h : n.Arranged) (hn : roleOrder n.kind ≠ []) (hc : c ∈ n.children) :
    c.IsIdle ∨ ∃ f ∈ roleOrder n.kind, n.child? f = some c := by
  have hroles := h.roles hn
  cases hf : c.field with
  | none => exact .inl (hroles.idle c hc hf)
  | some f =>
    exact .inr ⟨f, hroles.mem hc hf, hroles.find?_eq (nodup_roleOrder _) hc hf⟩

end Node.Arranged

end CrossRef.Syntax
