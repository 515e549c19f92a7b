/-
  CrossRef.Proofs.Usages.Reached

  Where usages are looked for. The search goes from a node to some of the nodes
  below it (`Leads`), and what it finds are the names that can be reached that
  way (`exists_mem_occurrences_iff`): nothing else, because it only goes where
  the way leads, and all of them, because it goes wherever the way leads. It
  goes from left to right, so it finds them in the order of the tree
  (`occurrences_sublist`).
-/
import CrossRef.Proofs.Syntax.Parents
import CrossRef.Usages
import Mathlib.Logic.Relation

namespace CrossRef.Usages

open CrossRef.Syntax

variable {n m c x : Node} {k kind : UsageKind}

/-! ## Where usages are looked for -/

/-- The `from` import `n` takes the name `m` out of its module, whatever it is
    called afterwards. -/
inductive Imports (n : Node) : Node → Prop where
  | plain {m : Node} : m ∈ n.children → m.field = some .name → m.kind ≠ .aliasedImport →
      Imports n m
  | renamed {r m : Node} : r ∈ n.children → r.field = some .name → r.kind = .aliasedImport →
      r.child? .name = some m → Imports n m

/-- The constructs in which nothing is used: imports of modules, statements about
    scopes, and what is no code. -/
def closed : List Kind :=
  [.importStatement, .globalStatement, .nonlocalStatement, .string, .concatenatedString, .comment]

/-- The constructs that are looked into in a way of their own, or not at all. -/
def special : List Kind := [.member, .keywordArgument, .call, .importFromStatement] ++ closed

/-- Usages in `n` are looked for in `c`: in the object of an attribute, the value
    of a keyword argument, the function and the arguments of a call, the parts
    of a name that is imported, and in every child of an ordinary construct. -/
inductive Leads (n : Node) : Node → Prop where
  | object {c : Node} : n.kind = .member → n.child? .object = some c → Leads n c
  | value {c : Node} : n.kind = .keywordArgument → n.child? .value = some c → Leads n c
  | function {c : Node} : n.kind = .call → n.child? .function = some c → Leads n c
  | arguments {c : Node} : n.kind = .call → n.child? .arguments = some c → Leads n c
  | imported {m c : Node} : n.kind = .importFromStatement → Imports n m → c ∈ m.children →
      Leads n c
  | inside {c : Node} : n.kind ∉ special → c ∈ n.children → Leads n c

/-- The way down from `root` leads to `x`. -/
def Reaches (root x : Node) : Prop := Relation.ReflTransGen Leads root x

theorem Imports.below (h : Imports n m) : n.Below m := by
  cases h with
  | plain hm => exact .child hm
  | renamed hr _ _ hm => exact .further (.child hr) (Node.mem_children_of_child? hm)

theorem Leads.below (h : Leads n c) : n.Below c := by
  cases h with
  | object _ hc | value _ hc | function _ hc | arguments _ hc => exact Node.below_of_child? hc
  | imported _ hm hc => exact .further hm.below hc
  | inside _ hc => exact .child hc

/-- The way goes from a node to its children, but for what is imported. -/
theorem Leads.mem_children (h : Leads n c) (hkind : n.kind ≠ .importFromStatement) :
    c ∈ n.children := by
  cases h with
  | object _ hc | value _ hc | function _ hc | arguments _ hc =>
    exact Node.mem_children_of_child? hc
  | imported himport => exact absurd himport hkind
  | inside _ hc => exact hc

theorem Leads.not_mem_closed (h : Leads n c) : n.kind ∉ closed := by
  cases h with
  | object hkind | value hkind | function hkind | arguments hkind | imported hkind =>
    rw [hkind]
    decide
  | inside hspecial => exact fun hclosed => hspecial (List.mem_append_right _ hclosed)

/-- What is imported is a dotted name. -/
theorem Imports.kind_eq (h : Imports n m) (hkind : n.kind = .importFromStatement)
    (hn : n.Everywhere Node.FollowsGrammar) : m.kind = .dottedName := by
  cases h with
  | plain hm hfield hplain =>
    have himported := hn.here.imported hkind m hm hfield
    rcases List.mem_pair.1 himported with h | h
    · exact h
    · exact absurd h hplain
  | renamed hr _ hrenamed hm => exact (hn.of_mem_children _ hr).here.renamed hrenamed m hm

/-- A leaf leads nowhere. -/
theorem Leads.children_ne_nil (h : Leads n c) : n.children ≠ [] := by
  intro hnil
  obtain ⟨d, hd, -⟩ := Node.below_iff.1 h.below
  rw [hnil] at hd
  cases hd

/-! ## One step -/

theorem mem_importedParts : c ∈ importedParts n ↔ ∃ m, Imports n m ∧ c ∈ m.namedChildren := by
  simp only [importedParts, List.mem_flatMap, List.mem_filter, beq_iff_eq]
  constructor
  · rintro ⟨r, ⟨hr, hfield⟩, m, hm, hc⟩
    split at hm
    · exact ⟨m, .renamed hr hfield ‹_› (Option.mem_toList.1 hm), hc⟩
    · cases List.mem_singleton.1 hm
      exact ⟨r, .plain hr hfield ‹_›, hc⟩
  · rintro ⟨m, hm, hc⟩
    cases hm with
    | plain hm hfield hkind =>
      exact ⟨m, ⟨hm, hfield⟩, m, by rw [if_neg hkind]; exact List.mem_singleton_self m, hc⟩
    | renamed hr hfield hkind hm =>
      exact ⟨_, ⟨hr, hfield⟩, m, by rw [if_pos hkind]; exact Option.mem_toList.2 hm, hc⟩

theorem mem_child_map {f : Field} {j : UsageKind} :
    (k, c) ∈ (n.child? f).toList.map (fun c => (j, c)) ↔ k = j ∧ n.child? f = some c := by
  simp only [List.mem_map, Option.mem_toList, Prod.mk.injEq]
  constructor
  · rintro ⟨d, hd, rfl, rfl⟩
    exact ⟨rfl, hd⟩
  · rintro ⟨rfl, hc⟩
    exact ⟨c, hc, rfl, rfl⟩

theorem parts_of_closed (h : n.kind ∈ closed) : parts n = [] := by
  simp only [closed, List.mem_cons, List.not_mem_nil, or_false] at h
  rcases h with h | h | h | h | h | h
  all_goals simp [parts, h, Kind.isLiteralText]

theorem parts_of_not_special (h : n.kind ∉ special) :
    parts n = n.namedChildren.map fun c => (.reference, c) := by
  have hliteral : n.kind.isLiteralText = false := by
    by_contra hliteral
    rw [Bool.not_eq_false] at hliteral
    unfold Kind.isLiteralText at hliteral
    split at hliteral
    · exact h (by rw [‹n.kind = _›]; decide)
    · exact h (by rw [‹n.kind = _›]; decide)
    · exact h (by rw [‹n.kind = _›]; decide)
    · cases hliteral
  unfold parts
  split
  case h_8 => simp [hliteral]
  all_goals exact absurd (by rw [‹n.kind = _›]; decide) h

/-- What a part of `n` is: the way leads to it, and the one that is called is the
    function of a call. -/
structure IsPart (n : Node) (k : UsageKind) (c : Node) : Prop where
  leads : Leads n c
  function : k = .call → n.kind = .call ∧ n.child? .function = some c
  arguments : n.kind = .call → k ≠ .call → n.child? .arguments = some c

/-- In a construct that is no call nothing is called. -/
theorem IsPart.of_kind_ne_call (h : Leads n c) (hkind : n.kind ≠ .call) :
    IsPart n .reference c where
  leads := h
  function hk := by cases hk
  arguments h := absurd h hkind

theorem isPart_of_mem_parts (h : (k, c) ∈ parts n) : IsPart n k c := by
  by_cases hspecial : n.kind ∈ special
  · rcases List.mem_append.1 hspecial with hkind | hclosed
    · simp only [List.mem_cons, List.not_mem_nil, or_false] at hkind
      rcases hkind with hkind | hkind | hkind | hkind
      · simp only [parts, hkind] at h
        obtain ⟨rfl, hc⟩ := mem_child_map.1 h
        exact .of_kind_ne_call (.object hkind hc) (by simp [hkind])
      · simp only [parts, hkind] at h
        obtain ⟨rfl, hc⟩ := mem_child_map.1 h
        exact .of_kind_ne_call (.value hkind hc) (by simp [hkind])
      · simp only [parts, hkind, List.mem_append] at h
        rcases h with h | h
        · obtain ⟨rfl, hc⟩ := mem_child_map.1 h
          exact ⟨.function hkind hc, fun _ => ⟨hkind, hc⟩, fun _ hk => absurd rfl hk⟩
        · obtain ⟨rfl, hc⟩ := mem_child_map.1 h
          exact ⟨.arguments hkind hc, fun hk => absurd hk (by decide), fun _ _ => hc⟩
      · simp only [parts, hkind] at h
        obtain ⟨d, hd, heq⟩ := List.mem_map.1 h
        obtain ⟨rfl, rfl⟩ := Prod.mk.inj heq
        obtain ⟨m, hm, hd⟩ := mem_importedParts.1 hd
        have hleads : Leads n d := .imported hkind hm (List.mem_filter.1 hd).1
        exact .of_kind_ne_call hleads (by simp [hkind])
    · rw [parts_of_closed hclosed] at h
      cases h
  · rw [parts_of_not_special hspecial] at h
    obtain ⟨d, hd, heq⟩ := List.mem_map.1 h
    obtain ⟨rfl, rfl⟩ := Prod.mk.inj heq
    have hkind : n.kind ≠ .call := fun hcall => hspecial (by rw [hcall]; decide)
    exact .of_kind_ne_call (.inside hspecial (List.mem_filter.1 hd).1) hkind

/-- Wherever the way leads there is a part, unless it is a bare token. -/
theorem exists_mem_parts (h : Leads n c) (hc : c.isNamed = true) : ∃ k, (k, c) ∈ parts n := by
  cases h with
  | object hkind hchild =>
    exact ⟨.reference, by simp only [parts, hkind]; exact mem_child_map.2 ⟨rfl, hchild⟩⟩
  | value hkind hchild =>
    exact ⟨.reference, by simp only [parts, hkind]; exact mem_child_map.2 ⟨rfl, hchild⟩⟩
  | function hkind hchild =>
    refine ⟨.call, ?_⟩
    simp only [parts, hkind]
    exact List.mem_append_left _ (mem_child_map.2 ⟨rfl, hchild⟩)
  | arguments hkind hchild =>
    refine ⟨.reference, ?_⟩
    simp only [parts, hkind]
    exact List.mem_append_right _ (mem_child_map.2 ⟨rfl, hchild⟩)
  | imported hkind hm hchild =>
    refine ⟨.reference, ?_⟩
    simp only [parts, hkind]
    exact List.mem_map_of_mem (mem_importedParts.2 ⟨_, hm, List.mem_filter.2 ⟨hchild, hc⟩⟩)
  | inside hspecial hchild =>
    refine ⟨.reference, ?_⟩
    rw [parts_of_not_special hspecial]
    exact List.mem_map_of_mem (List.mem_filter.2 ⟨hchild, hc⟩)

/-! ## The whole way -/

/-- A name that is found is the node itself, or a part of a node in it that the
    way leads to. -/
theorem last_step (kind : UsageKind) (n : Node) {k : UsageKind} {x : Node}
    (h : (k, x) ∈ occurrences kind n) :
    x.kind = .identifier ∧ ((x = n ∧ k = kind) ∨ ∃ m, Reaches n m ∧ (k, x) ∈ parts m) := by
  by_cases hname : n.kind = .identifier
  · rw [occurrences_of_identifier hname] at h
    obtain ⟨rfl, rfl⟩ := Prod.mk.inj (List.mem_singleton.1 h)
    exact ⟨hname, .inl ⟨rfl, rfl⟩⟩
  · rw [occurrences_of_parts hname] at h
    obtain ⟨⟨j, c⟩, hc, h⟩ := List.mem_flatMap.1 h
    have : c.size < n.size := size_lt_of_mem_parts hc
    obtain ⟨hx, ⟨rfl, rfl⟩ | ⟨m, hm, hpart⟩⟩ := last_step j c h
    · exact ⟨hx, .inr ⟨n, .refl, hc⟩⟩
    · exact ⟨hx, .inr ⟨m, .head (isPart_of_mem_parts hc).leads hm, hpart⟩⟩
termination_by n.size

theorem Reaches.has (h : Reaches n x) : n.Has x := by
  induction h with
  | refl => exact n.has_self
  | tail _ hstep ih => exact ih.trans (.inr hstep.below)

theorem reaches_of_mem_occurrences (h : (k, x) ∈ occurrences kind n) : Reaches n x := by
  obtain ⟨-, ⟨rfl, -⟩ | ⟨m, hm, hpart⟩⟩ := last_step kind n h
  · exact .refl
  · exact hm.tail (isPart_of_mem_parts hpart).leads

/-- Every name that can be reached is found. -/
theorem exists_mem_occurrences (h : Reaches n x) (hx : x.kind = .identifier)
    (hn : n.Everywhere Node.FollowsGrammar) (kind : UsageKind) :
    ∃ k, (k, x) ∈ occurrences kind n := by
  induction h using Relation.ReflTransGen.head_induction_on generalizing kind with
  | refl =>
    rw [occurrences_of_identifier hx]
    exact ⟨kind, List.mem_singleton_self _⟩
  | @head n c hstep hreach ih =>
    have hc : c.Everywhere Node.FollowsGrammar := hn.of_below hstep.below
    have hname : n.kind ≠ .identifier := fun h => hstep.children_ne_nil (hn.here.leaf (.inl h))
    -- a bare token is a leaf and no name, so nothing is reached from it
    have hnamed : c.isNamed = true := by
      by_contra htoken
      rw [Bool.not_eq_true] at htoken
      rcases Relation.ReflTransGen.cases_head hreach with rfl | ⟨d, hd, -⟩
      · rw [Node.isNamed, hx] at htoken
        cases htoken
      · exact hd.children_ne_nil (hc.here.leaf (.inr htoken))
    obtain ⟨j, hpart⟩ := exists_mem_parts hstep hnamed
    obtain ⟨k, hk⟩ := ih hc j
    rw [occurrences_of_parts hname]
    exact ⟨k, List.mem_flatMap_of_mem hpart hk⟩

/-- What is found are the names that can be reached. -/
theorem exists_mem_occurrences_iff (hn : n.Everywhere Node.FollowsGrammar) :
    (∃ k, (k, x) ∈ occurrences kind n) ↔ x.kind = .identifier ∧ Reaches n x := by
  constructor
  · rintro ⟨k, h⟩
    exact ⟨(last_step kind n h).1, reaches_of_mem_occurrences h⟩
  · rintro ⟨hx, h⟩
    exact exists_mem_occurrences h hx hn kind

/-! ## From left to right -/

theorem names_importedParts_sublist (n : Node) :
    ((importedParts n).flatMap Node.names).Sublist n.names := by
  rw [importedParts, List.flatMap_assoc]
  refine .trans (.flatMap_right _ fun c _ => ?_) (Node.flatMap_names_sublist List.filter_sublist)
  have hparts (m : Node) : (m.namedChildren.flatMap Node.names).Sublist m.names :=
    Node.flatMap_names_sublist List.filter_sublist
  rw [List.flatMap_assoc]
  refine .trans (.flatMap_right _ fun m _ => hparts m) ?_
  split
  · exact Node.flatMap_names_sublist (c.toList_child?_sublist .name)
  · rw [List.flatMap_singleton]

/-- The parts of a node come in the order of the text. -/
theorem names_parts_sublist (hn : n.FollowsGrammar) :
    ((parts n).flatMap fun p => p.2.names).Sublist n.names := by
  have single (j : UsageKind) (f : Field) :
      (((n.child? f).toList.map fun c => (j, c)).flatMap fun p => p.2.names).Sublist n.names := by
    rw [List.flatMap_map]
    exact Node.flatMap_names_sublist (n.toList_child?_sublist f)
  unfold parts
  split
  · exact single _ _
  · exact single _ _
  · rename_i hcall
    rw [List.flatMap_append, List.flatMap_map, List.flatMap_map, ← List.flatMap_append]
    apply Node.flatMap_names_sublist
    cases hf : n.child? .function with
    | none => exact n.toList_child?_sublist .arguments
    | some f =>
      cases ha : n.child? .arguments with
      | none => exact List.singleton_sublist.2 (Node.mem_children_of_child? hf)
      | some a => exact hn.call hcall f a hf ha
  · rw [List.flatMap_map]
    exact names_importedParts_sublist n
  · exact List.nil_sublist _
  · exact List.nil_sublist _
  · exact List.nil_sublist _
  · split
    · exact List.nil_sublist _
    · rw [List.flatMap_map]
      exact Node.flatMap_names_sublist List.filter_sublist

/-- The names that are found are some of the names of the tree, in their order. -/
theorem occurrences_sublist (kind : UsageKind) (n : Node) (hn : n.Everywhere Node.FollowsGrammar) :
    ((occurrences kind n).map Prod.snd).Sublist n.names := by
  by_cases hname : n.kind = .identifier
  · rw [occurrences_of_identifier hname]
    exact Node.singleton_sublist_names hname
  · -- each part has its names in order, and the parts come in order
    rw [occurrences_of_parts hname, List.map_flatMap]
    refine .trans (.flatMap_right _ fun p hp => ?_) (names_parts_sublist hn.here)
    have : p.2.size < n.size := size_lt_of_mem_parts hp
    exact occurrences_sublist p.1 p.2 (hn.of_below (isPart_of_mem_parts hp).leads.below)
termination_by n.size

end CrossRef.Usages
