/-
  CrossRef.Proofs.Syntax.Grammar

  How the grammar makes its trees, where readers of trees rely on it. Trees are
  made of pieces of the right shape, so what follows from the shape of one node
  holds everywhere in the tree of a text (`ByShape.everywhere_parse`). That is
  so of what is asked of a node and its children (`Node.FollowsGrammar`): tokens
  are leaves, a call has its arguments behind its function, and a `from` import
  names what it takes by dotted names.
-/
import CrossRef.Proofs.Syntax.Names

namespace CrossRef.Syntax

/-! ## What follows from the shape -/

/-- What holds of a node because of how it is made: of leaves, of constructs of
    the right shape, of patterns, and whatever their role. -/
structure ByShape (P : Node → Prop) : Prop where
  leaf : ∀ (k : Kind) (f : Option Field) (s : Span), P (.mk k f s [])
  build : ∀ {k : Kind} {ps : List Part} {n : Node}, Shape k ps →
    (∀ p ∈ ps, ∀ e ∈ p.leading, e.IsExtra) → n ∈ (Part.build k ps).node → P n
  role : ∀ {n : Node} (f : Field), P n → P (n.withField f)
  pattern : ∀ {k : Kind} {f : Option Field} {s : Span} {cs : List Node},
    k = .listSplatPattern ∨ k = .tuplePattern ∨ k = .listPattern → P (.mk k f s cs)

namespace ByShape

variable {P : Node → Prop} (hP : ByShape P)
include hP

theorem everywhere_extra {n : Node} (h : n.IsExtra) : n.Everywhere P := by
  obtain ⟨t, -, rfl⟩ := h
  exact .mk (hP.leaf _ _ _) fun c hc => by cases hc

theorem everywhere_toPattern? {n m : Node} (h : n.Everywhere P) (hm : n.toPattern? = some m) :
    m.Everywhere P := by
  induction h generalizing m with
  | mk hn hcs ih =>
    rcases toPattern?_eq_some hm with rfl | ⟨k, ms, -, hms, rfl, hk⟩
    · exact .mk hn hcs
    · refine .mk (hP.pattern hk) fun d hd => ?_
      obtain ⟨c, hc, hcd⟩ := mem_patterns? hms d hd
      exact ih c hc hcd

/-- Whatever the lexemes, it holds everywhere in the trees that are made of them. -/
theorem everywhere_of_spelled {text : String} {s t : List Lexeme} {ps : List Part}
    (h : Spelled s t ps) (hs : ∀ l ∈ s, l.MadeOf (words text)) :
    ∀ p ∈ ps, ∀ n ∈ p.node, n.Everywhere P := by
  induction h with
  | nil => exact fun p hp => by cases hp
  | append h h' ih ih' =>
    intro p hp
    rcases List.mem_append.1 hp with hp | hp
    · exact ih hs p hp
    · exact ih' (fun l hl => hs l (h.isSuffix.subset hl)) p hp
  | mark =>
    intro p hp n hn
    cases List.mem_singleton.1 hp
    cases hn
  | leaf =>
    intro p hp n hn
    cases List.mem_singleton.1 hp
    cases hn
    exact .mk (hP.leaf _ _ _) fun c hc => by cases hc
  | @build s t k ps hk h ih =>
    intro p hp n hn
    cases List.mem_singleton.1 hp
    have hleading : ∀ p ∈ ps, ∀ e ∈ p.leading, e.IsExtra := fun p hp => (h.fits hs p hp).leading
    have hbuild := hP.build hk hleading hn
    cases hn
    refine .mk hbuild fun c hc => ?_
    obtain ⟨p, hp, hc | hc⟩ := mem_contents hc
    · exact hP.everywhere_extra (hleading p hp c hc)
    · exact ih hs p hp c hc
  | as h ih =>
    intro p hp n hn
    cases List.mem_singleton.1 hp
    obtain ⟨m, hm, rfl⟩ := Option.map_eq_some_iff.1 hn
    cases ih hs _ List.mem_cons_self m hm with
    | mk hnode hcs => exact .mk (hP.role _ hnode) hcs
  | target hn hpattern h ih =>
    intro p hp m hm
    cases List.mem_singleton.1 hp
    cases hm
    exact hP.everywhere_toPattern? (ih hs _ List.mem_cons_self _ hn) hpattern
  | behind hm h h' ih ih' =>
    intro p hp
    cases List.mem_singleton.1 hp
    intro n hn
    exact ih' (fun l hl => hs l (h.isSuffix.subset hl)) _ List.mem_cons_self n hn

/-- It holds everywhere in the tree of a text, if it holds of the module. -/
theorem everywhere_parse (hmodule : ∀ f s cs, P (.mk .module f s cs)) (text : String) :
    (parse text).Everywhere P := by
  have hmade : ∀ l ∈ lexemes (words text), l.MadeOf (words text) := fun _ hl =>
    madeOf_of_mem_lexemes hl
  obtain ⟨rest, ps, hspelled, hchildren⟩ := spelled_parse text
  have hall : ∀ c ∈ (parse text).children, c.Everywhere P := by
    rw [hchildren]
    intro c hc
    obtain ⟨p, hp, hc⟩ := List.mem_flatMap.1 hc
    rcases List.mem_append.1 hc with hc | hc
    · exact hP.everywhere_extra ((hspelled.fits hmade p hp).leading c hc)
    · exact hP.everywhere_of_spelled hspelled hmade p hp c (Option.mem_toList.1 hc)
  exact .mk (hmodule _ _ _) hall

end ByShape

/-! ## Nodes that follow the grammar -/

theorem Kind.eq_of_isNamed_eq_false {k : Kind} (h : k.isNamed = false) :
    k = .token ∨ k = .asToken := by
  unfold isNamed at h
  split at h
  · exact .inl rfl
  · exact .inr rfl
  · cases h

/-- The node has the children that the grammar gives to nodes of its kind. -/
structure Node.FollowsGrammar (n : Node) : Prop where
  leaf : n.kind = .identifier ∨ n.isNamed = false → n.children = []
  call : n.kind = .call → ∀ f a, n.child? .function = some f → n.child? .arguments = some a →
    [f, a].Sublist n.children
  imported : n.kind = .importFromStatement → ∀ c ∈ n.children, c.field = some .name →
    c.kind ∈ importedKinds
  renamed : n.kind = .aliasedImport → ∀ c, n.child? .name = some c → c.kind = .dottedName

namespace Node.FollowsGrammar

variable {k : Kind} {f : Option Field} {s : Span} {cs : List Node}

/-- A node without children follows the grammar, whatever it is. -/
theorem of_leaf : (Node.mk k f s []).FollowsGrammar where
  leaf _ := rfl
  call _ _ _ h := by cases h
  imported _ _ h := by cases h
  renamed _ _ h := by cases h

/-- The kinds of nodes of which the grammar asks something. -/
def asked : List Kind :=
  [.identifier, .token, .asToken, .call, .importFromStatement, .aliasedImport]

theorem of_kind (hk : k ∉ asked) : (Node.mk k f s cs).FollowsGrammar := by
  have hne : ∀ k' ∈ asked, k ≠ k' := fun k' hk' heq => hk (heq ▸ hk')
  constructor
  · rintro (h | h)
    · exact (hne _ (by decide) h).elim
    · rcases Kind.eq_of_isNamed_eq_false h with h | h
      · exact (hne _ (by decide) h).elim
      · exact (hne _ (by decide) h).elim
  · exact fun h => (hne _ (by decide) h).elim
  · exact fun h => (hne _ (by decide) h).elim
  · exact fun h => (hne _ (by decide) h).elim

end Node.FollowsGrammar

/-! ## Pieces -/

/-- Where all nodes in one role come first, a node in it comes before those in others. -/
theorem sublist_of_roles {ns ms : List Node} {f g : Field} (hfg : f ≠ g)
    (hns : ∀ n ∈ ns, n.field = some f) (hms : ∀ m ∈ ms, m.field ≠ some f) {a b : Node}
    (ha : (ns ++ ms).find? (·.field == some f) = some a)
    (hb : (ns ++ ms).find? (·.field == some g) = some b) : [a, b].Sublist (ns ++ ms) := by
  have hfield {r : Field} {c : Node} (hc : (ns ++ ms).find? (·.field == some r) = some c) :
      c.field = some r := by
    simpa using List.find?_some hc
  have hfirst : a ∈ ns := by
    rcases List.mem_append.1 (List.mem_of_find?_eq_some ha) with h | h
    · exact h
    · exact absurd (hfield ha) (hms a h)
  have hsecond : b ∈ ms := by
    rcases List.mem_append.1 (List.mem_of_find?_eq_some hb) with h | h
    · exact absurd (Option.some.inj ((hns b h).symm.trans (hfield hb))) hfg
    · exact h
  show ([a] ++ [b]).Sublist (ns ++ ms)
  exact .append (List.singleton_sublist.2 hfirst) (List.singleton_sublist.2 hsecond)

/-- What is in a role is of the kind of the pieces in it, since comments have none. -/
theorem kind_of_allIn {f : Field} {kinds : List Kind} {ps : List Part} (h : AllIn f kinds ps)
    (hleading : ∀ p ∈ ps, ∀ e ∈ p.leading, e.IsExtra) {c : Node} (hc : c ∈ Part.contents ps)
    (hfield : c.field = some f) : c.kind ∈ kinds := by
  obtain ⟨p, hp, hextra | hc⟩ := mem_contents hc
  · rw [(hleading p hp c hextra).field] at hfield
    cases hfield
  · exact h p hp c hc hfield

/-- A construct of pieces of the right shape follows the grammar. -/
theorem followsGrammar_build {k : Kind} {ps : List Part} (hk : Shape k ps)
    (hleading : ∀ p ∈ ps, ∀ e ∈ p.leading, e.IsExtra) {n : Node}
    (hn : n ∈ (Part.build k ps).node) : n.FollowsGrammar := by
  have hkind : n.kind = k := by
    cases hn
    rfl
  have hchildren : n.children = Part.contents ps := by
    cases hn
    rfl
  constructor
  · -- names and tokens are not built of pieces
    rw [Node.isNamed, hkind]
    rintro (rfl | hunnamed)
    · exact hk.elim
    · rcases Kind.eq_of_isNamed_eq_false hunnamed with rfl | rfl
      · exact hk.elim
      · exact hk.elim
  · -- the piece for the function comes first, and nothing else has its role
    rw [hkind]
    rintro rfl c a hc ha
    obtain ⟨p, q, rfl⟩ := hk
    rw [Node.child?, hchildren] at hc ha
    rw [hchildren]
    refine sublist_of_roles (by decide) (fun n hn => ?_) (fun n hn => ?_) hc ha
    · obtain ⟨m, -, rfl⟩ := Option.map_eq_some_iff.1 (Option.mem_toList.1 hn)
      cases m
      rfl
    · rw [List.flatMap_singleton] at hn
      rcases List.mem_append.1 hn with hn | hn
      · rw [(hleading (q.as .arguments) (List.mem_cons_of_mem _ List.mem_cons_self) n hn).field]
        exact (Option.some_ne_none _).symm
      · exact field_as_ne (by decide) n (Option.mem_toList.1 hn)
  · rw [hkind, hchildren]
    rintro rfl c hc hfield
    exact kind_of_allIn hk.2 hleading hc hfield
  · rw [hkind]
    rintro rfl c hc
    exact List.mem_singleton.1 (kind_of_firstIn hk.1.2 hleading hn hc)

theorem followsGrammar_byShape : ByShape Node.FollowsGrammar where
  leaf _ _ _ := .of_leaf
  build hk hleading hn := followsGrammar_build hk hleading hn
  -- nothing is asked about the role of the node itself
  role := by
    rintro ⟨k, g, s, cs⟩ f h
    exact ⟨h.leaf, h.call, h.imported, h.renamed⟩
  pattern := by
    rintro k f s cs (rfl | rfl | rfl)
    all_goals exact .of_kind (by decide)

/-- The tree of a text is made as the grammar makes it. -/
theorem everywhere_followsGrammar_parse (text : String) :
    (parse text).Everywhere Node.FollowsGrammar :=
  followsGrammar_byShape.everywhere_parse (fun _ _ _ => .of_kind (by decide)) text

end CrossRef.Syntax
