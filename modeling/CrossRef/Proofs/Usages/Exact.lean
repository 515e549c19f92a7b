/-
  CrossRef.Proofs.Usages.Exact

  Which names of a tree are usages (`exact_ofTree`). No two names with a text
  stand at the same place. That is why no name that can be reached is found
  twice, and why a name that is found is a child of one node only, which
  settles whether it is called (`eq_call_iff`).
-/
import CrossRef.Proofs.Usages.Reached
import Mathlib.Data.List.Forall2

namespace CrossRef.Usages

open CrossRef.Syntax

variable {n c x : Node} {k kind : UsageKind}

/-! ## Calls -/

/-- The name is the function of a call somewhere in the tree. -/
def IsCalled (root x : Node) : Prop :=
  ∃ n, root.Has n ∧ n.kind = .call ∧ n.child? .function = some x

/-- What the way leads to is a child of the node it comes from, if that is a child of
    a call at all. -/
theorem Leads.parent (h : Leads n c) (hn : n.Everywhere Node.FollowsGrammar) :
    ∃ a, n.Has a ∧ c ∈ a.children ∧ (a.kind = .call → a = n) := by
  cases h with
  | object _ hc | value _ hc | function _ hc | arguments _ hc =>
    exact ⟨n, n.has_self, Node.mem_children_of_child? hc, fun _ => rfl⟩
  | inside _ hc => exact ⟨n, n.has_self, hc, fun _ => rfl⟩
  | @imported m c hkind hm hc =>
    have hdotted : m.kind ≠ .call := by
      rw [hm.kind_eq hkind hn]
      decide
    exact ⟨m, .inr hm.below, hc, fun h => absurd h hdotted⟩

/-- A name is found as one that is called if and only if it is called. -/
theorem eq_call_iff {p : Node → Bool} (hn : n.Everywhere Node.FollowsGrammar)
    (hname : n.kind ≠ .identifier) (hnodup : (n.names.filter p).Nodup) (hp : p x = true)
    (h : (k, x) ∈ occurrences kind n) : k = .call ↔ IsCalled n x := by
  obtain ⟨hx, ⟨rfl, -⟩ | ⟨m, hm, hpart⟩⟩ := last_step kind n h
  · exact absurd hx hname
  have hpart := isPart_of_mem_parts hpart
  constructor
  · intro hk
    exact ⟨m, hm.has, hpart.function hk⟩
  · rintro ⟨b, hb, hcall, hfunction⟩
    have hxb := Node.mem_children_of_child? hfunction
    -- the call is the parent of the name, so it is the node that the name is a part of
    obtain ⟨a, ha, hxa, hcalled⟩ := hpart.leads.parent (hn.of_has hm.has)
    obtain rfl : a = b := Node.parent_unique n hnodup hx hp (hm.has.trans ha) hb hxa hxb
    obtain rfl := hcalled hcall
    by_contra hk
    -- the function of a call is not in the role of its arguments as well
    have harguments := Node.field_of_child? (hpart.arguments hcall hk)
    rw [Node.field_of_child? hfunction] at harguments
    cases harguments

/-! ## Where names stand -/

/-- The name covers some text. -/
def hasText (m : SourceMap) (x : Node) : Bool := m.text x != ""

/-- Names with a text stand at ascending positions, from left to right. -/
def NamesAscend (m : SourceMap) (root : Node) : Prop :=
  (root.names.filter (hasText m)).Pairwise fun a b => m.start a < m.start b

theorem startByte_lt_stopByte {m : SourceMap} (h : hasText m x = true) :
    x.span.startByte < x.span.stopByte := by
  by_contra hle
  have hzero : x.span.stopByte - x.span.startByte = 0 := by omega
  rw [hasText, SourceMap.text, hzero, bne_iff_ne] at h
  apply h
  cases dropBytes m.chars x.span.startByte with
  | none => rfl
  | some rest => cases rest <;> rfl

theorem namesAscend_of_liesOver {text : String} (hn : n.Everywhere Node.FollowsGrammar)
    (hlies : n.Everywhere (Node.LiesOver text.toList)) : NamesAscend (.ofText text) n := by
  rw [NamesAscend, List.pairwise_filter]
  -- the next name starts where this one ends at the earliest, which is behind its start
  apply (n.pairwise_names_of_nested hn (Node.nested_of_liesOver hlies)).imp_of_mem
  intro a b ha hb hab htext _
  have hover := (of_mem_names hlies ha).2
  exact lt_of_lt_of_le (position_lt hover.start hover.stop (startByte_lt_stopByte htext)) hab

theorem namesAscend_parse (text : String) : NamesAscend (.ofText text) (parse text) := by
  have hnames := List.pairwise_map.1 (pairwise_start_names text)
  rw [NamesAscend, names_parse_eq]
  exact hnames.filter _

/-! ## Usages -/

/-- The name makes a usage: it can be reached and has a text, which is neither
    reserved nor declared where the name stands. -/
structure IsUsed (src : Extraction.Source) (root : Node) (declarations : Array Declaration)
    (x : Node) : Prop where
  identifier : x.kind = .identifier
  reached : Reaches root x
  text : src.map.text x ≠ ""
  notReserved : Reserved.isReserved (src.map.text x) = false
  notDeclared : ∀ d ∈ declarations, ¬ (d.position = src.map.start x ∧ d.name = src.map.text x)

/-- `u` is the usage that the name makes. -/
structure IsUsageOf (src : Extraction.Source) (root x : Node) (u : Usage) : Prop where
  identifier : u.identifier = src.map.text x
  file : u.file = src.file
  position : u.position = src.map.start x
  kind : u.kind = .call ↔ IsCalled root x

/-- The usages are those of the names that make one, one for each, and they
    stand at ascending positions. -/
structure Exact (src : Extraction.Source) (root : Node) (declarations : Array Declaration)
    (usages : List Usage) : Prop where
  ascending : usages.Pairwise fun u v => u.position < v.position
  names : ∃ xs : List Node, xs.Nodup ∧ (∀ x, x ∈ xs ↔ IsUsed src root declarations x) ∧
    List.Forall₂ (IsUsageOf src root) xs usages

section

variable {src : Extraction.Source} {declared : Position → String → Bool}
variable {o : UsageKind × Node}

theorem isSome_usage? : (usage? src declared o).isSome = true ↔
    src.map.text o.2 ≠ "" ∧ Reserved.isReserved (src.map.text o.2) = false ∧
      declared (src.map.start o.2) (src.map.text o.2) = false := by
  rw [Option.isSome_iff_exists]
  constructor
  · rintro ⟨u, hu⟩
    exact (usage?_eq_some_iff.1 hu).1
  · exact fun h => ⟨_, usage?_eq_some_iff.2 ⟨h, rfl⟩⟩

theorem hasText_of_isSome (h : (usage? src declared o).isSome = true) :
    hasText src.map o.2 = true :=
  bne_iff_ne.2 (isSome_usage?.1 h).1

end

/-- What a function makes of members it makes something of, one by one. -/
theorem forall₂_filterMap {α β : Type} (f : α → Option β) (as : List α) :
    List.Forall₂ (fun a b => f a = some b) (as.filter fun a => (f a).isSome) (as.filterMap f) := by
  induction as with
  | nil => exact .nil
  | cons a as ih =>
    cases h : f a with
    | none => rwa [List.filter_cons_of_neg (by simp [h]), List.filterMap_cons_none h]
    | some b =>
      rw [List.filter_cons_of_pos (by simp [h]), List.filterMap_cons_some h]
      exact .cons h ih

/-- Whether a name is declared where it stands. -/
def declaredIn (declarations : Array Declaration) (p : Position) (name : String) : Bool :=
  declarations.any fun d => d.position == p && d.name == name

theorem declaredIn_eq_false {declarations : Array Declaration} {p : Position} {name : String} :
    declaredIn declarations p name = false ↔
      ∀ d ∈ declarations, ¬ (d.position = p ∧ d.name = name) := by
  rw [declaredIn, Array.any_eq_false']
  simp

section

variable {src : Extraction.Source} {root : Node} (declarations : Array Declaration)

/-- A root that is an ordinary construct is searched like one. -/
theorem ofTree_eq (hname : root.kind ≠ .identifier) (hordinary : root.kind ∉ special) :
    ofTree src root declarations =
      (occurrences .reference root).filterMap (usage? src (declaredIn declarations)) := by
  rw [occurrences_of_parts hname, parts_of_not_special hordinary, List.flatMap_map]
  rfl

/-- The names that make a usage, from left to right. -/
def used (src : Extraction.Source) (root : Node) (declarations : Array Declaration) : List Node :=
  ((occurrences .reference root).filter fun o =>
    (usage? src (declaredIn declarations) o).isSome).map Prod.snd

theorem mem_used (hgrammar : root.Everywhere Node.FollowsGrammar) :
    x ∈ used src root declarations ↔ IsUsed src root declarations x := by
  rw [used, List.mem_map]
  constructor
  · rintro ⟨⟨k, y⟩, ho, rfl⟩
    obtain ⟨hfound, hsome⟩ := List.mem_filter.1 ho
    obtain ⟨hx, hreached⟩ := (exists_mem_occurrences_iff hgrammar).1 ⟨k, hfound⟩
    obtain ⟨htext, hreserved, hdeclared⟩ := isSome_usage?.1 hsome
    exact ⟨hx, hreached, htext, hreserved, declaredIn_eq_false.1 hdeclared⟩
  · rintro ⟨hx, hreached, htext, hreserved, hdeclared⟩
    obtain ⟨k, hfound⟩ := exists_mem_occurrences hreached hx hgrammar .reference
    have hsome : (usage? src (declaredIn declarations) (k, x)).isSome = true :=
      isSome_usage?.2 ⟨htext, hreserved, declaredIn_eq_false.2 hdeclared⟩
    exact ⟨(k, x), List.mem_filter.2 ⟨hfound, hsome⟩, rfl⟩

theorem used_sublist (hgrammar : root.Everywhere Node.FollowsGrammar) :
    (used src root declarations).Sublist (root.names.filter (hasText src.map)) := by
  have hfound := (occurrences_sublist .reference root hgrammar).filter (hasText src.map)
  rw [List.filter_map] at hfound
  -- no name without a text makes a usage
  apply List.Sublist.trans _ hfound
  exact (List.monotone_filter_right _ fun o => hasText_of_isSome).map Prod.snd

theorem NamesAscend.nodup {m : SourceMap} (h : NamesAscend m root) :
    (root.names.filter (hasText m)).Nodup := by
  apply List.Pairwise.imp _ h
  rintro a _ hlt rfl
  exact lt_irrefl _ hlt

/-- One after another, the names that make a usage make these. -/
theorem forall₂_used (hname : root.kind ≠ .identifier) (hordinary : root.kind ∉ special)
    (hgrammar : root.Everywhere Node.FollowsGrammar) (hnames : NamesAscend src.map root) :
    List.Forall₂ (IsUsageOf src root) (used src root declarations)
      (ofTree src root declarations) := by
  rw [ofTree_eq declarations hname hordinary, used, List.forall₂_map_left_iff]
  let kept := (occurrences .reference root).filter fun o =>
    (usage? src (declaredIn declarations) o).isSome
  have hall := (List.forall₂_and_left _ _).2
    ⟨fun o (ho : o ∈ kept) => ho, forall₂_filterMap _ (occurrences .reference root)⟩
  apply hall.imp
  intro o u ⟨ho, hu⟩
  obtain ⟨hfound, hsome⟩ := List.mem_filter.1 ho
  obtain ⟨-, rfl⟩ := usage?_eq_some_iff.1 hu
  have hcall := eq_call_iff hgrammar hname hnames.nodup (hasText_of_isSome hsome) hfound
  exact ⟨rfl, rfl, rfl, hcall⟩

/-- Usages stand where their names do. -/
theorem map_position_of_forall₂ {xs : List Node} {usages : List Usage}
    (h : List.Forall₂ (IsUsageOf src root) xs usages) :
    usages.map Usage.position = xs.map src.map.start := by
  induction h with
  | nil => rfl
  | cons hu _ ih => rw [List.map_cons, List.map_cons, hu.position, ih]

/-- Where names ascend, the usages are exactly those of the names that make one. -/
theorem exact_of_namesAscend (hname : root.kind ≠ .identifier) (hordinary : root.kind ∉ special)
    (hgrammar : root.Everywhere Node.FollowsGrammar) (hnames : NamesAscend src.map root) :
    Exact src root declarations (ofTree src root declarations) := by
  have hsublist : (used src root declarations).Sublist (root.names.filter (hasText src.map)) :=
    used_sublist declarations hgrammar
  have hall := forall₂_used declarations hname hordinary hgrammar hnames
  constructor
  · apply List.pairwise_map.1
    rw [map_position_of_forall₂ hall]
    exact List.pairwise_map.2 (List.Pairwise.sublist hsublist hnames)
  · exact ⟨used src root declarations, hnames.nodup.sublist hsublist,
      fun x => mem_used declarations hgrammar, hall⟩

/-- **The usages of a file are exactly those of the names that make one.** In a
    tree of an ordinary construct, as a module is, whose nodes lie over the text
    one after another and inside each other, every name that the way from the
    root leads to, that has a text and is neither reserved nor declared where it
    stands, makes one usage; it is a call if and only if the name is the function
    of a call; and there are no others. They come at strictly ascending positions. -/
theorem exact_ofTree (file text : String) (hname : root.kind ≠ .identifier)
    (hordinary : root.kind ∉ special) (hgrammar : root.Everywhere Node.FollowsGrammar)
    (hlies : root.Everywhere (Node.LiesOver text.toList)) :
    Exact ⟨file, .ofText text⟩ root declarations
      (ofTree ⟨file, .ofText text⟩ root declarations) :=
  exact_of_namesAscend declarations hname hordinary hgrammar
    (namesAscend_of_liesOver hgrammar hlies)

/-- A name that is imported and renamed, a call and a keyword argument. -/
def renamedText : String := "from m import a as b\nf(b.c, k=f, s='t')\n"

theorem exact_ofTree_renamedText :
    let src : Extraction.Source := ⟨"m.py", .ofText renamedText⟩
    let root := parse renamedText
    let declarations : Array Declaration := #[⟨"b", .variable, "m.py", 1, 19, 0⟩]
    root.kind ≠ .identifier ∧ root.kind ∉ special ∧ root.Everywhere Node.FollowsGrammar ∧
      root.Everywhere (Node.LiesOver renamedText.toList) ∧
      Exact src root declarations (ofTree src root declarations) ∧
      (ofTree src root declarations).map (fun u => (u.identifier, u.kind, u.column)) =
        [("a", .reference, 14), ("f", .call, 0), ("b", .reference, 2), ("f", .reference, 9)] := by
  intro src root declarations
  have hname : root.kind ≠ .identifier := by decide
  have hordinary : root.kind ∉ special := by decide
  have hgrammar : root.Everywhere Node.FollowsGrammar :=
    everywhere_followsGrammar_parse renamedText
  have hlies : root.Everywhere (Node.LiesOver renamedText.toList) := by decide +kernel
  exact ⟨hname, hordinary, hgrammar, hlies,
    exact_ofTree declarations "m.py" renamedText hname hordinary hgrammar hlies, by decide +kernel⟩

/-- Whatever the text, its usages are exactly those of the names of its tree
    that make one. -/
theorem exact_parse (file text : String) :
    Exact ⟨file, .ofText text⟩ (parse text) declarations
      (ofTree ⟨file, .ofText text⟩ (parse text) declarations) :=
  exact_of_namesAscend declarations (show Kind.module ≠ .identifier by decide)
    (show Kind.module ∉ special by decide) (everywhere_followsGrammar_parse text)
    (namesAscend_parse text)

end

end CrossRef.Usages
