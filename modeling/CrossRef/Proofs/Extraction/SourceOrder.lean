/-
  CrossRef.Proofs.Extraction.SourceOrder

  How the list of declarations goes with the text. The walk goes into what a
  function returns before its parameters, although it stands behind them, and
  binds names in both. Apart from that it goes from left to right. So of two
  declarations the one that stands first comes first, unless it is in the
  parameters of a function and the other one in what the function returns
  (`declarations_listed`).
-/
import CrossRef.Job
import CrossRef.Proofs.Extraction.WalkOrder
import CrossRef.Proofs.Syntax.Parents

namespace CrossRef

open CrossRef.Syntax

/-! ## Names that cross -/

namespace Syntax.Node

/-- The name `a` is in the parameters of a function in the tree, and the name
    `b` in what the function returns. -/
def Crosses (root a b : Node) : Prop :=
  ∃ n ps r, root.Has n ∧ n.kind = .functionDefinition ∧ n.child? .parameters = some ps ∧
    n.child? .returnType = some r ∧ a ∈ ps.names ∧ b ∈ r.names

variable {m : SourceMap} {root n a b c d : Node}

/-- The names of the node stand at ascending positions. -/
def Ascends (m : SourceMap) (n : Node) : Prop :=
  n.names.Pairwise fun a b => m.start a < m.start b

theorem Ascends.of_has (h : root.Ascends m) (hn : root.Has n) : n.Ascends m :=
  List.Pairwise.sublist (names_sublist_of_has hn) h

theorem Ascends.lt_of_children (h : n.Ascends m) (hcd : [c, d].Sublist n.children)
    (ha : a ∈ c.names) (hb : b ∈ d.names) : m.start a < m.start b := by
  have hab : [a, b].Sublist n.names := by
    refine .trans ?_ (flatMap_names_sublist hcd)
    rw [List.flatMap_cons, List.flatMap_singleton]
    exact (List.singleton_sublist.2 ha).append (List.singleton_sublist.2 hb)
  exact List.pairwise_iff_forall_sublist.1 h hab

theorem Crosses.mem_names (h : root.Crosses a b) : a ∈ root.names ∧ b ∈ root.names := by
  obtain ⟨n, ps, r, hn, -, hps, hr, ha, hb⟩ := h
  have inside {f : Field} {c : Node} (hc : n.child? f = some c) : root.Has c :=
    hn.trans (.inr (below_of_child? hc))
  exact ⟨(names_sublist_of_has (inside hps)).subset ha,
    (names_sublist_of_has (inside hr)).subset hb⟩

/-- Names that cross stand in the order of the text. -/
theorem Crosses.lt (h : root.Crosses a b) (hroot : root.Everywhere Arranged)
    (hasc : root.Ascends m) : m.start a < m.start b := by
  obtain ⟨n, ps, r, hn, hkind, hps, hr, ha, hb⟩ := h
  have hroles : ([Field.parameters, .returnType].filterMap n.child?).Sublist n.children :=
    (hroot.of_has hn).here.roles_sublist (by rw [hkind]; decide)
  rw [List.filterMap_cons_some hps, List.filterMap_cons_some hr] at hroles
  exact (hasc.of_has hn).lt_of_children hroles ha hb

/-! ## Crossing names in the walk -/

theorem IsIdle.names (h : n.IsIdle) : n.names = [] := by
  rw [names_of_ne h.kind, h.leaf]
  rfl

/-- The walk goes into every child with a name in it. -/
theorem Arranged.mem_walkedChildren (h : n.Arranged) (hc : c ∈ n.children) :
    c.IsIdle ∨ c ∈ n.walkedChildren := by
  by_cases hkind : n.kind = .functionDefinition
  · rcases h.cases (by rw [hkind]; decide) hc with hidle | ⟨f, hf, hchild⟩
    · exact .inl hidle
    · right
      have hall : ∀ g ∈ roleOrder .functionDefinition, g ∈ walkRoles := by decide
      rw [hkind] at hf
      rw [walkedChildren, if_pos hkind]
      exact List.mem_filterMap.2 ⟨f, hall f hf, hchild⟩
  · rw [walkedChildren_of_ne hkind]
    exact .inr hc

theorem walked_sublist_of_mem_children (h : n.Arranged) (hc : c ∈ n.children) :
    c.walked.Sublist n.walked := by
  rcases h.mem_walkedChildren hc with hidle | hwalked
  · rw [hidle.walked]
    exact List.nil_sublist _
  · have hall := flatMap_walked_sublist (List.singleton_sublist.2 hwalked)
    rwa [List.flatMap_singleton] at hall

theorem walked_sublist_of_has (hroot : root.Everywhere Arranged) (hn : root.Has n) :
    n.walked.Sublist root.walked := by
  rcases hn with rfl | hn
  · exact .refl _
  · induction hn with
    | child hc => exact walked_sublist_of_mem_children hroot.here hc
    | further hb hc ih =>
      exact (walked_sublist_of_mem_children (hroot.of_below hb).here hc).trans ih

/-- The walk comes to every name. -/
theorem mem_walked_of_mem_names {n : Node} (hn : n.Everywhere Arranged) (ha : a ∈ n.names) :
    a ∈ n.walked := by
  rw [n.names_eq] at ha
  rw [n.walked_eq]
  rcases List.mem_append.1 ha with ha | ha
  · exact List.mem_append_left _ ha
  · obtain ⟨c, hc, ha⟩ := List.mem_flatMap.1 ha
    have : c.size < n.size := size_lt_of_mem hc
    have hwalked := mem_walked_of_mem_names (hn.of_mem_children c hc) ha
    rcases hn.here.mem_walkedChildren hc with hidle | hmem
    · rw [hidle.names] at ha
      cases ha
    · exact List.mem_append_right _ (List.mem_flatMap_of_mem hmem hwalked)
termination_by n.size

/-- The walk comes to names that cross in reverse. -/
theorem Crosses.sublist_walked (h : root.Crosses a b) (hroot : root.Everywhere Arranged) :
    [b, a].Sublist root.walked := by
  obtain ⟨n, ps, r, hn, hkind, hps, hr, ha, hb⟩ := h
  have inside {f : Field} {c : Node} (hc : n.child? f = some c) : c.Everywhere Arranged :=
    (hroot.of_has hn).of_below (below_of_child? hc)
  have hroles : [r, ps].Sublist n.walkedChildren := by
    have hsub : [Field.returnType, .parameters].Sublist walkRoles := by decide
    have hall := hsub.filterMap n.child?
    rwa [List.filterMap_cons_some hr, List.filterMap_cons_some hps, List.filterMap_nil,
      ← if_pos hkind (t := walkRoles.filterMap n.child?) (e := n.children)] at hall
  have hba : [b, a].Sublist ([r, ps].flatMap walked) := by
    rw [List.flatMap_cons, List.flatMap_singleton]
    exact (List.singleton_sublist.2 (mem_walked_of_mem_names (inside hr) hb)).append
      (List.singleton_sublist.2 (mem_walked_of_mem_names (inside hps) ha))
  exact (hba.trans (flatMap_walked_sublist hroles)).trans (walked_sublist_of_has hroot hn)

/-- One role comes before another in the walk if it does in the text, or if it is
    that of what a function returns and the other one that of its parameters. -/
theorem pairwise_walkRoles : walkRoles.Pairwise fun f g =>
    [f, g].Sublist (roleOrder .functionDefinition) ∨ (f = .returnType ∧ g = .parameters) := by
  decide

/-- Names that the walk comes to one after the other stand so in the text, or cross. -/
theorem pairwise_walked (hroot : root.Everywhere WellMade) (hasc : root.Ascends m)
    {n : Node} (hn : root.Has n) :
    n.walked.Pairwise fun a b => m.start a < m.start b ∨ root.Crosses b a := by
  have hmade : n.Everywhere WellMade := hroot.of_has hn
  by_cases hname : n.kind = .identifier
  · -- a name is a leaf
    have hnone : n.walkedChildren = [] :=
      List.subperm_nil.1 (hmade.here.follows.leaf (.inl hname) ▸ n.walkedChildren_subperm)
    rw [n.walked_eq, if_pos hname, hnone]
    exact List.pairwise_singleton ..
  rw [n.walked_eq, if_neg hname, List.nil_append, List.pairwise_flatMap]
  constructor
  · intro c hc
    have hmem : c ∈ n.children := n.walkedChildren_subperm.subset hc
    have : c.size < n.size := size_lt_of_mem hmem
    exact pairwise_walked hroot hasc (hn.trans (has_of_mem_children hmem))
  have between {c d : Node} (hcd : [c, d].Sublist n.children) : ∀ a ∈ c.walked, ∀ b ∈ d.walked,
      m.start a < m.start b ∨ root.Crosses b a := fun a ha b hb =>
    .inl ((hasc.of_has hn).lt_of_children hcd (c.walked_subperm_names.subset ha)
      (d.walked_subperm_names.subset hb))
  by_cases hkind : n.kind = .functionDefinition
  · rw [walkedChildren, if_pos hkind, List.pairwise_filterMap]
    refine pairwise_walkRoles.imp fun {f g} hfg c hc d hd => ?_
    rcases hfg with hfg | ⟨rfl, rfl⟩
    · have hroles : ([f, g].filterMap n.child?).Sublist n.children :=
        hmade.here.arranged.roles_sublist (hkind ▸ hfg)
      rw [List.filterMap_cons_some hc, List.filterMap_cons_some hd] at hroles
      exact between hroles
    · exact fun a ha b hb => .inr ⟨n, d, c, hn, hkind, hd, hc,
        d.walked_subperm_names.subset hb, c.walked_subperm_names.subset ha⟩
  · rw [walkedChildren_of_ne hkind]
    exact List.pairwise_iff_forall_sublist.2 between
termination_by n.size

/-- Without repetition no two members come both before and behind each other. -/
theorem not_sublist_swap {ns : List Node} (hns : ns.Nodup) (hab : [a, b].Sublist ns) :
    ¬ [b, a].Sublist ns := by
  intro hba
  induction ns with
  | nil => cases hab
  | cons c ns ih =>
    obtain ⟨hc, hns⟩ := List.nodup_cons.1 hns
    have second {a b : Node} (h : [a, b].Sublist ns) : b ∈ ns :=
      h.subset (List.mem_cons_of_mem _ List.mem_cons_self)
    rcases List.sublist_cons_iff.1 hab with hfirst | ⟨_, hac, hb⟩
    · rcases List.sublist_cons_iff.1 hba with hfirst' | ⟨_, hbc, -⟩
      · exact ih hns hfirst hfirst'
      · cases hbc
        exact hc (second hfirst)
    · cases hac
      rcases List.sublist_cons_iff.1 hba with hfirst' | ⟨_, hbc, -⟩
      · exact hc (second hfirst')
      · cases hbc
        exact hc (List.singleton_sublist.1 hb)

/-- Of two names that the walk comes to one after the other, the first one stands
    first, or they cross the other way round. -/
theorem pairwise_walked_iff (hroot : root.Everywhere WellMade) (hasc : root.Ascends m) :
    root.walked.Pairwise fun a b => (m.start a < m.start b ∧ ¬ root.Crosses a b) ∨
      (m.start b < m.start a ∧ root.Crosses b a) := by
  have harranged : root.Everywhere Arranged := hroot.imp fun c hc => hc.here.arranged
  have hnodup : root.walked.Nodup := by
    obtain ⟨l, hperm, hsub⟩ := root.walked_subperm_names
    have hl : l.Pairwise fun a b => m.start a < m.start b := List.Pairwise.sublist hsub hasc
    exact hperm.nodup_iff.1 (hl.imp fun hlt heq => Position.ne_of_lt hlt (congrArg _ heq))
  refine List.pairwise_iff_forall_sublist.2 fun {a b} hab => ?_
  rcases List.pairwise_iff_forall_sublist.1 (pairwise_walked hroot hasc root.has_self) hab
    with hlt | hcross
  · exact .inl ⟨hlt, fun h => not_sublist_swap hnodup hab (h.sublist_walked harranged)⟩
  · exact .inr ⟨hcross.lt harranged hasc, hcross⟩

end Syntax.Node

/-! ## The order of declarations -/

/-- At `p` stands a name in the parameters of a function in the tree, and at `q`
    one in what the function returns. -/
def Syntax.Node.CrossesAt (root : Node) (m : SourceMap) (p q : Position) : Prop :=
  ∃ a b, root.Crosses a b ∧ m.start a = p ∧ m.start b = q

namespace Syntax

theorem Node.Ascends.nodup_start {m : SourceMap} {root : Node} (h : root.Ascends m) :
    (root.names.map m.start).Nodup := (List.pairwise_map.2 h).imp Position.ne_of_lt

/-- No two names of the tree stand at the same place. -/
theorem Node.Ascends.eq_of_start_eq {m : SourceMap} {root b c : Node} (h : root.Ascends m)
    (hb : b ∈ root.names) (hc : c ∈ root.names) (hstart : m.start b = m.start c) : b = c :=
  List.inj_on_of_nodup_map h.nodup_start hb hc hstart

/-- The tree is that of a module that the grammar accepts: all its nodes are well
    made, and its names are no empty ones and follow one another in the text. -/
structure Node.Accepted (text : String) (root : Node) : Prop where
  module : root.kind = .module
  made : root.Everywhere Node.WellMade
  ascends : root.Ascends (.ofText text)
  nonempty : ∀ n ∈ root.names, (SourceMap.ofText text).text n ≠ ""

theorem accepted_parse (text : String) : (parse text).Accepted text where
  module := rfl
  made := everywhere_wellMade_parse text
  ascends := by
    have hnames := pairwise_start_names text
    rw [← names_parse_eq] at hnames
    exact List.pairwise_map.1 hnames
  nonempty := by
    rw [names_parse_eq]
    intro n hn
    obtain ⟨before, name, hcovers⟩ := exists_coversName hn
    rw [hcovers.text]
    exact fun hempty => hcovers.nonempty (String.ofList_eq_empty_iff.1 hempty)

end Syntax

/-- How declarations are listed that cross each other in the way given. Of two
    declarations the one that stands first comes first, unless they cross. So
    the list ascends if no two of them cross, and only then; and of the
    declarations of one name in one scope the table of names has the one that
    stands last, unless it is in the parameters of a function and one in what
    the function returns stands behind it. -/
structure Analysis.Listed (a : Analysis) (Crosses : Position → Position → Prop) : Prop where
  order : a.declarations.toList.Pairwise fun d e =>
    (d.position < e.position ∧ ¬ Crosses d.position e.position) ∨
      (e.position < d.position ∧ Crosses e.position d.position)
  ascending : (a.declarations.toList.Pairwise fun d e => d.position < e.position) ↔
    ∀ d ∈ a.declarations, ∀ e ∈ a.declarations, ¬ Crosses d.position e.position
  winner : ∀ scope name i d, a.scopes.lookupLocal scope name = some i →
    a.declarations[i]? = some d → ∀ e ∈ a.declarations, e.scope = scope → e.name = name →
      e = d ∨ e.position < d.position ∨ Crosses d.position e.position

namespace Analysis

variable {a : Analysis} {Crosses : Position → Position → Prop}

/-- All that is said of listed declarations follows from their order, if the last
    declaration of a name counts. -/
theorem Listed.of_order (hlast : a.LastWins) (horder : a.declarations.toList.Pairwise fun d e =>
    (d.position < e.position ∧ ¬ Crosses d.position e.position) ∨
      (e.position < d.position ∧ Crosses e.position d.position))
    (hcross : ∀ p q, Crosses p q → p < q) : a.Listed Crosses where
  order := horder
  ascending := by
    constructor
    · intro hasc d hd e he h
      have hboth : a.declarations.toList.Pairwise fun d e =>
          ¬ Crosses d.position e.position ∧ ¬ Crosses e.position d.position := by
        refine (hasc.and horder).imp fun {d e} ⟨hlt, hde⟩ => ?_
        have hback : ¬ e.position < d.position := fun hlt' =>
          Position.ne_of_lt (Position.lt_trans hlt hlt') rfl
        exact ⟨(hde.resolve_right fun hed => hback hed.1).2, fun hed => hback (hcross _ _ hed)⟩
      have hsymm : Std.Symm fun d e : Declaration =>
          ¬ Crosses d.position e.position ∧ ¬ Crosses e.position d.position :=
        ⟨fun _ _ h => h.symm⟩
      have hne : d ≠ e := by
        rintro rfl
        exact Position.ne_of_lt (hcross _ _ h) rfl
      exact (hboth.forall (Array.mem_toList_iff.2 hd) (Array.mem_toList_iff.2 he) hne).1 h
    · intro h
      refine horder.imp_of_mem fun {d e} hd he hde => ?_
      rcases hde with ⟨hlt, -⟩ | ⟨-, hed⟩
      · exact hlt
      · exact absurd hed (h e (Array.mem_toList_iff.1 he) d (Array.mem_toList_iff.1 hd))
  winner := by
    intro scope name i d hi hd e he hscope hname
    obtain ⟨j, hj⟩ := Array.mem_iff_getElem?.1 he
    have hle : j ≤ i := Nat.le_of_not_lt fun hlt =>
      ((hlast scope name i).1 hi).2 j e hlt hj ⟨hscope, hname⟩
    rcases Nat.eq_or_lt_of_le hle with rfl | hlt
    · exact .inl (Option.some.inj (hj.symm.trans hd))
    · obtain ⟨hjsize, rfl⟩ := Array.getElem?_eq_some_iff.1 hj
      obtain ⟨hisize, rfl⟩ := Array.getElem?_eq_some_iff.1 hd
      rcases List.pairwise_iff_getElem.1 horder j i hjsize hisize hlt with h | h
      · exact .inr (.inl h.1)
      · exact .inr (.inr h.2)

variable {text : String} {root : Node}

theorem crossesAt_lt (hroot : root.Accepted text) {p q : Position}
    (h : root.CrossesAt (.ofText text) p q) : p < q := by
  obtain ⟨b, c, h, rfl, rfl⟩ := h
  exact h.lt (hroot.made.imp fun n hn => hn.here.arranged) hroot.ascends

theorem listed_ofTree (file : String) (hroot : root.Accepted text) :
    (ofTree file text root).Listed (root.CrossesAt (.ofText text)) := by
  have hasc := hroot.ascends
  have hcross : ∀ b ∈ root.names, ∀ c ∈ root.names,
      root.CrossesAt (.ofText text) ((SourceMap.ofText text).start b)
        ((SourceMap.ofText text).start c) → root.Crosses b c := by
    rintro b hb c hc ⟨b', c', h, hb', hc'⟩
    obtain ⟨hbmem, hcmem⟩ := h.mem_names
    rwa [hasc.eq_of_start_eq hbmem hb hb', hasc.eq_of_start_eq hcmem hc hc'] at h
  have hmodule : root.kind ≠ .functionDefinition := hroot.module ▸ Kind.noConfusion
  obtain ⟨ns, hns, hwalked⟩ :=
    Extraction.declares_walked ⟨file, .ofText text⟩ hroot.made hmodule
  have hpositions : (ofTree file text root).declarations.toList.map (·.position) =
      ns.map (SourceMap.ofText text).start := hns.map_position
  refine .of_order (lastWins_ofTree file text _) ?_ fun _ _ => crossesAt_lt hroot
  -- the order of the names in the walk, at their positions
  refine (List.pairwise_map (f := Declaration.position)
    (R := fun p q => (p < q ∧ ¬ root.CrossesAt (.ofText text) p q) ∨
      (q < p ∧ root.CrossesAt (.ofText text) q p))).1 ?_
  rw [hpositions, List.pairwise_map]
  have hpairs := List.Pairwise.sublist hwalked (Node.pairwise_walked_iff hroot.made hasc)
  refine hpairs.imp_of_mem fun {b c} hb hc hbc => ?_
  have mem {d : Node} (hd : d ∈ ns) : d ∈ root.names :=
    root.walked_subperm_names.subset (hwalked.subset hd)
  rcases hbc with ⟨hlt, hnot⟩ | ⟨hlt, h⟩
  · exact .inl ⟨hlt, fun h => hnot (hcross b (mem hb) c (mem hc) h)⟩
  · exact .inr ⟨hlt, c, b, h, rfl, rfl⟩

end Analysis

/-- What a job reports of a file are the declarations of its analysis. -/
theorem Job.exists_source_of_mem_files {registry : Registry} {options : JobOptions}
    {sources : List SourceFile} {r : FileReport} (h : r ∈ (run registry options sources).files) :
    ∃ s ∈ sources, r.file = s.id ∧
      r.declarations = (registry.analyze s.id s.text).declarations.toList := by
  obtain ⟨id, -, hid⟩ := List.mem_filterMap.1 h
  obtain ⟨f, hf, rfl⟩ := Option.map_eq_some_iff.1 hid
  obtain ⟨s, hs, rfl⟩ := List.mem_map.1 (List.mem_of_find?_eq_some hf)
  exact ⟨s, Keyed.firsts_subset _ _ hs, rfl, rfl⟩

/-- **Declarations are listed in the order of the text, but for crossing ones.**
    Whatever the registry, where the tree of a file is one that the grammar
    accepts, of two declarations in its analysis the one that stands first comes
    first, unless it is in the parameters of a function and the other one in what
    the function returns; what is listed last of a name in a scope counts. A job
    reports the declarations of a file in this order. -/
theorem declarations_listed (registry : Registry) (options : JobOptions)
    (sources : List SourceFile) :
    (∀ file text root, registry.parse? file text = some root → root.Accepted text →
      (registry.analyze file text).Listed (root.CrossesAt (.ofText text))) ∧
    ∀ r ∈ (Job.run registry options sources).files, ∃ s ∈ sources, r.file = s.id ∧
      r.declarations = (registry.analyze s.id s.text).declarations.toList := by
  constructor
  · intro file text root htree hroot
    rw [Registry.analyze_of_parse? htree]
    exact Analysis.listed_ofTree file hroot
  · exact fun r hr => Job.exists_source_of_mem_files hr

/-- A default and an annotation of one function that bind the same name. -/
def crossingText : String := "def f(a=(x := 1)) -> (x := 2): pass\n"

theorem declarations_listed_standard :
    Registry.standard.parse? "m.py" crossingText = some (parse crossingText) ∧
      (parse crossingText).Accepted crossingText ∧
      (Registry.standard.analyze "m.py" crossingText).Listed
        ((parse crossingText).CrossesAt (.ofText crossingText)) := by
  have htree : Registry.standard.parse? "m.py" crossingText = some (parse crossingText) := rfl
  have hroot := accepted_parse crossingText
  have hlisted :=
    (declarations_listed .standard ⟨true, .none⟩ []).1 "m.py" crossingText _ htree hroot
  exact ⟨htree, hroot, hlisted⟩

/-- The list does not ascend, and the name counts where it stands first. -/
theorem declarations_listed_crossingText :
    let a := Registry.standard.analyze "m.py" crossingText
    a.declarations.map (fun d => (d.name, d.position)) =
        #[("f", ⟨1, 4⟩), ("x", ⟨1, 22⟩), ("a", ⟨1, 6⟩), ("x", ⟨1, 9⟩)] ∧
      ¬ (a.declarations.toList.Pairwise fun d e => d.position < e.position) ∧
      a.scopes.lookupLocal 0 "x" = some 3 ∧
      ∃ d ∈ a.declarations, ∃ e ∈ a.declarations, a.declarations[3]? = some d ∧
        d.scope = 0 ∧ e.scope = 0 ∧ d.name = "x" ∧ e.name = "x" ∧ d.position < e.position := by
  decide +kernel

end CrossRef
