/-
  CrossRef.Proofs.Syntax.Identifiers

  The names of a tree. Read from left to right they are names among the words
  of the text, in the same order and none of them twice (`names_parse`), because
  a construct is made of neighbouring pieces. So every name covers the letters
  of a word (`exists_coversName`), and the names stand at ascending positions
  (`pairwise_start_names`).
-/
import CrossRef.Proofs.Syntax.Grammar
import Mathlib.Data.List.Basic
import Mathlib.Data.List.Flatten

namespace CrossRef.Syntax

/-! ## The names of a tree -/

mutual

/-- The nodes for names in a tree, from left to right. -/
def Node.names : Node → List Node
  | .mk k f s cs => (if k = .identifier then [.mk k f s cs] else []) ++ namesOf cs

/-- The names in all trees of a list. -/
def namesOf : List Node → List Node
  | [] => []
  | c :: cs => c.names ++ namesOf cs

end

theorem namesOf_eq (cs : List Node) : namesOf cs = cs.flatMap Node.names := by
  induction cs with
  | nil => rfl
  | cons c cs ih => rw [namesOf, ih, List.flatMap_cons]

namespace Node

theorem names_mk (k : Kind) (f : Option Field) (s : Span) (cs : List Node) :
    (mk k f s cs).names =
      (if k = .identifier then [mk k f s cs] else []) ++ cs.flatMap names := by
  rw [names, namesOf_eq]

theorem names_eq (n : Node) :
    n.names = (if n.kind = .identifier then [n] else []) ++ n.children.flatMap names := by
  obtain ⟨k, f, s, cs⟩ := n
  exact names_mk k f s cs

/-- The names of a node that is none itself are those of its children. -/
theorem names_of_ne {n : Node} (h : n.kind ≠ .identifier) :
    n.names = n.children.flatMap names := by
  rw [names_eq, if_neg h, List.nil_append]

/-- The names of the children are among those of the node. -/
theorem flatMap_children_sublist (n : Node) : (n.children.flatMap names).Sublist n.names := by
  rw [n.names_eq]
  exact List.sublist_append_right _ _

/-- So are the names of some of the children. -/
theorem flatMap_names_sublist {n : Node} {ns : List Node} (h : ns.Sublist n.children) :
    (ns.flatMap names).Sublist n.names :=
  (h.flatMap _).trans n.flatMap_children_sublist

theorem singleton_sublist_names {n : Node} (h : n.kind = .identifier) : [n].Sublist n.names := by
  rw [n.names_eq, if_pos h]
  exact List.sublist_append_left _ _

/-- A role does not move the names below. -/
theorem map_span_names_withField (n : Node) (f : Field) :
    (n.withField f).names.map (·.span) = n.names.map (·.span) := by
  obtain ⟨k, g, s, cs⟩ := n
  rw [withField, names_mk, names_mk, List.map_append, List.map_append]
  congr 1
  split
  · rfl
  · rfl

theorem IsExtra.names {n : Node} (h : n.IsExtra) : n.names = [] := by
  obtain ⟨⟨kind, text, span, afterBreak, indent⟩, ht, rfl⟩ := h
  cases kind with
  | comment | lineContinuation => rfl
  | _ => cases ht

end Node

/-- The names of the targets are where those of the expressions were. -/
theorem map_span_names_patterns? {cs ms : List Node} (h : patterns? cs = some ms)
    (hcs : ∀ c ∈ cs, ∀ m, c.toPattern? = some m →
      m.names.map (·.span) = c.names.map (·.span)) :
    (ms.flatMap Node.names).map (·.span) = (cs.flatMap Node.names).map (·.span) := by
  induction cs generalizing ms with
  | nil =>
    cases h
    rfl
  | cons c cs ih =>
    obtain ⟨n, hn, h⟩ := Option.bind_eq_some_iff.1 h
    obtain ⟨ns, hns, h⟩ := Option.bind_eq_some_iff.1 h
    cases h
    obtain ⟨hc, hcs⟩ := List.forall_mem_cons.1 hcs
    rw [List.flatMap_cons, List.flatMap_cons, List.map_append, List.map_append, hc n hn,
      ih hns hcs]

/-- Reading an expression as a target does not move its names. -/
theorem map_span_names_toPattern? {n m : Node} (h : n.toPattern? = some m) :
    m.names.map (·.span) = n.names.map (·.span) := by
  rcases toPattern?_eq_some h with rfl | ⟨k, ms, hne, hms, rfl, hk⟩
  · rfl
  · have hcs : ∀ c ∈ n.children, ∀ m, c.toPattern? = some m →
        m.names.map (·.span) = c.names.map (·.span) := fun c hc m hm =>
      have : c.size < n.size := Node.size_lt_of_mem hc
      map_span_names_toPattern? hm
    have hk : k ≠ .identifier := by
      rcases hk with rfl | rfl | rfl
      all_goals exact Kind.noConfusion
    rw [Node.names_mk, if_neg hk, List.nil_append, Node.names_of_ne hne]
    exact map_span_names_patterns? hms hcs
termination_by n.size

/-! ## Pieces -/

/-- The names of a piece. -/
def Part.names (p : Part) : List Node := p.node.toList.flatMap Node.names

theorem flatMap_names_leading {p : Part} (h : ∀ e ∈ p.leading, e.IsExtra) :
    p.leading.flatMap Node.names = [] :=
  List.flatMap_eq_nil_iff.2 fun e he => (h e he).names

/-- What stands in front of pieces has no names. -/
theorem flatMap_names_pieces {ps : List Part} (h : ∀ p ∈ ps, ∀ e ∈ p.leading, e.IsExtra) :
    (ps.flatMap fun p => p.leading ++ p.node.toList).flatMap Node.names =
      ps.flatMap Part.names := by
  rw [List.flatMap_assoc]
  refine List.flatMap_congr fun p hp => ?_
  rw [List.flatMap_append, flatMap_names_leading (h p hp), List.nil_append]
  rfl

theorem names_build {k : Kind} {ps : List Part} (hk : k ≠ .identifier)
    (h : ∀ p ∈ ps, ∀ e ∈ p.leading, e.IsExtra) :
    (Part.build k ps).names = ps.flatMap Part.names := by
  have hnames : (Part.build k ps).names = (Part.contents ps).flatMap Node.names := by
    rw [Part.names, Part.build, Option.toList_some, List.flatMap_singleton, Node.names_mk,
      if_neg hk, List.nil_append]
  rw [hnames, ← flatMap_names_pieces h]
  cases ps with
  | nil => rfl
  | cons p ps =>
    have hleading (ns : List Node) : (p.leading ++ ns).flatMap Node.names =
        ns.flatMap Node.names := by
      rw [List.flatMap_append, flatMap_names_leading (h p List.mem_cons_self), List.nil_append]
    rw [Part.contents, List.flatMap_cons, List.append_assoc, hleading]

/-- The names of pieces are among those of the lexemes they are made of, in the same order. -/
theorem Spelled.names_sublist {text : String} {s t : List Lexeme} {ps : List Part}
    (h : Spelled s t ps) (hs : ∀ l ∈ s, l.MadeOf (words text)) :
    ∃ ls, s = ls ++ t ∧ ((ps.flatMap Part.names).map (·.span)).Sublist (nameSpans ls) := by
  induction h with
  | nil => exact ⟨[], rfl, .refl _⟩
  | append h h' ih ih' =>
    obtain ⟨ls, rfl, hls⟩ := ih hs
    obtain ⟨ls', rfl, hls'⟩ := ih' fun l hl => hs l (List.mem_append_right _ hl)
    refine ⟨ls ++ ls', (List.append_assoc ..).symm, ?_⟩
    rw [List.flatMap_append, List.map_append, nameSpans_append]
    exact hls.append hls'
  | @mark s l => exact ⟨[l], rfl, List.nil_sublist _⟩
  | @leaf s l k hk =>
    refine ⟨[l], rfl, ?_⟩
    by_cases hid : k = .identifier
    · subst hid
      obtain ⟨name, hname⟩ := hk
      have hspans : nameSpans [l] = [l.span] := by
        rw [nameSpans, List.filter_cons_of_pos (by rw [hname])]
        rfl
      rw [hspans]
      exact .refl _
    · have hnames : (Part.mk l.extras (some (.mk k none l.span []))).names = [] := by
        rw [Part.names, Option.toList_some, List.flatMap_singleton, Node.names_mk, if_neg hid]
        rfl
      rw [List.flatMap_singleton, hnames]
      exact List.nil_sublist _
  | @build s t k ps hk h ih =>
    obtain ⟨ls, hls, hsub⟩ := ih hs
    have hid : k ≠ .identifier := by
      rintro rfl
      exact hk
    refine ⟨ls, hls, ?_⟩
    rwa [List.flatMap_singleton, names_build hid fun p hp => (h.fits hs p hp).leading]
  | @as s t p f h ih =>
    obtain ⟨ls, hls, hsub⟩ := ih hs
    refine ⟨ls, hls, ?_⟩
    rw [List.flatMap_singleton] at hsub ⊢
    have hnames : (p.as f).names.map (·.span) = p.names.map (·.span) := by
      obtain ⟨leading, _ | n⟩ := p
      · rfl
      · exact (congrArg _ (List.flatMap_singleton ..)).trans
          ((n.map_span_names_withField f).trans (congrArg _ (List.flatMap_singleton ..).symm))
    rwa [hnames]
  | @target s t p n pattern hn hpattern h ih =>
    obtain ⟨ls, hls, hsub⟩ := ih hs
    refine ⟨ls, hls, ?_⟩
    rw [List.flatMap_singleton, Part.names, hn, Option.toList_some,
      List.flatMap_singleton] at hsub
    rw [List.flatMap_singleton, Part.names, Option.toList_some, List.flatMap_singleton,
      map_span_names_toPattern? hpattern]
    exact hsub
  | @behind s t u m p hm h h' ih ih' =>
    obtain ⟨ls, rfl, -⟩ := ih hs
    obtain ⟨ls', rfl, hsub⟩ := ih' fun l hl => hs l (List.mem_append_right _ hl)
    refine ⟨ls ++ ls', (List.append_assoc ..).symm, ?_⟩
    rw [nameSpans_append]
    exact hsub.trans (List.sublist_append_right _ _)

/-! ## The tree of a text -/

/-- The names of the tree of a text are names among its words, in the same order. -/
theorem names_parse (text : String) :
    (((parse text).children.flatMap Node.names).map (·.span)).Sublist
      (((words text).filter (·.kind == .name)).map (·.span)) := by
  obtain ⟨rest, ps, hspelled, hchildren⟩ := spelled_parse text
  have hmade : ∀ l ∈ lexemes (words text), l.MadeOf (words text) := fun _ hl =>
    madeOf_of_mem_lexemes hl
  obtain ⟨ls, hls, hsub⟩ := hspelled.names_sublist hmade
  rw [hchildren, flatMap_names_pieces fun p hp => (hspelled.fits hmade p hp).leading]
  have hall := congrArg nameSpans hls
  rw [nameSpans_lexemes, nameSpans_append] at hall
  rw [hall]
  exact hsub.trans (List.sublist_append_left _ _)

theorem names_parse_eq (text : String) :
    (parse text).names = (parse text).children.flatMap Node.names :=
  Node.names_of_ne (show (parse text).kind ≠ .identifier from Kind.noConfusion)

/-! ## Where names stand -/

/-- The node covers the name, behind the characters `before` of the text. -/
structure Node.CoversName (text : String) (n : Node) (before name : List Char) : Prop where
  split : ∃ after, text.toList = before ++ name ++ after
  nonempty : name ≠ []
  rest : ∀ c ∈ name, Text.isNameRest c = true
  start : (SourceMap.ofText text).start n = positionBehind before
  text : (SourceMap.ofText text).text n = String.ofList name

/-- Every name of the tree covers a name of the text. -/
theorem exists_coversName {text : String} {n : Node}
    (h : n ∈ (parse text).children.flatMap Node.names) :
    ∃ before name, n.CoversName text before name := by
  obtain ⟨t, ht, hspan⟩ := List.mem_map.1 ((names_parse text).subset (List.mem_map_of_mem h))
  obtain ⟨ht, hkind⟩ := List.mem_filter.1 ht
  have hplaced := placedIn_of_mem_words ht
  obtain ⟨before, after, htext, hstart, hstop, hpoint⟩ := hplaced.place
  rw [hspan] at hstart hstop hpoint
  refine ⟨before, t.text.toList, ⟨after, htext⟩, hplaced.nonempty,
    hplaced.name (beq_iff_eq.1 hkind), ?_, text_between htext hstart hstop⟩
  rw [List.append_assoc] at htext
  rw [SourceMap.start, hpoint, position_pointBehind htext]

/-- Words stand at ascending positions. -/
theorem pairwise_position_words (text : String) : (words text).Pairwise fun t u =>
    (SourceMap.ofText text).position t.span.start <
      (SourceMap.ofText text).position u.span.start := by
  refine (pairwise_words text).imp_of_mem fun {t u} ht hu hle => ?_
  have htplaced := placedIn_of_mem_words ht
  obtain ⟨before, after, htext, -, hstop, hpoint⟩ := htplaced.place
  obtain ⟨before', after', htext', hstart', -, hpoint'⟩ := (placedIn_of_mem_words hu).place
  rw [hstop, hstart'] at hle
  rw [List.append_assoc] at htext'
  -- the second word begins behind all of the first
  obtain ⟨between, hbetween⟩ := exists_append_of_byteCount_le (htext.symm.trans htext') hle
  rw [List.append_assoc] at htext hbetween
  rw [hpoint, hpoint', position_pointBehind htext, position_pointBehind htext', hbetween]
  exact positionBehind_lt before (List.append_ne_nil_of_left_ne_nil htplaced.nonempty _)

/-- Names stand at ascending positions, from left to right. -/
theorem pairwise_start_names (text : String) :
    (((parse text).children.flatMap Node.names).map (SourceMap.ofText text).start).Pairwise
      (· < ·) := by
  have hwords : ((words text).map fun t => (SourceMap.ofText text).position t.span.start).Pairwise
      (· < ·) :=
    List.pairwise_map.2 (pairwise_position_words text)
  have hnames := ((names_parse text).trans (List.filter_sublist.map _)).map
    fun s => (SourceMap.ofText text).position s.start
  rw [List.map_map, List.map_map] at hnames
  exact hwords.sublist hnames

/-! ## Tokens for names -/

/-- The node is a token for a name: it has nothing below it and is not empty. -/
structure Node.IsName (n : Node) : Prop where
  kind : n.kind = .identifier
  leaf : n.children = []
  nonempty : n.span.startByte < n.span.stopByte

/-- The names of a tree are for names, and what holds everywhere holds of them. -/
theorem of_mem_names {P : Node → Prop} {n c : Node} (h : n.Everywhere P) (hc : c ∈ n.names) :
    c.kind = .identifier ∧ P c := by
  induction h with
  | @mk k f s cs hn hcs ih =>
    rw [Node.names_mk] at hc
    rcases List.mem_append.1 hc with hc | hc
    · split at hc
      · cases List.mem_singleton.1 hc
        exact ⟨‹_›, hn⟩
      · cases hc
    · obtain ⟨d, hd, hc⟩ := List.mem_flatMap.1 hc
      exact ih d hd hc

/-- The names of the tree of a text are tokens. -/
theorem isName_of_mem_names {text : String} {n : Node}
    (h : n ∈ (parse text).children.flatMap Node.names) : n.IsName := by
  obtain ⟨c, hc, hn⟩ := List.mem_flatMap.1 h
  obtain ⟨hkind, hgrammar⟩ :=
    of_mem_names ((everywhere_followsGrammar_parse text).of_mem_children c hc) hn
  refine ⟨hkind, hgrammar.leaf (.inl hkind), ?_⟩
  -- it covers a word
  obtain ⟨t, ht, hspan⟩ := List.mem_map.1 ((names_parse text).subset (List.mem_map_of_mem h))
  have hplaced := placedIn_of_mem_words (List.mem_filter.1 ht).1
  obtain ⟨before, after, -, hstart, hstop, -⟩ := hplaced.place
  have hpos : 0 < byteCount t.text.toList :=
    Nat.pos_of_ne_zero fun hzero => hplaced.nonempty (byteCount_eq_zero hzero)
  rw [← hspan, hstart, hstop, byteCount_append]
  omega

end CrossRef.Syntax
