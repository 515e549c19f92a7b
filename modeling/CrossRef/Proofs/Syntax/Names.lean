/-
  CrossRef.Proofs.Syntax.Names

  What a tree has where names are asked for (`everywhere_fits_parse`). A node
  for a name or a dotted name ends behind a character that names may go on
  with, since its last leaf is a word that is a name. So what such a node
  covers is empty or ends in such a character (`endsInName_text`), whatever the
  text. And what a construct binds by a role is the node of a name.
-/
import CrossRef.Proofs.Syntax.Statement
import CrossRef.Proofs.Syntax.Words
import CrossRef.Syntax.SourceMap

namespace CrossRef.Syntax

/-! ## Trees -/

/-- `P` holds of the node and of every node below it. -/
inductive Node.Everywhere (P : Node → Prop) : Node → Prop where
  | mk {k : Kind} {f : Option Field} {s : Span} {cs : List Node} :
      P (.mk k f s cs) → (∀ c ∈ cs, Everywhere P c) → Everywhere P (.mk k f s cs)

namespace Node.Everywhere

variable {P : Node → Prop} {n : Node}

theorem here (h : n.Everywhere P) : P n := by
  cases h with
  | mk hn _ => exact hn

theorem of_mem_children (h : n.Everywhere P) : ∀ c ∈ n.children, c.Everywhere P := by
  cases h with
  | mk _ hcs => exact hcs

theorem of_below (h : n.Everywhere P) {c : Node} (hc : n.Below c) : c.Everywhere P := by
  induction hc with
  | child hc => exact h.of_mem_children _ hc
  | further _ hc ih => exact ih.of_mem_children _ hc

theorem imp {Q : Node → Prop} (hPQ : ∀ c, c.Everywhere P → Q c) (h : n.Everywhere P) :
    n.Everywhere Q := by
  induction h with
  | mk hn hcs ih => exact .mk (hPQ _ (.mk hn hcs)) ih

theorem and {Q : Node → Prop} (h : n.Everywhere P) (h' : n.Everywhere Q) :
    n.Everywhere fun c => P c ∧ Q c := by
  induction h with
  | mk hn hcs ih => exact .mk ⟨hn, h'.here⟩ fun c hc => ih c hc (h'.of_mem_children c hc)

end Node.Everywhere

/-! ## What fits -/

/-- The first `n` bytes of the text end in a character that names may go on with. -/
def EndsName (text : List Char) (n : Nat) : Prop :=
  ∃ before c after, text = before ++ c :: after ∧ Text.isNameRest c = true ∧
    n = byteCount (before ++ [c])

/-- Names end where a name ends in the text, a module that is imported from is
    given by its name, and constructs bind names and nothing else. -/
structure Node.Fits (text : List Char) (n : Node) : Prop where
  name : n.kind = .identifier ∨ n.kind = .dottedName → EndsName text n.span.stopByte
  module : n.kind = .importFromStatement → ∀ m, n.child? .moduleName = some m →
    m.kind = .relativeImport ∨ m.kind = .dottedName
  bound : n.kind = .functionDefinition ∨ n.kind = .classDefinition ∨ n.kind = .namedExpression →
    ∀ m, n.child? .name = some m → m.kind = .identifier
  renamed : n.kind = .aliasedImport → ∀ m, n.child? .alias = some m → m.kind = .identifier
  target : n.kind = .asPatternTarget → n.namedChildren ≠ []
  typed : n.kind = .typedParameter → ∀ m ∈ n.namedChildren.head?, m.field = none

/-- What stands where a construct binds a name or an alias is an identifier, and a
    target in an `as` pattern has something in it. -/
structure Node.BindsNames (n : Node) : Prop where
  bound : n.kind = .functionDefinition ∨ n.kind = .classDefinition ∨ n.kind = .namedExpression →
    ∀ m, n.child? .name = some m → m.kind = .identifier
  renamed : n.kind = .aliasedImport → ∀ m, n.child? .alias = some m → m.kind = .identifier
  target : n.kind = .asPatternTarget → n.namedChildren ≠ []

theorem Node.Fits.bindsNames {text : List Char} {n : Node} (h : n.Fits text) : n.BindsNames :=
  ⟨h.bound, h.renamed, h.target⟩

/-- The kinds of constructs of which something is asked. -/
def shapedKinds : List Kind :=
  [.identifier, .dottedName, .importFromStatement, .functionDefinition, .classDefinition,
    .namedExpression, .aliasedImport, .asPatternTarget, .typedParameter]

/-- Other constructs fit everywhere. -/
theorem Node.Fits.of_kind {text : List Char} {k : Kind} {f : Option Field} {s : Span}
    {cs : List Node} (hk : k ∉ shapedKinds) : (Node.mk k f s cs).Fits text := by
  have hne : ∀ k' ∈ shapedKinds, k ≠ k' := fun k' hk' heq => hk (heq ▸ hk')
  constructor
  · exact fun h => (h.elim (hne _ (by decide)) (hne _ (by decide))).elim
  · exact fun h => (hne _ (by decide) h).elim
  · rintro (h | h | h)
    · exact (hne _ (by decide) h).elim
    · exact (hne _ (by decide) h).elim
    · exact (hne _ (by decide) h).elim
  · exact fun h => (hne _ (by decide) h).elim
  · exact fun h => (hne _ (by decide) h).elim
  · exact fun h => (hne _ (by decide) h).elim

theorem Node.IsExtra.field {n : Node} (h : n.IsExtra) : n.field = none := by
  obtain ⟨t, -, rfl⟩ := h
  rfl

theorem Node.IsExtra.everywhere_fits {n : Node} (h : n.IsExtra) (text : List Char) :
    n.Everywhere (Node.Fits text) := by
  obtain ⟨t, ht, rfl⟩ := h
  refine .mk (.of_kind ?_) fun c hc => by cases hc
  rw [Token.isExtra, Bool.or_eq_true, beq_iff_eq, beq_iff_eq] at ht
  rcases ht with ht | ht
  · rw [ht]
    decide
  · rw [ht]
    decide

/-- A name ends where its word ends. -/
theorem endsName_of_isName {text : String} {l : Lexeme} (hl : l.MadeOf (words text))
    (hname : l.IsName) : EndsName text.toList l.span.stopByte := by
  obtain ⟨name, hname⟩ := hname
  obtain ⟨t, ht, hkind, hspan⟩ := hl.word _ _ hname
  have hplaced := placedIn_of_mem_words ht
  obtain ⟨before, after, htext, -, hstop, -⟩ := hplaced.place
  obtain ⟨cs, c, hc⟩ : ∃ cs c, t.text.toList = cs ++ [c] :=
    ⟨_, _, (List.dropLast_concat_getLast hplaced.nonempty).symm⟩
  refine ⟨before ++ cs, c, after, ?_, ?_, ?_⟩
  · rw [htext, hc]
    simp only [List.append_assoc, List.cons_append, List.nil_append]
  · refine hplaced.name hkind c ?_
    rw [hc]
    exact List.mem_append_right _ (List.mem_singleton_self c)
  · rw [← hspan, hstop, hc, List.append_assoc]

/-! ## Patterns -/

theorem mem_patterns? {cs ms : List Node} (h : patterns? cs = some ms) :
    ∀ m ∈ ms, ∃ c ∈ cs, c.toPattern? = some m := by
  induction cs generalizing ms with
  | nil =>
    cases h
    exact fun m hm => by cases hm
  | cons c cs ih =>
    obtain ⟨n, hn, h⟩ := Option.bind_eq_some_iff.1 h
    obtain ⟨ns, hns, h⟩ := Option.bind_eq_some_iff.1 h
    cases h
    intro m hm
    rcases List.mem_cons.1 hm with rfl | hm
    · exact ⟨c, List.mem_cons_self, hn⟩
    · obtain ⟨d, hd, hdm⟩ := ih hns m hm
      exact ⟨d, List.mem_cons_of_mem _ hd, hdm⟩

/-- An expression is its own target, or a group is made a pattern with the
    targets of its members. -/
theorem toPattern?_eq_some {n m : Node} (h : n.toPattern? = some m) :
    m = n ∨ ∃ k ms, n.kind ≠ .identifier ∧ patterns? n.children = some ms ∧
      m = .mk k n.field n.span ms ∧
        (k = .listSplatPattern ∨ k = .tuplePattern ∨ k = .listPattern) := by
  unfold Node.toPattern? at h
  split at h
  case h_4 | h_5 | h_6 | h_7 =>
    obtain ⟨ms, hms, h⟩ := Option.bind_eq_some_iff.1 h
    cases h
    exact .inr ⟨_, ms, Kind.noConfusion, hms, rfl, by decide⟩
  case h_11 => cases h
  all_goals
    cases h
    exact .inl rfl

/-- A target fits where the expression did. -/
theorem everywhere_fits_toPattern? {text : List Char} {n m : Node}
    (h : n.Everywhere (Node.Fits text)) (hm : n.toPattern? = some m) :
    m.Everywhere (Node.Fits text) := by
  induction h generalizing m with
  | mk hn hcs ih =>
    rcases toPattern?_eq_some hm with rfl | ⟨k, ms, -, hms, rfl, hk⟩
    · exact .mk hn hcs
    · refine .mk (.of_kind ?_) fun d hd => ?_
      · rcases hk with rfl | rfl | rfl
        all_goals decide
      · obtain ⟨c, hc, hcd⟩ := mem_patterns? hms d hd
        exact ih c hc hcd

/-! ## Pieces -/

/-- What a piece brings along fits. -/
structure Part.Fits (text : List Char) (p : Part) : Prop where
  leading : ∀ e ∈ p.leading, e.IsExtra
  node : ∀ n ∈ p.node, n.Everywhere (Node.Fits text)

theorem Node.Everywhere.withField {text : List Char} {n : Node}
    (h : n.Everywhere (Node.Fits text)) (f : Field) :
    (n.withField f).Everywhere (Node.Fits text) := by
  cases h with
  | mk hn hcs => exact .mk ⟨hn.name, hn.module, hn.bound, hn.renamed, hn.target, hn.typed⟩ hcs

theorem mem_contents {ps : List Part} {n : Node} (h : n ∈ Part.contents ps) :
    ∃ p ∈ ps, n ∈ p.leading ∨ n ∈ p.node := by
  cases ps with
  | nil => cases h
  | cons p ps =>
    rcases List.mem_append.1 h with h | h
    · exact ⟨p, List.mem_cons_self, .inr (Option.mem_toList.1 h)⟩
    · obtain ⟨q, hq, h⟩ := List.mem_flatMap.1 h
      refine ⟨q, List.mem_cons_of_mem _ hq, ?_⟩
      rcases List.mem_append.1 h with h | h
      · exact .inl h
      · exact .inr (Option.mem_toList.1 h)

theorem everywhere_fits_of_mem_contents {text : List Char} {ps : List Part}
    (hps : ∀ p ∈ ps, p.Fits text) {n : Node} (h : n ∈ Part.contents ps) :
    n.Everywhere (Node.Fits text) := by
  obtain ⟨p, hp, h | h⟩ := mem_contents h
  · exact ((hps p hp).leading n h).everywhere_fits text
  · exact (hps p hp).node n h

/-- The first piece comes first. -/
theorem contents_cons {p : Part} {ps : List Part} {n : Node} (hn : n ∈ p.node) :
    Part.contents (p :: ps) = n :: ps.flatMap fun q => q.leading ++ q.node.toList := by
  rw [Part.contents, Option.mem_def.1 hn]
  rfl

/-- The last piece comes last. -/
theorem contents_concat {ps : List Part} {p : Part} {n : Node} (hn : p.node = some n) :
    ∃ ns, Part.contents (ps ++ [p]) = ns ++ [n] := by
  cases ps with
  | nil =>
    refine ⟨[], ?_⟩
    show p.node.toList ++ [] = [n]
    rw [hn, List.append_nil]
    rfl
  | cons q ps =>
    refine ⟨q.node.toList ++ (ps.flatMap (fun r => r.leading ++ r.node.toList) ++ p.leading), ?_⟩
    show q.node.toList ++ (ps ++ [p]).flatMap (fun r => r.leading ++ r.node.toList) = _
    rw [List.flatMap_append, List.flatMap_singleton, hn, List.append_assoc, List.append_assoc]
    rfl

/-- A construct ends where its last piece ends. -/
theorem stopByte_build {k : Kind} {ps : List Part} {ns : List Node} {n m : Node}
    (hps : Part.contents ps = ns ++ [n]) (hm : m ∈ (Part.build k ps).node) :
    m.span.stopByte = n.span.stopByte := by
  cases hm
  rw [hps]
  cases ns with
  | nil => rfl
  | cons first ns =>
    simp only [List.getLast?_append, List.getLast?_singleton, Option.some_or]
    rfl

/-- Comments in front of a piece are in no role. -/
theorem find?_leading {p : Part} (hp : ∀ e ∈ p.leading, e.IsExtra) (f : Field) :
    p.leading.find? (·.field == some f) = none := by
  refine List.find?_eq_none.2 fun e he => ?_
  rw [(hp e he).field]
  exact Bool.noConfusion

/-- A role is looked for among all that the pieces bring along, since comments have none. -/
theorem find?_contents {ps : List Part} (hps : ∀ p ∈ ps, ∀ e ∈ p.leading, e.IsExtra) (f : Field) :
    (Part.contents ps).find? (·.field == some f) =
      (ps.flatMap fun p => p.leading ++ p.node.toList).find? (·.field == some f) := by
  cases ps with
  | nil => rfl
  | cons p ps =>
    rw [List.flatMap_cons, List.append_assoc, List.find?_append,
      find?_leading (hps p List.mem_cons_self) f, Option.none_or]
    rfl

/-- The first piece in a role is the one that is found in it. -/
theorem kind_of_firstIn {k : Kind} {ps : List Part} {f : Field} {kinds : List Kind}
    (h : FirstIn f kinds ps) (hps : ∀ p ∈ ps, ∀ e ∈ p.leading, e.IsExtra) {n m : Node}
    (hn : n ∈ (Part.build k ps).node) (hm : n.child? f = some m) : m.kind ∈ kinds := by
  obtain ⟨before, p, after, rfl, hbefore, c, hc, hkind⟩ := h
  have hfront : (before.flatMap fun q => q.leading ++ q.node.toList).find?
      (·.field == some f) = none := by
    refine List.find?_eq_none.2 fun w hw => ?_
    obtain ⟨q, hq, hw⟩ := List.mem_flatMap.1 hw
    rw [beq_iff_eq]
    rcases List.mem_append.1 hw with hw | hw
    · rw [(hps q (List.mem_append_left _ hq) w hw).field]
      exact nofun
    · exact hbefore q hq w (Option.mem_toList.1 hw)
  have hleading : ∀ e ∈ (p.as f).leading, e.IsExtra :=
    hps (p.as f) (List.mem_append_right _ List.mem_cons_self)
  have hnone := find?_leading hleading f
  have hnode : (p.as f).node = some (c.withField f) := congrArg (Option.map _) hc
  have hfield : ((c.withField f).field == some f) = true := by
    cases c
    exact beq_self_eq_true (some f)
  cases hn
  rw [Node.child?, Node.children, find?_contents hps, List.flatMap_append, List.find?_append,
    hfront, Option.none_or, List.flatMap_cons, List.append_assoc, List.find?_append,
    hnone, Option.none_or, hnode, Option.toList_some, List.cons_append,
    List.find?_cons, hfield] at hm
  obtain rfl := Option.some.inj hm
  cases c
  exact hkind

theorem everywhere_fits_build {text : List Char} {k : Kind} {ps : List Part} (hk : Shape k ps)
    (hps : ∀ p ∈ ps, p.Fits text) {n : Node} (hn : n ∈ (Part.build k ps).node) :
    n.Everywhere (Node.Fits text) := by
  have hkind : n.kind = k := by
    cases hn
    rfl
  have hchildren : n.children = Part.contents ps := by
    cases hn
    rfl
  have hleading : ∀ p ∈ ps, ∀ e ∈ p.leading, e.IsExtra := fun p hp => (hps p hp).leading
  have hfits : n.Fits text := by
    constructor
    · rw [hkind]
      rintro (rfl | rfl)
      · exact hk.elim
      · -- the construct ends where its last piece ends, and that is a name
        obtain ⟨⟨qs, q, rfl, hq⟩, -⟩ := hk
        obtain ⟨m, hm, hmk⟩ := exists_of_isKind hq
        obtain ⟨ns, hns⟩ := contents_concat hm
        have hq' := (hps q (List.mem_append_right _ (List.mem_singleton_self q))).node m hm
        rw [stopByte_build hns hn]
        exact hq'.here.name (.inl hmk)
    · rw [hkind]
      rintro rfl m hm
      simpa using kind_of_firstIn hk.1 hleading hn hm
    · rw [hkind]
      rintro (rfl | rfl | rfl) m hm
      · exact List.mem_singleton.1 (kind_of_firstIn hk.1 hleading hn hm)
      · exact List.mem_singleton.1 (kind_of_firstIn hk.1 hleading hn hm)
      · exact List.mem_singleton.1 (kind_of_firstIn hk.1 hleading hn hm)
    · rw [hkind]
      rintro rfl m hm
      exact List.mem_singleton.1 (kind_of_firstIn hk.1.1 hleading hn hm)
    · rw [hkind]
      rintro rfl
      obtain ⟨p, rfl, m, hm, hnamed⟩ := hk
      rw [Node.namedChildren, hchildren, contents_cons hm, List.filter_cons_of_pos hnamed]
      exact List.cons_ne_nil _ _
    · rw [hkind]
      rintro rfl
      obtain ⟨p, after, rfl, ⟨m, hm, hnamed⟩, hfree⟩ := hk
      rw [Node.namedChildren, hchildren, contents_cons hm, List.filter_cons_of_pos hnamed]
      rintro _ ⟨⟩
      exact hfree m hm
  obtain ⟨k, f, s, cs⟩ := n
  exact .mk hfits fun c hc => everywhere_fits_of_mem_contents hps (hchildren ▸ hc)

theorem mem_leading_build {k : Kind} {ps : List Part} {e : Node}
    (he : e ∈ (Part.build k ps).leading) : ∃ p ∈ ps, e ∈ p.leading := by
  cases ps with
  | nil => cases he
  | cons p ps => exact ⟨p, List.mem_cons_self, he⟩

/-- All of a tree that is spelled out of the lexemes of a text fits the text. -/
theorem Spelled.fits {text : String} {s t : List Lexeme} {ps : List Part} (h : Spelled s t ps)
    (hs : ∀ l ∈ s, l.MadeOf (words text)) : ∀ p ∈ ps, p.Fits text.toList := by
  induction h with
  | nil => exact fun p hp => by cases hp
  | append h h' ih ih' =>
    intro p hp
    rcases List.mem_append.1 hp with hp | hp
    · exact ih hs p hp
    · -- what remains behind the first pieces is part of the same lexemes
      exact ih' (fun l hl => hs l (h.isSuffix.subset hl)) p hp
  | @mark s l =>
    intro p hp
    cases List.mem_singleton.1 hp
    exact ⟨(hs l List.mem_cons_self).extras, fun n hn => by cases hn⟩
  | @leaf s l k hk =>
    intro p hp
    cases List.mem_singleton.1 hp
    have hl := hs l List.mem_cons_self
    refine ⟨hl.extras, ?_⟩
    rintro n ⟨⟩
    -- without children, nothing is found in a role
    refine .mk ⟨?_, ?_, fun _ _ => nofun, fun _ _ => nofun, ?_, fun _ _ => nofun⟩ fun c hc => by
      cases hc
    · rintro (hname | hname)
      · cases hname
        exact endsName_of_isName hl hk
      · cases hname
        exact hk.elim
    · intro himport
      cases himport
      exact hk.elim
    · intro htarget
      cases htarget
      exact hk.elim
  | @build s t k ps hk h ih =>
    intro p hp
    cases List.mem_singleton.1 hp
    refine ⟨fun e he => ?_, fun n hn => everywhere_fits_build hk (ih hs) hn⟩
    obtain ⟨p, hp, he⟩ := mem_leading_build he
    exact (ih hs p hp).leading e he
  | as h ih =>
    intro p hp
    cases List.mem_singleton.1 hp
    have hfits := ih hs _ List.mem_cons_self
    refine ⟨hfits.leading, fun n hn => ?_⟩
    obtain ⟨m, hm, rfl⟩ := Option.map_eq_some_iff.1 hn
    exact (hfits.node m hm).withField _
  | target hn hpattern h ih =>
    intro p hp
    cases List.mem_singleton.1 hp
    have hfits := ih hs _ List.mem_cons_self
    refine ⟨hfits.leading, ?_⟩
    rintro m ⟨⟩
    exact everywhere_fits_toPattern? (hfits.node _ hn) hpattern
  | behind hm h h' ih ih' =>
    intro p hp
    cases List.mem_singleton.1 hp
    have hmark := ih hs _ List.mem_cons_self
    have hfits := ih' (fun l hl => hs l (h.isSuffix.subset hl)) _ List.mem_cons_self
    refine ⟨fun e he => ?_, hfits.node⟩
    rcases List.mem_append.1 he with he | he
    · exact hmark.leading e he
    · exact hfits.leading e he

/-- Every construct of the tree of a text fits the text. -/
theorem everywhere_fits_parse (text : String) :
    ∀ n ∈ (parse text).children, n.Everywhere (Node.Fits text.toList) := by
  obtain ⟨rest, ps, hspelled, hchildren⟩ := spelled_parse text
  have hfits := hspelled.fits fun l hl => madeOf_of_mem_lexemes hl
  rw [hchildren]
  intro n hn
  obtain ⟨p, hp, hn⟩ := List.mem_flatMap.1 hn
  rcases List.mem_append.1 hn with hn | hn
  · exact ((hfits p hp).leading n hn).everywhere_fits _
  · exact (hfits p hp).node n (Option.mem_toList.1 hn)

/-! ## Texts of names -/

theorem dropBytes_eq_some {cs rest : List Char} {n : Nat} (h : dropBytes cs n = some rest) :
    ∃ before, cs = before ++ rest ∧ byteCount before = n := by
  fun_induction dropBytes cs n with
  | case1 =>
    cases h
    exact ⟨[], rfl, rfl⟩
  | case2 => cases h
  | case3 c cs n hle ih =>
    obtain ⟨before, rfl, hbytes⟩ := ih h
    refine ⟨c :: before, rfl, ?_⟩
    rw [byteCount_cons]
    omega
  | case4 => cases h

theorem takeBytes_eq_some {cs taken : List Char} {n : Nat} (h : takeBytes cs n = some taken) :
    ∃ after, cs = taken ++ after ∧ byteCount taken = n := by
  fun_induction takeBytes cs n generalizing taken with
  | case1 cs =>
    cases h
    exact ⟨cs, rfl, rfl⟩
  | case2 => cases h
  | case3 c cs n hle ih =>
    obtain ⟨more, hmore, rfl⟩ := Option.map_eq_some_iff.1 h
    obtain ⟨after, rfl, hbytes⟩ := ih hmore
    refine ⟨after, rfl, ?_⟩
    rw [byteCount_cons]
    omega
  | case4 => cases h

/-- The text is empty or ends in a character that names may go on with. -/
def EndsInName (name : String) : Prop := ∀ c ∈ name.toList.getLast?, Text.isNameRest c = true

/-- What a node covers that ends where a name ends. -/
theorem endsInName_text {text : String} {n : Node}
    (h : EndsName text.toList n.span.stopByte) : EndsInName ((SourceMap.ofText text).text n) := by
  obtain ⟨before, d, after, htext, hd, hstop⟩ := h
  rw [EndsInName, SourceMap.text, String.toList_ofList]
  generalize hcovered : (dropBytes _ _ >>= _) = covered
  cases covered with
  | none => exact fun c hc => by cases hc
  | some taken =>
    intro c hc
    obtain ⟨rest, hrest, htaken⟩ := Option.bind_eq_some_iff.1 hcovered
    obtain ⟨front, hfront, hstart⟩ := dropBytes_eq_some hrest
    obtain ⟨behind, rfl, hlength⟩ := takeBytes_eq_some htaken
    obtain ⟨cs, rfl⟩ := List.getLast?_eq_some_iff.1 hc
    have hpos : 0 < c.utf8Size := c.utf8Size_pos
    rw [byteCount_append, byteCount_cons] at hlength
    -- the two ways to write the text up to the end of the node
    have hsplit : front ++ (cs ++ [c]) ++ behind = before ++ [d] ++ after := by
      rw [List.append_assoc front, List.append_assoc before]
      exact hfront.symm.trans htext
    have hsame : front ++ (cs ++ [c]) = before ++ [d] := by
      refine eq_of_byteCount_eq hsplit ?_
      rw [← hstop, byteCount_append, byteCount_append, byteCount_cons, hstart]
      omega
    rw [← List.append_assoc] at hsame
    obtain ⟨-, hcd⟩ := List.append_inj' hsame rfl
    cases hcd
    exact hd

end CrossRef.Syntax
