/-
  CrossRef.Proofs.Syntax.Spelling

  What readers make of what they take. The pieces that a reader gives spell
  the lexemes that it has taken off the input (`Spelled`): every lexeme is a
  leaf or a mark, in their order, and a construct is made of neighbouring
  pieces. A rule of the grammar is shown to do so along the way it reads: each
  step is a `bind`, and the pieces are put together at the end.
-/
import CrossRef.Syntax.Expression
import Mathlib.Data.Option.Basic

namespace CrossRef.Syntax

/-! ## Spelling -/

/-- A lexeme that is a name. -/
def Lexeme.IsName (l : Lexeme) : Prop := ∃ text, l.kind = .word .name text

/-- What a lexeme can be a leaf of: identifiers are names, and there are no
    leaves of kinds that always have children. -/
def LeafShape : Kind → Lexeme → Prop
  | .identifier, l => l.IsName
  | .dottedName, _ | .importFromStatement, _ | .asPatternTarget, _ => False
  | _, _ => True

/-- The last piece is a name. -/
def EndInName (ps : List Part) : Prop := ∃ qs q, ps = qs ++ [q] ∧ q.isKind .identifier

/-- The first piece in the role `f` is of one of the kinds. -/
def FirstIn (f : Field) (kinds : List Kind) (ps : List Part) : Prop :=
  ∃ (before : List Part) (p : Part) (after : List Part), ps = before ++ p.as f :: after ∧
    (∀ q ∈ before, ∀ n ∈ q.node, n.field ≠ some f) ∧ ∃ n ∈ p.node, n.kind ∈ kinds

/-- All pieces in the role `f` are of one of the kinds. -/
def AllIn (f : Field) (kinds : List Kind) (ps : List Part) : Prop :=
  ∀ p ∈ ps, ∀ n ∈ p.node, n.field = some f → n.kind ∈ kinds

/-- The piece is a construct. -/
def Part.IsNamed (p : Part) : Prop := ∃ n ∈ p.node, n.isNamed = true

/-- The piece is in no role. -/
def Part.IsFree (p : Part) : Prop := ∀ n ∈ p.node, n.field = none

/-- The piece has nothing in it: it is a word, or a mark. -/
def Part.IsLeaf (p : Part) : Prop := ∀ n ∈ p.node, n.children = []

/-- The node is a leaf that is no name. -/
structure Node.IsIdle (n : Node) : Prop where
  kind : n.kind ≠ .identifier
  leaf : n.children = []

/-- The piece is a mark, or an idle token in no role. -/
def Part.IsBare (p : Part) : Prop := ∀ n ∈ p.node, n.field = none ∧ n.IsIdle

/-- Among the nodes are some in the roles of the list, in its order and at most
    one in each. The others are idle. -/
structure InRoles (fs : List Field) (ns : List Node) : Prop where
  idle : ∀ n ∈ ns, n.field = none → n.IsIdle
  order : (ns.filterMap Node.field).Sublist fs

/-- The pieces take the roles of the list, in its order, or are idle. -/
def TakeRoles (fs : List Field) (ps : List Part) : Prop :=
  InRoles fs (ps.flatMap (·.node.toList))

/-- The kinds of what a module is asked for: names, perhaps under other names. -/
def importedKinds : List Kind := [.dottedName, .aliasedImport]

/-- The roles in a construct that is made of its roles and of tokens, in the
    order of the text. -/
def roleOrder : Kind → List Field
  | .functionDefinition => [.name, .typeParameters, .parameters, .returnType, .body]
  | .classDefinition => [.name, .typeParameters, .superclasses, .body]
  | .lambda => [.parameters, .body]
  | .assignment => [.left, .type, .right]
  | .forStatement => [.left, .right, .body, .alternative]
  | .namedExpression => [.name, .value]
  | .aliasedImport => [.name, .alias]
  | .defaultParameter | .typedDefaultParameter => [.name, .type, .value]
  | _ => []

/-- What constructs are made of, where it matters. Tokens are not made of pieces,
    and a dotted name is made of words and ends in a name. What is bound in the
    role of a name or of an alias is a name, and a target behind `as` is a
    construct. The module of an import is one by its kind, and so are the names
    that are taken out of it. A call has its arguments behind the function, and a
    parameter with an annotation comes before it. Definitions, assignments and
    their like are made of their roles, in order, with parameters and blocks by
    their kinds, and a clause of a comprehension has its targets before its
    sources. -/
def Shape : Kind → List Part → Prop
  | .identifier, _ | .token, _ | .asToken, _ => False
  | .dottedName, ps => EndInName ps ∧ ∀ p ∈ ps, p.IsLeaf
  | .importFromStatement, ps => FirstIn .moduleName [.relativeImport, .dottedName] ps ∧
    AllIn .name importedKinds ps
  | .functionDefinition, ps => FirstIn .name [.identifier] ps ∧
    TakeRoles (roleOrder .functionDefinition) ps ∧ AllIn .parameters [.parameters] ps ∧
      AllIn .body [.block] ps
  | .classDefinition, ps => FirstIn .name [.identifier] ps ∧
    TakeRoles (roleOrder .classDefinition) ps ∧ AllIn .body [.block] ps
  | .namedExpression, ps => FirstIn .name [.identifier] ps ∧
    TakeRoles (roleOrder .namedExpression) ps
  | .aliasedImport, ps => (FirstIn .alias [.identifier] ps ∧ FirstIn .name [.dottedName] ps) ∧
    TakeRoles (roleOrder .aliasedImport) ps
  | .lambda, ps => TakeRoles (roleOrder .lambda) ps ∧ AllIn .parameters [.lambdaParameters] ps
  | .assignment, ps => TakeRoles (roleOrder .assignment) ps
  | .forStatement, ps => TakeRoles (roleOrder .forStatement) ps
  | .defaultParameter, ps => TakeRoles (roleOrder .defaultParameter) ps
  | .typedDefaultParameter, ps => TakeRoles (roleOrder .typedDefaultParameter) ps
  | .forInClause, ps => ∃ front back, ps = front ++ back ∧ TakeRoles [.left] front ∧
    ∀ p ∈ back, p.IsBare ∨ ∃ q : Part, p = q.as .right
  | .call, ps => ∃ p q : Part, ps = [p.as .function, q.as .arguments]
  | .asPatternTarget, ps => ∃ p, ps = [p] ∧ p.IsNamed
  | .typedParameter, ps => ∃ p after, ps = p :: after ∧ p.IsNamed ∧ p.IsFree
  | _, _ => True

/-- The pieces are made of the lexemes of the first list, up to those of the
    second, which remain. -/
inductive Spelled : List Lexeme → List Lexeme → List Part → Prop where
  | nil {s : List Lexeme} : Spelled s s []
  | append {s t u : List Lexeme} {ps qs : List Part} :
      Spelled s t ps → Spelled t u qs → Spelled s u (ps ++ qs)
  | mark {s : List Lexeme} {l : Lexeme} : Spelled (l :: s) s [⟨l.extras, none⟩]
  | leaf {s : List Lexeme} {l : Lexeme} {k : Kind} :
      LeafShape k l → Spelled (l :: s) s [⟨l.extras, some (.mk k none l.span [])⟩]
  | build {s t : List Lexeme} {k : Kind} {ps : List Part} :
      Shape k ps → Spelled s t ps → Spelled s t [.build k ps]
  /-- A piece takes a role. -/
  | as {s t : List Lexeme} {p : Part} {f : Field} : Spelled s t [p] → Spelled s t [p.as f]
  /-- An expression is read as a target. -/
  | target {s t : List Lexeme} {p : Part} {n pattern : Node} :
      p.node = some n → n.toPattern? = some pattern → Spelled s t [p] →
      Spelled s t [{ p with node := some pattern }]
  /-- What stands in front of a mark moves to the piece behind it. -/
  | behind {s t u : List Lexeme} {m p : Part} :
      m.node = none → Spelled s t [m] → Spelled t u [p] →
      Spelled s u [{ p with leading := m.leading ++ p.leading }]

theorem exists_of_isKind {p : Part} {k : Kind} (h : p.isKind k = true) :
    ∃ n, p.node = some n ∧ n.kind = k := by
  obtain ⟨n, hn, hk⟩ := (Option.any_eq_true _ _).1 h
  exact ⟨n, hn, beq_iff_eq.1 hk⟩

/-- A construct is one by its kind. -/
theorem Part.isNamed_of_isKind {p : Part} {k : Kind} (h : p.isKind k = true)
    (hk : k.isNamed = true) : p.IsNamed := by
  obtain ⟨n, hn, rfl⟩ := exists_of_isKind h
  exact ⟨n, hn, hk⟩

theorem isKind_build (k : Kind) (ps : List Part) : (Part.build k ps).isKind k = true :=
  beq_self_eq_true k

theorem Part.isNamed_build {k : Kind} (hk : k.isNamed = true) (ps : List Part) :
    (build k ps).IsNamed :=
  isNamed_of_isKind (isKind_build k ps) hk

theorem Part.isFree_build (k : Kind) (ps : List Part) : (build k ps).IsFree := by
  rintro n ⟨⟩
  rfl

theorem Part.IsFree.field_ne {p : Part} (h : p.IsFree) (f : Field) :
    ∀ n ∈ p.node, n.field ≠ some f := by
  intro n hn
  rw [h n hn]
  exact nofun

/-- A piece has no other role than the one that it takes. -/
theorem field_as_ne {p : Part} {f g : Field} (h : f ≠ g) :
    ∀ n ∈ (p.as f).node, n.field ≠ some g := by
  intro n hn
  obtain ⟨m, -, rfl⟩ := Option.map_eq_some_iff.1 hn
  obtain ⟨k, o, s, cs⟩ := m
  exact fun hf => h (Option.some.inj hf)

/-- What comes behind free pieces is the first in its role. -/
theorem firstIn_of_free {f : Field} {kinds : List Kind} {before after : List Part} {p : Part}
    {k : Kind} (hbefore : ∀ q ∈ before, q.IsFree) (hp : p.isKind k = true) (hk : k ∈ kinds) :
    FirstIn f kinds (before ++ p.as f :: after) := by
  obtain ⟨n, hn, rfl⟩ := exists_of_isKind hp
  exact ⟨before, p, after, rfl, fun q hq => (hbefore q hq).field_ne f, n, hn, hk⟩

/-! ## Roles -/

theorem AllIn.append {f : Field} {kinds : List Kind} {ps qs : List Part} (hp : AllIn f kinds ps)
    (hq : AllIn f kinds qs) : AllIn f kinds (ps ++ qs) :=
  List.forall_mem_append.2 ⟨hp, hq⟩

/-- Pieces in no role are in none of another kind. -/
theorem allIn_of_free {f : Field} {kinds : List Kind} {ps : List Part}
    (h : ∀ p ∈ ps, p.IsFree) : AllIn f kinds ps :=
  fun p hp n hn hfield => absurd hfield ((h p hp).field_ne f n hn)

/-- Pieces in other roles are in none of another kind. -/
theorem TakeRoles.allIn {fs : List Field} {ps : List Part} (h : TakeRoles fs ps) {f : Field}
    (hf : f ∉ fs) (kinds : List Kind) : AllIn f kinds ps := by
  intro p hp n hn hfield
  have hmem : n ∈ ps.flatMap (·.node.toList) := List.mem_flatMap_of_mem hp (Option.mem_toList.2 hn)
  exact absurd (h.order.subset (List.mem_filterMap.2 ⟨n, hmem, hfield⟩)) hf

/-- A piece of the kind that takes the role. -/
theorem allIn_as {p : Part} {k : Kind} (hp : p.isKind k = true) (f : Field) :
    AllIn f [k] [p.as f] := by
  intro q hq n hn _
  cases List.mem_singleton.1 hq
  obtain ⟨⟨k', g, s, cs⟩, hm, rfl⟩ := Option.map_eq_some_iff.1 hn
  obtain ⟨m, hm', hkind⟩ := exists_of_isKind hp
  cases hm.symm.trans hm'
  exact List.mem_singleton.2 hkind

theorem Part.IsBare.isFree {p : Part} (h : p.IsBare) : p.IsFree := fun n hn => (h n hn).1

namespace TakeRoles

variable {fs gs : List Field} {ps qs : List Part}

theorem nil : TakeRoles fs [] where
  idle _ hn := absurd hn List.not_mem_nil
  order := List.nil_sublist fs

theorem append (hp : TakeRoles fs ps) (hq : TakeRoles gs qs) :
    TakeRoles (fs ++ gs) (ps ++ qs) := by
  rw [TakeRoles, List.flatMap_append]
  constructor
  · exact List.forall_mem_append.2 ⟨hp.idle, hq.idle⟩
  · rw [List.filterMap_append]
    exact hp.order.append hq.order

theorem mono (h : TakeRoles fs ps) (hfs : fs.Sublist gs) : TakeRoles gs ps :=
  ⟨h.idle, h.order.trans hfs⟩

/-- Bare pieces take no roles. -/
theorem of_bare (h : ∀ p ∈ ps, p.IsBare) : TakeRoles [] ps := by
  have hbare : ∀ n ∈ ps.flatMap (·.node.toList), n.field = none ∧ n.IsIdle := by
    intro n hn
    obtain ⟨p, hp, hn⟩ := List.mem_flatMap.1 hn
    exact h p hp n (Option.mem_toList.1 hn)
  have hnone : (ps.flatMap (·.node.toList)).filterMap Node.field = [] :=
    List.filterMap_eq_nil_iff.2 fun n hn => (hbare n hn).1
  exact ⟨fun n hn _ => (hbare n hn).2, hnone ▸ .refl _⟩

theorem bare {p : Part} (hp : p.IsBare) (hps : TakeRoles fs ps) : TakeRoles fs (p :: ps) :=
  append (of_bare (List.forall_mem_singleton.2 hp)) hps

theorem role {p : Part} {f : Field} (hps : TakeRoles fs ps) :
    TakeRoles (f :: fs) (p.as f :: ps) := by
  have hone : TakeRoles [f] [p.as f] := by
    obtain ⟨leading, _ | ⟨k, g, s, cs⟩⟩ := p
    · exact ⟨fun n hn => absurd hn List.not_mem_nil, List.nil_sublist _⟩
    · refine ⟨fun n hn hfield => ?_, .refl _⟩
      cases List.mem_singleton.1 hn
      cases hfield
  exact append hone hps

end TakeRoles

namespace Spelled

variable {s t u : List Lexeme} {p : Part} {ps qs : List Part}

theorem cons (hp : Spelled s t [p]) (hps : Spelled t u ps) : Spelled s u (p :: ps) :=
  .append hp hps

/-- What remains was there before. -/
theorem isSuffix (h : Spelled s t ps) : t <:+ s := by
  induction h with
  | nil => exact List.suffix_refl _
  | append _ _ ih ih' => exact ih'.trans ih
  | mark | leaf => exact List.suffix_cons _ _
  | build _ _ ih | as _ ih | target _ _ _ ih => exact ih
  | behind _ _ _ ih ih' => exact ih'.trans ih

/-- Where pieces are parted, the lexemes are. -/
theorem split {rs : List Part} (h : Spelled s u rs) (hrs : rs = ps ++ qs) :
    ∃ t, Spelled s t ps ∧ Spelled t u qs := by
  have single {s u : List Lexeme} {r : Part} {ps qs : List Part} (h : Spelled s u [r])
      (hr : [r] = ps ++ qs) : ∃ t, Spelled s t ps ∧ Spelled t u qs := by
    rcases List.singleton_eq_append_iff.1 hr with ⟨rfl, rfl⟩ | ⟨rfl, rfl⟩
    · exact ⟨s, .nil, h⟩
    · exact ⟨u, h, .nil⟩
  induction h generalizing ps qs with
  | nil =>
    obtain ⟨rfl, rfl⟩ := List.nil_eq_append_iff.1 hrs
    exact ⟨_, .nil, .nil⟩
  | append h h' ih ih' =>
    rcases List.append_eq_append_iff.1 hrs with ⟨rs, rfl, rfl⟩ | ⟨rs, rfl, rfl⟩
    · obtain ⟨t, ht, ht'⟩ := ih' rfl
      exact ⟨t, .append h ht, ht'⟩
    · obtain ⟨t, ht, ht'⟩ := ih rfl
      exact ⟨t, ht, .append ht' h'⟩
  | mark => exact single .mark hrs
  | leaf hk => exact single (.leaf hk) hrs
  | build hk h => exact single (.build hk h) hrs
  | as h => exact single (.as h) hrs
  | target hn hpattern h => exact single (.target hn hpattern h) hrs
  | behind hm h h' => exact single (.behind hm h h') hrs

/-- A change of pieces that keeps what each is made of keeps what all are made of. -/
theorem map {f : Part → Part}
    (hf : ∀ {s t : List Lexeme} {p : Part}, Spelled s t [p] → Spelled s t [f p])
    (h : Spelled s t ps) : Spelled s t (ps.map f) := by
  induction ps generalizing s with
  | nil => exact h
  | cons p ps ih =>
    obtain ⟨u, hp, hps⟩ := h.split (List.singleton_append (x := p) (l := ps)).symm
    exact .cons (hf hp) (ih hps)

end Spelled

/-! ## Readers -/

/-- Where `s` remains, `p` leaves something and gives something of which `Q` holds. -/
def Reads {α : Type} (s : List Lexeme) (p : Read α) (Q : List Lexeme → α → Prop) : Prop :=
  ∀ (i : Input) (a : α) (i' : Input), i.rest = s → p i = some (a, i') → Q i'.rest a

/-- What the reader gives is made of what it takes. -/
def Spells (p : Read Part) : Prop := ∀ s, Reads s p fun t a => Spelled s t [a]

/-- What the reader gives is made of what it takes, piece by piece. -/
def SpellsAll (p : Read (List Part)) : Prop := ∀ s, Reads s p fun t ps => Spelled s t ps

namespace Reads

variable {α β : Type} {s : List Lexeme} {p q : Read α} {f : α → Read β}
variable {P Q : List Lexeme → α → Prop} {R : List Lexeme → β → Prop}

theorem done {a : α} (h : Q s a) : Reads s (pure a) Q := by
  rintro i b i' rfl hp
  cases hp
  exact h

theorem fail : Reads s (failure : Read α) Q := by
  rintro i a i' - hp
  cases hp

theorem bind (hp : Reads s p P) (hf : ∀ t a, P t a → Reads t (f a) R) : Reads s (p >>= f) R := by
  rintro i b i' hi hb
  obtain ⟨⟨a, j⟩, ha, hb⟩ := Option.bind_eq_some_iff.1 hb
  exact hf _ a (hp i a j hi ha) j b i' rfl hb

theorem or (hp : Reads s p Q) (hq : Reads s q Q) : Reads s (p <|> q) Q := by
  rintro i a i' hi ha
  have hor : (p i <|> q i) = some (a, i') := ha
  rcases (Option.orElse_eq_some _ _ _).1 hor with ha | ⟨-, ha⟩
  · exact hp i a i' hi ha
  · exact hq i a i' hi ha

theorem ite {c : Prop} [Decidable c] (hp : Reads s p Q) (hq : Reads s q Q) :
    Reads s (if c then p else q) Q := by
  split
  · exact hp
  · exact hq

theorem mono (hp : Reads s p P) (h : ∀ t a, P t a → Q t a) : Reads s p Q :=
  fun i a i' hi ha => h _ a (hp i a i' hi ha)

/-- What holds whatever a first step gives. -/
theorem after (hf : ∀ t a, Reads t (f a) R) : Reads s (p >>= f) R :=
  .bind (P := fun _ _ => True) (fun _ _ _ _ _ => trivial) fun t a _ => hf t a

theorem and (hp : Reads s p P) (hq : Reads s p Q) : Reads s p fun t a => P t a ∧ Q t a :=
  fun i a i' hi ha => ⟨hp i a i' hi ha, hq i a i' hi ha⟩

end Reads

/-! ## Looking -/

section

variable {α : Type} {s : List Lexeme}

theorem reads_peek : Reads s Read.peek fun t _ => s = t := by
  rintro i a i' rfl h
  cases h
  rfl

theorem reads_peekSecond : Reads s Read.peekSecond fun t _ => s = t := by
  rintro i a i' rfl h
  cases h
  rfl

/-- A step that only looks takes nothing. -/
theorem Reads.look {β : Type} {p : Read α} {f : α → Read β} {R : List Lexeme → β → Prop}
    (hp : Reads s p fun t _ => s = t) (hf : ∀ a, Reads s (f a) R) : Reads s (p >>= f) R :=
  .bind hp fun _ a ht => ht ▸ hf a

theorem reads_atOperator (t : String) : Reads s (Read.atOperator t) fun u _ => s = u :=
  .look reads_peek fun _ => .done rfl

theorem reads_atKeyword (t : String) : Reads s (Read.atKeyword t) fun u _ => s = u :=
  .look reads_peek fun _ => .done rfl

theorem reads_atStatementEnd : Reads s Read.atStatementEnd fun t _ => s = t :=
  .look reads_peek fun _ => .look (reads_atOperator ";") fun _ => .done rfl

/-! ## Words -/

theorem reads_next : Reads s Read.next fun t l => s = l :: t := by
  rintro ⟨_ | ⟨l, rest⟩, left⟩ a i' rfl h
  · cases h
  · cases h
    rfl

/-- A leaf is the next word. -/
theorem reads_leaf {k : Kind} {accept : TokenKind → String → Bool} :
    Reads s (Read.leaf k accept) fun t p => ∃ l kind text, s = l :: t ∧
      l.kind = .word kind text ∧ accept kind text = true ∧
      p = ⟨l.extras, some (.mk k none l.span [])⟩ := by
  refine .bind reads_next fun t l hl => ?_
  split
  · rename_i kind text hkind
    split
    · exact .done ⟨l, kind, text, hl, hkind, ‹_›, rfl⟩
    · exact .fail
  · exact .fail

/-- A leaf of a kind that any word may have. -/
theorem spells_leaf (k : Kind) (hk : ∀ l, LeafShape k l) {accept : TokenKind → String → Bool} :
    Spells (Read.leaf k accept) := by
  refine fun s => reads_leaf.mono ?_
  rintro t p ⟨l, kind, text, rfl, -, -, rfl⟩
  exact .leaf (hk l)

theorem spells_operator (t : String) : Spells (Read.operator t) :=
  spells_leaf .token fun _ => trivial

theorem spells_keyword (t : String) : Spells (Read.keyword t) := by
  refine spells_leaf _ fun l => ?_
  split
  · exact trivial
  · exact trivial

/-- A leaf that only names may be. -/
theorem spells_name {accept : TokenKind → String → Bool}
    (haccept : ∀ kind text, accept kind text = true → kind = .name) :
    Spells (Read.leaf .identifier accept) := by
  refine fun s => reads_leaf.mono ?_
  rintro t p ⟨l, kind, text, rfl, hkind, hname, rfl⟩
  exact .leaf ⟨text, haccept kind text hname ▸ hkind⟩

theorem spells_identifier : Spells Read.identifier := by
  refine spells_name fun kind text h => ?_
  rw [Bool.and_eq_true, beq_iff_eq] at h
  exact h.1

theorem spells_anyName : Spells Read.anyName := spells_name fun _ _ h => beq_iff_eq.1 h

/-- A leaf is of its kind and in no role. -/
theorem reads_leaf_node {k : Kind} {accept : TokenKind → String → Bool} :
    Reads s (Read.leaf k accept) fun _ p => p.isKind k = true ∧ p.IsFree := by
  refine reads_leaf.mono ?_
  rintro t p ⟨l, kind, text, -, -, -, rfl⟩
  refine ⟨beq_self_eq_true k, ?_⟩
  rintro n ⟨⟩
  rfl

/-- Words that are no names are bare. -/
theorem reads_leaf_bare {k : Kind} (hk : k ≠ .identifier) {accept : TokenKind → String → Bool} :
    Reads s (Read.leaf k accept) fun _ p => p.IsBare := by
  refine reads_leaf.mono ?_
  rintro t p ⟨l, kind, text, -, -, -, rfl⟩
  rintro n ⟨⟩
  exact ⟨rfl, hk, rfl⟩

theorem reads_operator_bare (t : String) : Reads s (Read.operator t) fun _ p => p.IsBare :=
  reads_leaf_bare Kind.noConfusion

theorem reads_keyword_bare (t : String) : Reads s (Read.keyword t) fun _ p => p.IsBare := by
  refine reads_leaf_bare ?_
  split
  · exact Kind.noConfusion
  · exact Kind.noConfusion

theorem reads_leaf_isLeaf {k : Kind} {accept : TokenKind → String → Bool} :
    Reads s (Read.leaf k accept) fun _ p => p.IsLeaf := by
  refine reads_leaf.mono ?_
  rintro t p ⟨l, kind, text, -, -, -, rfl⟩
  rintro n ⟨⟩
  rfl

theorem reads_mark (k : LexemeKind) :
    Reads s (Read.mark k) fun t p => p.node = none ∧ Spelled s t [p] := by
  refine .bind reads_next fun t l hl => .ite (.done ⟨rfl, ?_⟩) .fail
  rw [hl]
  exact .mark

theorem spells_mark (k : LexemeKind) : Spells (Read.mark k) :=
  fun _ => (reads_mark k).mono fun _ _ h => h.2

end

/-! ## Repetition -/

section

variable {α : Type} {s : List Lexeme}

/-- Repeating a reader, what holds of every result and the rest holds of all. -/
theorem reads_many_of {p : Read α} {P : List Lexeme → List Lexeme → α → Prop}
    {R : List Lexeme → List Lexeme → List α → Prop} (hp : ∀ s, Reads s p (P s))
    (nil : ∀ s, R s s []) (cons : ∀ {s t u a as}, P s t a → R t u as → R s u (a :: as)) :
    Reads s (Read.many p) (R s) := by
  have hfrom (i : Input) :
      R i.rest (Read.manyFrom p i).2.rest (Read.manyFrom p i).1 := by
    fun_induction Read.manyFrom p i with
    | case1 i a j ha hlt more last hmore ih =>
      rw [hmore] at ih
      exact cons (hp _ i a j rfl ha) ih
    | case2 | case3 => exact nil _
  rintro i as i' rfl h
  have hi := hfrom i
  rwa [show Read.manyFrom p i = (as, i') from Option.some.inj h] at hi

/-- Repeating a reader, what it takes each time stands in a row. -/
theorem reads_many {p : Read α} (pieces : α → List Part)
    (hp : ∀ s, Reads s p fun t a => Spelled s t (pieces a)) :
    Reads s (Read.many p) fun t as => Spelled s t (as.flatMap pieces) :=
  reads_many_of (R := fun s t as => Spelled s t (as.flatMap pieces)) hp (fun _ => .nil)
    fun h h' => .append h h'

theorem spellsAll_many {p : Read Part} (hp : Spells p) : SpellsAll (Read.many p) := by
  refine fun s => (reads_many (fun q => [q]) hp).mono fun t ps hps => ?_
  rwa [List.flatMap_singleton'] at hps

theorem reads_many_flatten {p : Read (List Part)} (hp : SpellsAll p) :
    Reads s (Read.many p) fun t pss => Spelled s t pss.flatten := by
  refine (reads_many id hp).mono fun t pss hpss => ?_
  rwa [List.flatMap_id] at hpss

theorem spellsAll_many1 {p : Read Part} (hp : Spells p) : SpellsAll (Read.many1 p) :=
  fun s => .bind (hp s) fun t _ h => .bind (spellsAll_many hp t) fun _ _ hs => .done (.cons h hs)

/-- A step that is left out under a condition. -/
theorem Reads.unless {β : Type} {c : Prop} [Decidable c] {p : Read (List Part)}
    {f : List Part → Read β} {R : List Lexeme → β → Prop} (hp : SpellsAll p)
    (hf : ∀ t ps, Spelled s t ps → Reads t (f ps) R) :
    Reads s (if c then pure [] >>= f else p >>= f) R :=
  .ite (.bind (.done .nil) hf) (.bind (hp s) hf)

/-- What is read perhaps is as it is read. -/
theorem reads_perhaps_of {p : Read Part} {Q : Part → Prop} (hp : ∀ s, Reads s p fun _ q => Q q) :
    Reads s (Read.perhaps p) fun _ ps => ∀ q ∈ ps, Q q := by
  refine .or (.bind (hp s) fun _ q hq => .done ?_) (.done ?_)
  · exact List.forall_mem_singleton.2 hq
  · exact fun q hq => by cases hq

theorem spellsAll_perhaps {p : Read Part} (hp : Spells p) : SpellsAll (Read.perhaps p) :=
  fun s => .or (.bind (hp s) fun _ _ h => .done h) (.done .nil)

theorem reads_perhaps_keyword (t : String) :
    Reads s (Read.perhaps (Read.keyword t)) fun u ps => Spelled s u ps ∧ ∀ p ∈ ps, p.IsBare :=
  (spellsAll_perhaps (spells_keyword t) s).and (reads_perhaps_of fun _ => reads_keyword_bare t)

/-- A piece that is given a role has one. -/
theorem reads_as {p : Read Part} {f : Field} :
    Reads s (do return (← p).as f) fun _ q => ∃ r : Part, q = r.as f :=
  .after fun _ r => .done ⟨r, rfl⟩

/-- A piece that is read perhaps takes its role, if it is read. -/
theorem reads_perhaps_roles {p : Read Part} {f : Field}
    (hp : ∀ s, Reads s p fun _ q => ∃ r : Part, q = r.as f) :
    Reads s (Read.perhaps p) fun _ ps => TakeRoles [f] ps := by
  refine .or (.bind (hp s) ?_) (.done .nil)
  rintro t _ ⟨r, rfl⟩
  exact .done (.role .nil)

/-- Extending a piece, it is made of what it was made of and what the steps take. -/
theorem reads_extend {step : Part → Read Part} {r : List Lexeme} {first : Part}
    (hfirst : Spelled r s [first])
    (hstep : ∀ t p, Spelled r t [p] → Reads t (step p) fun u q => Spelled r u [q]) :
    Reads s (Read.extend step first) fun t p => Spelled r t [p] := by
  rintro i a i' rfl h
  fun_induction Read.extend step first i with
  | case1 first i longer j hlonger hlt ih =>
    exact ih (hstep _ first hfirst i longer j rfl hlonger) h
  | case2 | case3 =>
    cases h
    exact hfirst

/-- Extending a piece, it stays as every step leaves it. -/
theorem reads_extend_of {step : Part → Read Part} {first : Part} {Q : Part → Prop}
    (hfirst : Q first) (hstep : ∀ t p, Reads t (step p) fun _ q => Q q) :
    Reads s (Read.extend step first) fun _ p => Q p := by
  rintro i a i' rfl h
  fun_induction Read.extend step first i with
  | case1 first i longer j hlonger hlt ih =>
    exact ih (hstep _ first i longer j rfl hlonger) h
  | case2 | case3 =>
    cases h
    exact hfirst

theorem spellsAll_commaSeparated {item : Read Part} (hitem : Spells item) :
    SpellsAll (Read.commaSeparated item) := by
  refine fun s => .bind (hitem s) fun t _ hfirst => ?_
  have hmore : SpellsAll (do
      let comma ← Read.operator ","
      return [comma, ← item]) := fun s =>
    .bind (spells_operator "," s) fun t _ hcomma => .bind (hitem t) fun _ _ h =>
      .done (.cons hcomma h)
  exact .bind (reads_many_flatten hmore) fun u _ hmore =>
    .bind (spellsAll_perhaps (spells_operator ",") u) fun _ _ hlast =>
      .done (.cons hfirst (.append hmore hlast))

/-- What holds of every item and of the commas holds of all. -/
theorem reads_commaSeparated_of {item : Read Part} {Q : Part → Prop}
    (hitem : ∀ s, Reads s item fun _ q => Q q)
    (hcomma : ∀ s, Reads s (Read.operator ",") fun _ q => Q q) :
    Reads s (Read.commaSeparated item) fun _ ps => ∀ q ∈ ps, Q q := by
  have hmore : ∀ s, Reads s (do
      let comma ← Read.operator ","
      return [comma, ← item]) fun _ ps => ∀ q ∈ ps, Q q := fun s =>
    .bind (hcomma s) fun t _ hcomma => .bind (hitem t) fun _ _ hitem =>
      .done (List.forall_mem_cons.2 ⟨hcomma, List.forall_mem_singleton.2 hitem⟩)
  refine .bind (hitem s) fun t first hfirst => .bind (reads_many_of
    (R := fun _ _ pss => ∀ q ∈ pss.flatten, Q q) hmore (fun _ q hq => by cases hq) ?_)
    fun u more hmore => .bind (reads_perhaps_of hcomma) fun v last hlast => .done ?_
  · intro _ _ _ ps pss hps hpss q hq
    rcases List.mem_append.1 hq with hq | hq
    · exact hps q hq
    · exact hpss q hq
  · exact List.forall_mem_cons.2 ⟨hfirst, List.forall_mem_append.2 ⟨hmore, hlast⟩⟩

theorem spellsAll_commaSeparatedOrNone {item : Read Part} (hitem : Spells item) :
    SpellsAll (Read.commaSeparatedOrNone item) :=
  fun s => .or (spellsAll_commaSeparated hitem s) (.done .nil)

end

end CrossRef.Syntax
