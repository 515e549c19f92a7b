/-
  CrossRef.Proofs.Syntax.Nesting

  Trees that lie over a text: every node begins and ends at a place of the
  text, children lie inside their parent, and siblings follow one another
  without overlap (`Node.LiesOver`). Places with more bytes before them have
  later positions, so the same nesting holds of positions (`Node.Nested`),
  which is all that scopes are made of.

  What a scope covers ends with the last leaf of its body. All that is in the
  body begins before that (`start_le_stop`), and the body does not end before
  it (`stop_le_finish`).
-/
import CrossRef.Proofs.Syntax.Names
import CrossRef.Proofs.Syntax.Places
import Mathlib.Data.List.Perm.Subperm
import Mathlib.Order.Defs.LinearOrder

namespace CrossRef

instance Position.linearOrder : LinearOrder Position where
  le_refl a := .inr ⟨rfl, Nat.le_refl _⟩
  le_trans a b c := by
    simp only [le_def]
    omega
  le_antisymm a b := by
    obtain ⟨l, c⟩ := a
    obtain ⟨l', c'⟩ := b
    simp only [le_def, Position.mk.injEq]
    omega
  le_total a b := by
    simp only [le_def]
    omega
  lt_iff_le_not_ge a b := by
    simp only [le_def, lt_def]
    omega
  toDecidableLE := inferInstance

namespace Syntax

/-! ## Places of a text -/

/-- The first `n` bytes of the text are whole characters, and `p` is the point
    behind them. -/
def IsPlace (text : List Char) (p : Point) (n : Nat) : Prop :=
  (takeBytes text n).map pointBehind = some p

instance (text : List Char) (p : Point) (n : Nat) : Decidable (IsPlace text p n) :=
  inferInstanceAs (Decidable (_ = _))

theorem IsPlace.exists_append {text : List Char} {p : Point} {n : Nat} (h : IsPlace text p n) :
    ∃ before after, text = before ++ after ∧ p = pointBehind before ∧ n = byteCount before := by
  obtain ⟨before, hbefore, rfl⟩ := Option.map_eq_some_iff.1 h
  obtain ⟨after, htext, hbytes⟩ := takeBytes_eq_some hbefore
  exact ⟨before, after, htext, rfl, hbytes.symm⟩

section

variable {text : String} {p q : Point} {a b : Nat}
variable (hp : IsPlace text.toList p a) (hq : IsPlace text.toList q b)
include hp hq

/-- More bytes before a place put its position further on. -/
theorem position_lt (h : a < b) :
    (SourceMap.ofText text).position p < (SourceMap.ofText text).position q := by
  obtain ⟨before, after, htext, rfl, rfl⟩ := hp.exists_append
  obtain ⟨before', after', htext', rfl, rfl⟩ := hq.exists_append
  obtain ⟨cs, rfl⟩ :=
    exists_append_of_byteCount_le (htext.symm.trans htext') (Nat.le_of_lt h)
  have hcs : cs ≠ [] := by
    rintro rfl
    rw [List.append_nil] at h
    exact absurd h (Nat.lt_irrefl _)
  rw [position_pointBehind htext, position_pointBehind htext']
  exact positionBehind_lt before hcs

theorem position_le (h : a ≤ b) :
    (SourceMap.ofText text).position p ≤ (SourceMap.ofText text).position q := by
  rcases Nat.lt_or_eq_of_le h with hlt | rfl
  · exact le_of_lt (position_lt hp hq hlt)
  · -- as many bytes, the same point
    have hsame : p = q := Option.some.inj (hp.symm.trans hq)
    rw [hsame]

theorem eq_of_position_eq
    (h : (SourceMap.ofText text).position p = (SourceMap.ofText text).position q) : a = b := by
  obtain ⟨before, after, htext, rfl, rfl⟩ := hp.exists_append
  obtain ⟨before', after', htext', rfl, rfl⟩ := hq.exists_append
  rw [position_pointBehind htext, position_pointBehind htext'] at h
  rw [eq_of_positionBehind_eq (htext.symm.trans htext') h]

end

/-! ## Below a node -/

namespace Node

variable {n b c : Node}

/-- `c` is the node or below it. -/
def Has (n c : Node) : Prop := c = n ∨ n.Below c

theorem has_self (n : Node) : n.Has n := .inl rfl

theorem has_of_mem_children (h : c ∈ n.children) : n.Has c := .inr (.child h)

theorem Below.trans (hb : n.Below b) (hc : b.Below c) : n.Below c := by
  induction hc with
  | child hc => exact .further hb hc
  | further _ hc ih => exact .further ih hc

theorem Has.trans (hb : n.Has b) (hc : b.Has c) : n.Has c := by
  rcases hb with rfl | hb
  · exact hc
  · rcases hc with rfl | hc
    · exact .inr hb
    · exact .inr (hb.trans hc)

/-- What is below a node is in one of its children. -/
theorem below_iff : n.Below c ↔ ∃ d ∈ n.children, d.Has c := by
  constructor
  · intro h
    induction h with
    | child hc => exact ⟨_, hc, has_self _⟩
    | further _ hc ih =>
      obtain ⟨d, hd, hb⟩ := ih
      exact ⟨d, hd, hb.trans (has_of_mem_children hc)⟩
  · rintro ⟨d, hd, rfl | hc⟩
    · exact .child hd
    · exact Below.trans (.child hd) hc

theorem Everywhere.of_has {P : Node → Prop} (h : n.Everywhere P) (hc : n.Has c) :
    c.Everywhere P := by
  rcases hc with rfl | hc
  · exact h
  · exact h.of_below hc

/-! ### Last leaves -/

theorem lastLeafOf_eq (fallback : Node) (cs : List Node) :
    lastLeafOf fallback cs = (cs.getLast?.map lastLeaf).getD fallback := by
  induction cs with
  | nil => rfl
  | cons c cs ih =>
    cases cs with
    | nil => rfl
    | cons d ds =>
      rw [lastLeafOf, ih, List.getLast?_cons_cons]

theorem lastLeaf_eq (n : Node) : n.lastLeaf = (n.children.getLast?.map lastLeaf).getD n := by
  obtain ⟨k, f, s, cs⟩ := n
  rw [lastLeaf, lastLeafOf_eq]
  rfl

theorem has_lastLeaf (n : Node) : n.Has n.lastLeaf := by
  rw [lastLeaf_eq]
  cases hlast : n.children.getLast? with
  | none => exact has_self n
  | some c =>
    have hc : c ∈ n.children := List.mem_of_getLast? hlast
    have : c.size < n.size := size_lt_of_mem hc
    exact (has_of_mem_children hc).trans c.has_lastLeaf
termination_by n.size

end Node

/-! ## Nesting -/

/-- The node begins and ends at places of the text, its children lie inside it,
    and each of them ends before the next begins. -/
structure Node.LiesOver (text : List Char) (n : Node) : Prop where
  start : IsPlace text n.span.start n.span.startByte
  stop : IsPlace text n.span.stop n.span.stopByte
  forward : n.span.startByte ≤ n.span.stopByte
  inside : ∀ c ∈ n.children,
    n.span.startByte ≤ c.span.startByte ∧ c.span.stopByte ≤ n.span.stopByte
  ordered : n.children.Pairwise fun c d => c.span.stopByte ≤ d.span.startByte

/-- Where a node ends. -/
def SourceMap.finish (m : SourceMap) (n : Node) : Position := m.position n.span.stop

/-- The positions of the node and its children nest. -/
structure Node.Nested (m : SourceMap) (n : Node) : Prop where
  forward : m.start n ≤ m.finish n
  inside : ∀ c ∈ n.children, m.start n ≤ m.start c ∧ m.finish c ≤ m.finish n
  ordered : n.children.Pairwise fun c d => m.finish c ≤ m.start d

namespace Node

/-- Nodes that lie over a text have nested positions. -/
theorem nested_of_liesOver {text : String} {n : Node}
    (h : n.Everywhere (LiesOver text.toList)) : n.Everywhere (Nested (.ofText text)) := by
  refine h.imp fun c hc => ?_
  have here : c.LiesOver text.toList := hc.here
  have child : ∀ d ∈ c.children, d.LiesOver text.toList :=
    fun d hd => (hc.of_mem_children d hd).here
  constructor
  · exact position_le here.start here.stop here.forward
  · intro d hd
    obtain ⟨hstart, hstop⟩ := here.inside d hd
    exact ⟨position_le here.start (child d hd).start hstart,
      position_le (child d hd).stop here.stop hstop⟩
  · refine here.ordered.imp_of_mem fun {d e} hd he hde => ?_
    exact position_le (child d hd).stop (child e he).start hde

section

variable {m : SourceMap} {n c : Node} (h : n.Everywhere (Nested m))
include h

theorem start_le_of_has (hc : n.Has c) : m.start n ≤ m.start c := by
  rcases hc with rfl | hc
  · exact le_refl _
  · induction hc with
    | child hc => exact (h.here.inside _ hc).1
    | further hb hc ih => exact le_trans ih ((h.of_has (.inr hb)).here.inside _ hc).1

theorem finish_le_of_has (hc : n.Has c) : m.finish c ≤ m.finish n := by
  rcases hc with rfl | hc
  · exact le_refl _
  · induction hc with
    | child hc => exact (h.here.inside _ hc).2
    | further hb hc ih => exact le_trans ((h.of_has (.inr hb)).here.inside _ hc).2 ih

/-- A scope does not end behind its body. -/
theorem stop_le_finish : m.stop n ≤ m.finish n := finish_le_of_has h n.has_lastLeaf

end

/-- What is in a body begins before the scope over it ends. -/
theorem start_le_stop {m : SourceMap} {n c : Node} (h : n.Everywhere (Nested m))
    (hc : n.Has c) : m.start c ≤ m.stop n := by
  have hstop : m.stop n = m.finish ((n.children.getLast?.map lastLeaf).getD n) := by
    rw [SourceMap.stop, lastLeaf_eq]
    rfl
  rw [hstop]
  rcases List.eq_nil_or_concat n.children with hnil | ⟨front, e, hchildren⟩
  · -- a leaf has nothing below it
    have hself : c = n := hc.resolve_right fun hbelow => by
      obtain ⟨d, hd, -⟩ := below_iff.1 hbelow
      rw [hnil] at hd
      cases hd
    rw [hself, hnil]
    exact h.here.forward
  · rw [List.concat_eq_append] at hchildren
    have he : e ∈ n.children := by
      rw [hchildren]
      exact List.mem_append_right _ (List.mem_singleton_self e)
    have hnested : e.Everywhere (Nested m) := h.of_mem_children e he
    have : e.size < n.size := size_lt_of_mem he
    rw [hchildren, List.getLast?_append]
    show m.start c ≤ m.stop e
    have hstart : m.start e ≤ m.stop e := start_le_stop hnested e.has_self
    rcases hc with rfl | hbelow
    · exact le_trans (h.here.inside e he).1 hstart
    · obtain ⟨d, hd, hc⟩ := below_iff.1 hbelow
      have hordered := h.here.ordered
      rw [hchildren] at hd hordered
      rcases List.mem_append.1 hd with hfront | hlast
      · -- what is in an earlier child ends before the last one begins
        have hd : d.Everywhere (Nested m) :=
          h.of_mem_children d (hchildren ▸ List.mem_append_left _ hfront)
        have hde : m.finish d ≤ m.start e :=
          (List.pairwise_append.1 hordered).2.2 d hfront e (List.mem_singleton_self e)
        calc m.start c ≤ m.finish c := (hd.of_has hc).here.forward
          _ ≤ m.finish d := finish_le_of_has hd hc
          _ ≤ m.start e := hde
          _ ≤ m.stop e := hstart
      · rw [List.mem_singleton.1 hlast] at hc
        exact start_le_stop hnested hc
termination_by n.size

/-! ### Nodes that are apart -/

/-- One of the nodes ends before the other begins. -/
def Apart (m : SourceMap) (a b : Node) : Prop := m.finish a ≤ m.start b ∨ m.finish b ≤ m.start a

section

variable {m : SourceMap} {n a b c d : Node}

theorem Apart.symm (h : a.Apart m b) : b.Apart m a := Or.symm h

/-- What is in nodes that are apart is apart. -/
theorem Apart.of_has (h : a.Apart m b) (ha : a.Everywhere (Nested m))
    (hb : b.Everywhere (Nested m)) (hc : a.Has c) (hd : b.Has d) : c.Apart m d := by
  rcases h with h | h
  · exact .inl (le_trans (finish_le_of_has ha hc) (le_trans h (start_le_of_has hb hd)))
  · exact .inr (le_trans (finish_le_of_has hb hd) (le_trans h (start_le_of_has ha hc)))

/-- Different children are apart, in whatever order they are taken. -/
theorem Nested.pairwise_apart (h : n.Nested m) {ns : List Node} (hns : ns.Subperm n.children) :
    ns.Pairwise (Apart m) := by
  obtain ⟨l, hperm, hsub⟩ := hns
  have hl : l.Pairwise (Apart m) := (h.ordered.imp fun hcd => .inl hcd).sublist hsub
  exact hl.perm hperm Apart.symm

end

/-! ### Trees one can look through -/

mutual

/-- The node and all nodes below it. -/
def nodes : Node → List Node
  | mk k f s cs => mk k f s cs :: nodesOf cs

/-- The nodes of all trees of a list. -/
def nodesOf : List Node → List Node
  | [] => []
  | c :: cs => c.nodes ++ nodesOf cs

end

theorem nodesOf_eq (cs : List Node) : nodesOf cs = cs.flatMap nodes := by
  induction cs with
  | nil => rfl
  | cons c cs ih => rw [nodesOf, ih, List.flatMap_cons]

theorem nodes_eq (n : Node) : n.nodes = n :: n.children.flatMap nodes := by
  obtain ⟨k, f, s, cs⟩ := n
  rw [nodes, nodesOf_eq]
  rfl

theorem everywhere_iff {P : Node → Prop} {n : Node} :
    n.Everywhere P ↔ ∀ c ∈ n.nodes, P c := by
  obtain ⟨k, f, s, cs⟩ := n
  rw [nodes_eq, List.forall_mem_cons]
  have hchildren : (∀ c ∈ cs, c.Everywhere P) ↔ ∀ c ∈ cs.flatMap nodes, P c := by
    rw [List.forall_mem_flatMap]
    refine forall₂_congr fun c hc => ?_
    have : c.size < (mk k f s cs).size := size_lt_of_mem hc
    exact everywhere_iff
  constructor
  · exact fun h => ⟨h.here, hchildren.1 h.of_mem_children⟩
  · exact fun ⟨hn, hcs⟩ => .mk hn (hchildren.2 hcs)
termination_by n.size

instance (P : Node → Prop) [DecidablePred P] (n : Node) : Decidable (n.Everywhere P) :=
  decidable_of_iff _ everywhere_iff.symm

instance (text : List Char) : DecidablePred (LiesOver text) := fun n =>
  decidable_of_iff (IsPlace text n.span.start n.span.startByte ∧
      IsPlace text n.span.stop n.span.stopByte ∧ n.span.startByte ≤ n.span.stopByte ∧
      (∀ c ∈ n.children, n.span.startByte ≤ c.span.startByte ∧
        c.span.stopByte ≤ n.span.stopByte) ∧
      n.children.Pairwise fun c d => c.span.stopByte ≤ d.span.startByte)
    ⟨fun ⟨h₁, h₂, h₃, h₄, h₅⟩ => ⟨h₁, h₂, h₃, h₄, h₅⟩,
      fun ⟨h₁, h₂, h₃, h₄, h₅⟩ => ⟨h₁, h₂, h₃, h₄, h₅⟩⟩

end Node

end Syntax

end CrossRef
