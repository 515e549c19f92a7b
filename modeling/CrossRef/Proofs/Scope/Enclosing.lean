/-
  CrossRef.Proofs.Scope.Enclosing

  The scopes around a place (`covers_iff_mem_scopeChain`). If scopes lie in one
  another as stretches where they do as scopes, and are apart otherwise, the
  scopes that cover a place are those on the way outwards from the one that
  `scopeAt` finds there.

  `scopeAt` looks at numbers and starts only. That suffices because the scopes
  that cover a place are each around the next one: a later number then belongs
  to an inner scope, and an inner scope does not start before an outer one. So
  each of them takes the place of the one before it (`innermost_of_covers`),
  and the last of them remains.
-/
import CrossRef.Proofs.Scope.Lookup

namespace CrossRef

namespace Scope

/-- The place is the first or the last one the scope covers. -/
def EndsAt (r : Scope) (p : Position) : Prop := p = r.start ∨ p = r.stop

/-- The stretch of a scope lies within that of another; they may start or end
    together. -/
def Within (inner outer : Scope) : Prop := outer.start ≤ inner.start ∧ inner.stop ≤ outer.stop

theorem Within.refl (r : Scope) : r.Within r :=
  ⟨.inr ⟨rfl, Nat.le_refl _⟩, .inr ⟨rfl, Nat.le_refl _⟩⟩

theorem Within.trans {a b c : Scope} (hab : a.Within b) (hbc : b.Within c) : a.Within c := by
  simp only [Within, Position.le_def] at hab hbc ⊢
  omega

theorem Within.covers {inner outer : Scope} (h : inner.Within outer) {p : Position}
    (hp : inner.covers p) : outer.covers p := by
  simp only [Within, Scope.covers, Position.le_def] at h hp ⊢
  omega

end Scope

namespace ScopeGraph

/-! ## Nested scopes -/

/-- The scope of this number covers the place. -/
def Covers (g : ScopeGraph) (s : ScopeId) (p : Position) : Prop :=
  ∃ r, g.scopes[s]? = some r ∧ r.covers p

/-- Neither of two scopes is the other or around it. -/
def Unrelated (g : ScopeGraph) (s t : ScopeId) : Prop :=
  s ∉ g.scopeChain t ∧ t ∉ g.scopeChain s

instance (g : ScopeGraph) (s t : ScopeId) : Decidable (g.Unrelated s t) :=
  inferInstanceAs (Decidable (_ ∧ _))

/-- Every scope lies within its parent, and a place that unrelated scopes share is
    an end of one of them. -/
structure Nested (g : ScopeGraph) : Prop where
  within : ∀ s q a b, g.parent? s = some q → g.scopes[s]? = some a → g.scopes[q]? = some b →
    a.Within b
  apart : ∀ s t a b, g.Unrelated s t → g.scopes[s]? = some a → g.scopes[t]? = some b →
    ∀ p, a.covers p → b.covers p → a.EndsAt p ∨ b.EndsAt p

/-- The place is an end of a scope that an unrelated scope covers as well. -/
def SharedEnd (g : ScopeGraph) (p : Position) : Prop :=
  ∃ s t a b, g.Unrelated s t ∧ g.scopes[s]? = some a ∧ g.scopes[t]? = some b ∧
    a.covers p ∧ b.covers p ∧ (a.EndsAt p ∨ b.EndsAt p)

variable {g : ScopeGraph} {s t : Nat} {p : Position} {a b : Scope}

/-! ## The module scope -/

theorem scopes_zero_closeScope (g : ScopeGraph) (scope : ScopeId) (stop : Position) :
    (g.closeScope scope stop).scopes[0]? = g.scopes[0]? := by
  unfold closeScope
  split
  · rfl
  · next hscope =>
    show (g.scopes.modify scope _)[0]? = _
    rw [Array.getElem?_modify, if_neg hscope]

/-- The module scope covers everything, whatever is done to the graph. -/
theorem Built.scopes_zero (hg : g.Built) :
    g.scopes[0]? = some ⟨.module, none, .origin, .unbounded⟩ := by
  induction hg with
  | empty => rfl
  | @addScope g parent kind start hg _ ih =>
    have hpos : 0 < g.scopeCount := hg.rooted.pos
    rw [getElem?_addScope, if_neg (by omega), ih]
  | closeScope _ ih => rw [scopes_zero_closeScope, ih]
  | define _ ih => exact ih
  | addWildcard _ ih => exact ih

theorem covers_zero (hg : g.Built) (hp : p ≤ .unbounded) : g.Covers 0 p := by
  have horigin : Position.origin ≤ p := by
    show 0 < p.line ∨ (0 = p.line ∧ 0 ≤ p.column)
    omega
  exact ⟨_, hg.scopes_zero, horigin, hp⟩

/-! ## Outwards -/

theorem Covers.lt (h : g.Covers s p) : s < g.scopeCount := by
  obtain ⟨r, hr, -⟩ := h
  exact (Array.getElem?_eq_some_iff.1 hr).1

/-- A scope lies within those around it. -/
theorem Nested.within_chain (hn : g.Nested) (hg : g.Rooted) (ht : t < g.scopeCount)
    (hs : s ∈ g.scopeChain t) (ha : g.scopes[s]? = some a) (hb : g.scopes[t]? = some b) :
    b.Within a := by
  have hclimbs := climbs_scopeChain hg ht
  generalize g.scopeChain t = chain at hs hclimbs
  -- along the way outwards, each scope lies within the next
  induction hclimbs generalizing b with
  | stop =>
    obtain rfl := List.mem_singleton.1 hs
    obtain rfl : a = b := Option.some.inj (ha.symm.trans hb)
    exact .refl a
  | @up t q chain hq _ ih =>
    rcases List.mem_cons.1 hs with rfl | hs
    · obtain rfl : a = b := Option.some.inj (ha.symm.trans hb)
      exact .refl a
    · have hqt : q < t := hg.lt_of_parent? ht hq
      have hqcount : q < g.scopeCount := Nat.lt_trans hqt ht
      have hc : g.scopes[q]? = some g.scopes[q] := Array.getElem?_eq_getElem hqcount
      have houter : g.scopes[q].Within a := ih hqcount hc hs
      exact (hn.within t q b _ hq hb hc).trans houter

/-- Whatever a scope covers is covered by the scopes around it. -/
theorem Covers.of_chain (hn : g.Nested) (hg : g.Rooted) (ht : g.Covers t p)
    (hs : s ∈ g.scopeChain t) : g.Covers s p := by
  have hlt := ht.lt
  have hst : s ≤ t := (climbs_scopeChain hg hlt).le_of_mem hg hlt s hs
  have hcount : s < g.scopeCount := by omega
  have ha : g.scopes[s]? = some g.scopes[s] := Array.getElem?_eq_getElem hcount
  obtain ⟨b, hb, hcovers⟩ := ht
  exact ⟨_, ha, (hn.within_chain hg hlt hs ha hb).covers hcovers⟩

/-- Of two scopes that cover a place the one with the smaller number is around the
    other, unless the place is an end that unrelated scopes share. -/
theorem mem_scopeChain_of_covers (hn : g.Nested) (hg : g.Rooted) (hp : ¬ g.SharedEnd p)
    (hs : g.Covers s p) (ht : g.Covers t p) (hst : s ≤ t) : s ∈ g.scopeChain t := by
  have hlt := hs.lt
  by_contra hnot
  have hother : t ∉ g.scopeChain s := by
    intro hmem
    -- then the two are one scope, which is on its own way outwards
    have hts : t ≤ s := (climbs_scopeChain hg hlt).le_of_mem hg hlt t hmem
    obtain rfl : s = t := Nat.le_antisymm hst hts
    exact hnot hmem
  obtain ⟨a, ha, hacovers⟩ := hs
  obtain ⟨b, hb, hbcovers⟩ := ht
  have hends := hn.apart s t a b ⟨hnot, hother⟩ ha hb p hacovers hbcovers
  exact hp ⟨s, t, a, b, ⟨hnot, hother⟩, ha, hb, hacovers, hbcovers, hends⟩

/-! ## The search for the innermost scope -/

/-- The scope chosen so far is the last one that covers the place among those with
    numbers below `k`, and its start is known. -/
structure LastCovering (g : ScopeGraph) (p : Position) (k : Nat) (best : ScopeId × Position) :
    Prop where
  covers : ∃ r, g.scopes[best.1]? = some r ∧ r.covers p ∧ r.start = best.2
  last : ∀ s : Nat, s < k → g.Covers s p → s ≤ best.1

/-- A scope that covers the place does not start before those that do so too and
    have smaller numbers, so it is chosen instead of them. -/
theorem innermost_of_covers (hn : g.Nested) (hg : g.Rooted) (hp : ¬ g.SharedEnd p) {k : Nat}
    {best : ScopeId × Position} (hbest : g.LastCovering p k best) (hlt : best.1 < k)
    (ha : g.scopes[k]? = some a) (hcovers : a.covers p) :
    innermost p best (a, k) = (k, a.start) := by
  obtain ⟨r, hr, hrcovers, hstart⟩ := hbest.covers
  have haround : best.1 ∈ g.scopeChain k :=
    mem_scopeChain_of_covers hn hg hp ⟨r, hr, hrcovers⟩ ⟨a, ha, hcovers⟩ (Nat.le_of_lt hlt)
  have hk : k < g.scopeCount := Covers.lt ⟨a, ha, hcovers⟩
  have hle : best.2 ≤ a.start := hstart ▸ (hn.within_chain hg hk haround hr ha).1
  rw [innermost, if_pos ⟨hcovers, hle⟩]

theorem lastCovering_innermost (hn : g.Nested) (hg : g.Rooted) (hp : ¬ g.SharedEnd p) {k : Nat}
    {best : ScopeId × Position} (hbest : g.LastCovering p k best) (hlt : best.1 < k)
    (ha : g.scopes[k]? = some a) :
    g.LastCovering p (k + 1) (innermost p best (a, k)) ∧ (innermost p best (a, k)).1 < k + 1 := by
  by_cases hcovers : a.covers p
  · rw [innermost_of_covers hn hg hp hbest hlt ha hcovers]
    refine ⟨⟨⟨a, ha, hcovers, rfl⟩, fun s hs _ => ?_⟩, Nat.lt_succ_self k⟩
    exact Nat.lt_succ_iff.1 hs
  · have hsame : innermost p best (a, k) = best := by
      rw [innermost, if_neg fun h => hcovers h.1]
    rw [hsame]
    refine ⟨⟨hbest.covers, fun s hs hscovers => ?_⟩, Nat.lt_succ_of_lt hlt⟩
    have hne : s ≠ k := by
      rintro rfl
      obtain ⟨r, hr, hrcovers⟩ := hscovers
      obtain rfl : r = a := Option.some.inj (hr.symm.trans ha)
      exact hcovers hrcovers
    exact hbest.last s (by omega) hscovers

/-- The choice goes on through the scopes with numbers from `k` on. -/
theorem lastCovering_foldl (hn : g.Nested) (hg : g.Rooted) (hp : ¬ g.SharedEnd p)
    {rest : List Scope} {k : Nat} {best : ScopeId × Position}
    (hrest : ∀ i : Nat, g.scopes[k + i]? = rest[i]?) (hbest : g.LastCovering p k best)
    (hlt : best.1 < k) :
    g.LastCovering p (k + rest.length) ((rest.zipIdx k).foldl (innermost p) best) := by
  induction rest generalizing k best with
  | nil => exact hbest
  | cons a rest ih =>
    have ha : g.scopes[k]? = some a := hrest 0
    obtain ⟨hnext, hlt⟩ := lastCovering_innermost hn hg hp hbest hlt ha
    have hlen : k + (a :: rest).length = k + 1 + rest.length := by
      rw [List.length_cons]
      omega
    rw [List.zipIdx_cons, List.foldl_cons, hlen]
    apply ih _ hnext hlt
    intro i
    have hi := hrest (i + 1)
    rwa [show k + (i + 1) = k + 1 + i by omega, List.getElem?_cons_succ] at hi

theorem lastCovering_scopeAt (hg : g.Built) (hn : g.Nested) (hle : p ≤ .unbounded)
    (hp : ¬ g.SharedEnd p) :
    ∃ start, g.LastCovering p g.scopeCount (g.scopeAt p, start) := by
  obtain ⟨root, hroot, hcovers⟩ := covers_zero hg hle
  have hzero : g.scopes[0]? = some ⟨.module, none, .origin, .unbounded⟩ := hg.scopes_zero
  obtain rfl := Option.some.inj (hroot.symm.trans hzero)
  -- the module scope covers the place, and is looked at before all others
  have hstart : g.LastCovering p 1 (0, .origin) := by
    refine ⟨⟨_, hroot, hcovers, rfl⟩, fun s hs _ => ?_⟩
    exact Nat.lt_succ_iff.1 hs
  have hlist : ∃ rest, g.scopes.toList = ⟨.module, none, .origin, .unbounded⟩ :: rest := by
    have hhead : g.scopes.toList.head? = some ⟨.module, none, .origin, .unbounded⟩ := by
      rw [List.head?_eq_getElem?, Array.getElem?_toList, hzero]
    exact ⟨_, List.eq_cons_of_mem_head? hhead⟩
  obtain ⟨rest, hrest⟩ := hlist
  have hcount : g.scopeCount = 1 + rest.length := by
    rw [scopeCount, ← Array.length_toList, hrest, List.length_cons]
    omega
  have hnumbers : ∀ i : Nat, g.scopes[1 + i]? = rest[i]? := by
    intro i
    rw [← Array.getElem?_toList, hrest, Nat.add_comm, List.getElem?_cons_succ]
  have hlast := lastCovering_foldl hn hg.rooted hp hnumbers hstart Nat.one_pos
  rw [← hcount] at hlast
  have hfound : g.scopeAt p = ((rest.zipIdx 1).foldl (innermost p) (0, .origin)).1 := by
    rw [scopeAt, hrest]
    rfl
  rw [hfound]
  exact ⟨_, hlast⟩

/-- **A place is in the scopes around the one found for it.** Let the scopes of a
    graph, built step by step, lie within their parents, and let scopes of which
    none is around the other share at most an end. Then at every place that is
    no such shared end, the scopes that cover it are the innermost one that is
    found there and those around that one. -/
theorem covers_iff_mem_scopeChain (g : ScopeGraph) (hg : g.Built) (hn : g.Nested)
    (p : Position) (hle : p ≤ .unbounded) (hp : ¬ g.SharedEnd p) (s : Nat) :
    g.Covers s p ↔ s ∈ g.scopeChain (g.scopeAt p) := by
  obtain ⟨start, hlast⟩ := lastCovering_scopeAt hg hn hle hp
  obtain ⟨r, hr, hcovers, -⟩ := hlast.covers
  have hfound : g.Covers (g.scopeAt p) p := ⟨r, hr, hcovers⟩
  constructor
  · intro hs
    exact mem_scopeChain_of_covers hn hg.rooted hp hs hfound (hlast.last s hs.lt hs)
  · exact hfound.of_chain hn hg.rooted

/-- A class with two methods. The second one was added first and ends with the
    class; the other starts with the class and ends where the second starts. -/
def touchingGraph : ScopeGraph :=
  (((((empty.addScope 0 .classBody ⟨2, 4⟩).addScope 1 .function ⟨4, 4⟩).addScope 1 .function
    ⟨2, 4⟩).closeScope 2 ⟨6, 9⟩).closeScope 3 ⟨4, 4⟩).closeScope 1 ⟨6, 9⟩

theorem built_touchingGraph : touchingGraph.Built :=
  .closeScope <| .closeScope <| .closeScope <|
    .addScope (.addScope (.addScope .empty (by decide)) (by decide)) (by decide)

theorem eq_of_between_methods (hfirst : Position.mk 4 4 ≤ p) (hlast : p ≤ Position.mk 4 4) :
    p = ⟨4, 4⟩ := by
  obtain ⟨line, column⟩ := p
  simp only [Position.le_def] at hfirst hlast
  simp only [Position.mk.injEq]
  omega

/-- Only the two methods are unrelated, and they share the place between them. -/
theorem eq_of_unrelated_touchingGraph (hst : touchingGraph.Unrelated s t)
    (ha : touchingGraph.scopes[s]? = some a) (hb : touchingGraph.scopes[t]? = some b)
    (hpa : a.covers p) (hpb : b.covers p) : p = ⟨4, 4⟩ ∧ a.EndsAt p := by
  have hs : s < 4 := (Array.getElem?_eq_some_iff.1 ha).1
  have ht : t < 4 := (Array.getElem?_eq_some_iff.1 hb).1
  have hpairs : ∀ s < 4, ∀ t < 4, touchingGraph.Unrelated s t →
      s = 2 ∧ t = 3 ∨ s = 3 ∧ t = 2 := by decide
  rcases hpairs s hs t ht hst with ⟨rfl, rfl⟩ | ⟨rfl, rfl⟩
  · cases ha
    cases hb
    have hp : p = ⟨4, 4⟩ := eq_of_between_methods hpa.1 hpb.2
    exact ⟨hp, .inl hp⟩
  · cases ha
    cases hb
    have hp : p = ⟨4, 4⟩ := eq_of_between_methods hpb.1 hpa.2
    exact ⟨hp, .inr hp⟩

theorem nested_touchingGraph : touchingGraph.Nested where
  within := by
    intro s q a b hq ha hb
    have hs : s < 4 := (Array.getElem?_eq_some_iff.1 ha).1
    have hparents : ∀ s < 4, ∀ q ∈ touchingGraph.parent? s,
        s = 1 ∧ q = 0 ∨ s = 2 ∧ q = 1 ∨ s = 3 ∧ q = 1 := by decide
    rcases hparents s hs q hq with ⟨rfl, rfl⟩ | ⟨rfl, rfl⟩ | ⟨rfl, rfl⟩
    all_goals
      cases ha
      cases hb
      exact ⟨by decide, by decide⟩
  apart := fun _ _ _ _ hst ha hb _ hpa hpb =>
    .inl (eq_of_unrelated_touchingGraph hst ha hb hpa hpb).2

/-- In the method that was added last, at the front of the text. -/
theorem covers_iff_mem_scopeChain_touchingGraph :
    touchingGraph.Built ∧ touchingGraph.Nested ∧ Position.mk 3 8 ≤ .unbounded ∧
      ¬ touchingGraph.SharedEnd ⟨3, 8⟩ ∧ touchingGraph.scopeAt ⟨3, 8⟩ = 3 ∧
      ∀ s : Nat, touchingGraph.Covers s ⟨3, 8⟩ ↔ s ∈ [3, 1, 0] := by
  have hshared : ¬ touchingGraph.SharedEnd ⟨3, 8⟩ := by
    rintro ⟨s, t, a, b, hst, ha, hb, hpa, hpb, -⟩
    have hp := (eq_of_unrelated_touchingGraph hst ha hb hpa hpb).1
    exact absurd hp (by decide)
  have hle : Position.mk 3 8 ≤ .unbounded := by decide
  refine ⟨built_touchingGraph, nested_touchingGraph, hle, hshared, by decide, fun s => ?_⟩
  have hiff := covers_iff_mem_scopeChain touchingGraph built_touchingGraph nested_touchingGraph
    ⟨3, 8⟩ hle hshared s
  rwa [show touchingGraph.scopeChain (touchingGraph.scopeAt ⟨3, 8⟩) = [3, 1, 0] by decide] at hiff

end ScopeGraph

end CrossRef
