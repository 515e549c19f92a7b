/-
  CrossRef.Proofs.Scope.Lookup

  What a name means in a scope. The search for it goes from the scope to its
  parent and on, and passes over the bodies of classes it did not start in. In
  a graph whose scopes form a tree the search ends, and what it finds is the
  innermost binding that can be seen (`resolvesFrom_of_built`).

  The way outwards is bounded by the number of scopes so that it ends in every
  graph. In a tree the bound is never what ends it: each parent has a smaller
  number, and the way stops at the module scope (`climbs_ancestors`).
-/
import CrossRef.Proofs.Scope.Rooted
import Mathlib.Data.List.Basic

namespace CrossRef

namespace ScopeGraph

variable {g : ScopeGraph} {s t p : Nat} {chain : List ScopeId} {name : String} {i : Nat}

/-! ## The way outwards -/

/-- The scopes on the way from `s` to its parent and on, up to one that has no
    parent. -/
inductive Climbs (g : ScopeGraph) : ScopeId → List ScopeId → Prop where
  | stop {s : ScopeId} : g.parent? s = none → Climbs g s [s]
  | up {s p : ScopeId} {chain : List ScopeId} :
      g.parent? s = some p → Climbs g p chain → Climbs g s (s :: chain)

theorem Rooted.lt_of_parent? (hg : g.Rooted) (hs : s < g.scopeCount)
    (hp : g.parent? s = some p) : p < s := by
  by_cases hroot : s = 0
  · subst hroot
    rw [hg.root] at hp
    cases hp
  · obtain ⟨q, hq, hlt⟩ := hg.parent s (by omega) hs
    rw [hq] at hp
    cases hp
    exact hlt

/-- A way of `s` steps is long enough for the scope `s`. -/
theorem climbs_ancestors (hg : g.Rooted) {fuel : Nat} (hs : s < g.scopeCount) (hfuel : s ≤ fuel) :
    g.Climbs s (g.ancestors fuel s) := by
  induction fuel generalizing s with
  | zero =>
    have hroot : s = 0 := by omega
    subst hroot
    exact .stop hg.root
  | succ fuel ih =>
    rw [ancestors]
    cases hp : g.parent? s with
    | none => exact .stop hp
    | some p =>
      -- one step is spent, and the parent needs one step less
      have hlt := hg.lt_of_parent? hs hp
      exact .up hp (ih (by omega) (by omega))

theorem climbs_scopeChain (hg : g.Rooted) (hs : s < g.scopeCount) :
    g.Climbs s (g.scopeChain s) :=
  climbs_ancestors hg hs (Nat.le_of_lt hs)

theorem Climbs.head?_eq (h : g.Climbs s chain) : chain.head? = some s := by
  cases h <;> rfl

theorem Climbs.le_of_mem (hg : g.Rooted) (h : g.Climbs s chain) (hs : s < g.scopeCount) :
    ∀ t ∈ chain, t ≤ s := by
  induction h with
  | stop => simp
  | @up s p chain hp _ ih =>
    have hlt : p < s := hg.lt_of_parent? hs hp
    intro t ht
    rcases List.mem_cons.1 ht with rfl | ht
    · exact Nat.le_refl _
    · exact Nat.le_trans (ih (Nat.lt_trans hlt hs) t ht) (Nat.le_of_lt hlt)

/-- Numbers get smaller on the way outwards. -/
theorem Climbs.descending (hg : g.Rooted) (h : g.Climbs s chain) (hs : s < g.scopeCount) :
    chain.Pairwise (· > ·) := by
  induction h with
  | stop => exact List.pairwise_singleton _ _
  | @up s p chain hp hchain ih =>
    have hlt : p < s := hg.lt_of_parent? hs hp
    have hps : p < g.scopeCount := Nat.lt_trans hlt hs
    apply List.pairwise_cons.2
    exact ⟨fun t ht => Nat.lt_of_le_of_lt (hchain.le_of_mem hg hps t ht) hlt, ih hps⟩

/-- The way ends in the module scope. -/
theorem Climbs.getLast?_eq (hg : g.Rooted) (h : g.Climbs s chain) (hs : s < g.scopeCount) :
    chain.getLast? = some 0 := by
  induction h with
  | @stop s hnone =>
    -- every other scope has a parent
    by_cases hroot : s = (0 : Nat)
    · rw [hroot]
      rfl
    · obtain ⟨p, hp, -⟩ := hg.parent s (Nat.pos_of_ne_zero hroot) hs
      rw [hnone] at hp
      cases hp
  | @up s p chain hp _ ih =>
    have hlt : p < s := hg.lt_of_parent? hs hp
    rw [List.getLast?_cons, ih (Nat.lt_trans hlt hs)]
    rfl

/-! ## The search for a name -/

/-- Names bound in `t` can be used in `s`: `t` is `s` itself or no class body. -/
def Sees (g : ScopeGraph) (s t : ScopeId) : Prop := t = s ∨ g.kind? t ≠ some .classBody

theorem isVisibleFrom_iff : g.isVisibleFrom s t = true ↔ g.Sees s t := by
  rw [isVisibleFrom, Bool.or_eq_true, beq_iff_eq, bne_iff_ne, Sees]

/-- The search for a name in `s` has got to `t`; from there on it ends with the result. -/
inductive Searches (g : ScopeGraph) (s : ScopeId) (name : String) :
    ScopeId → Option Nat → Prop where
  | found {t : ScopeId} {i : Nat} :
      g.Sees s t → g.lookupLocal t name = some i → Searches g s name t (some i)
  | up {t p : ScopeId} {r : Option Nat} :
      (g.Sees s t → g.lookupLocal t name = none) → g.parent? t = some p →
      Searches g s name p r → Searches g s name t r
  | out {t : ScopeId} :
      (g.Sees s t → g.lookupLocal t name = none) → g.parent? t = none →
      Searches g s name t none

/-- What a scope on the way contributes to the search. -/
def offer (g : ScopeGraph) (s : ScopeId) (name : String) (t : ScopeId) : Option Nat :=
  if g.isVisibleFrom s t then g.lookupLocal t name else none

theorem lookup_eq_findSome? : g.lookup s name = (g.scopeChain s).findSome? (g.offer s name) := rfl

theorem offer_eq_some_iff :
    g.offer s name t = some i ↔ g.Sees s t ∧ g.lookupLocal t name = some i := by
  rw [offer, ← isVisibleFrom_iff]
  split
  · simp [*]
  · simp [*]

theorem offer_eq_none_iff :
    g.offer s name t = none ↔ (g.Sees s t → g.lookupLocal t name = none) := by
  rw [offer, ← isVisibleFrom_iff]
  split
  · simp [*]
  · simp [*]

theorem Climbs.searches (h : g.Climbs t chain) :
    g.Searches s name t (chain.findSome? (g.offer s name)) := by
  -- the search ends at the first scope that offers something
  induction h with
  | @stop t hnone =>
    rw [List.findSome?_singleton]
    cases hoffer : g.offer s name t with
    | none => exact .out (offer_eq_none_iff.1 hoffer) hnone
    | some i =>
      obtain ⟨hsees, hi⟩ := offer_eq_some_iff.1 hoffer
      exact .found hsees hi
  | @up t p chain hp _ ih =>
    rw [List.findSome?_cons]
    cases hoffer : g.offer s name t with
    | none => exact .up (offer_eq_none_iff.1 hoffer) hp ih
    | some i =>
      obtain ⟨hsees, hi⟩ := offer_eq_some_iff.1 hoffer
      exact .found hsees hi

theorem lookup_eq_some_iff : g.lookup s name = some i ↔
    ∃ before t after, g.scopeChain s = before ++ t :: after ∧ g.Sees s t ∧
      g.lookupLocal t name = some i ∧
      ∀ u ∈ before, g.Sees s u → g.lookupLocal u name = none := by
  simp only [lookup_eq_findSome?, List.findSome?_eq_some_iff, offer_eq_some_iff,
    offer_eq_none_iff, and_assoc]

theorem lookup_eq_none_iff : g.lookup s name = none ↔
    ∀ t ∈ g.scopeChain s, g.Sees s t → g.lookupLocal t name = none := by
  simp only [lookup_eq_findSome?, List.findSome?_eq_none_iff, offer_eq_none_iff]

/-- What is bound in bodies of classes around a function is not seen inside it. -/
theorem lookup_eq_none_of_classBody (hg : g.Rooted) (hs : s < g.scopeCount) {f : Nat}
    (hf : f ∈ g.scopeChain s) (hkind : g.kind? f = some .function)
    (hbound : ∀ t ∈ g.scopeChain s, g.lookupLocal t name ≠ none →
      g.kind? t = some .classBody ∧ t ∈ g.scopeChain f) :
    g.lookup s name = none := by
  apply lookup_eq_none_iff.2
  intro t ht hsees
  by_contra hne
  obtain ⟨hclass, htf⟩ := hbound t ht hne
  -- a class body can only be seen from itself, and then the function is that class body
  have hts : t = s := hsees.resolve_right fun h => h hclass
  have hfs : f ≤ s := (climbs_scopeChain hg hs).le_of_mem hg hs f hf
  have hfcount : f < g.scopeCount := by omega
  have htf : t ≤ f := (climbs_scopeChain hg hfcount).le_of_mem hg hfcount t htf
  have hsf : f = s := Nat.le_antisymm hfs (hts ▸ htf)
  rw [hts, ← hsf, hkind] at hclass
  cases hclass

/-! ## What names mean -/

/-- The way outwards from `s` and the search for names along it end, and the
    innermost binding that can be seen is what a name means in `s`. -/
structure ResolvesFrom (g : ScopeGraph) (s : ScopeId) : Prop where
  climbs : g.Climbs s (g.scopeChain s)
  head : (g.scopeChain s).head? = some s
  last : (g.scopeChain s).getLast? = some 0
  descending : (g.scopeChain s).Pairwise (· > ·)
  searches : ∀ name, g.Searches s name s (g.lookup s name)
  found : ∀ name i, g.lookup s name = some i ↔
    ∃ before t after, g.scopeChain s = before ++ t :: after ∧ g.Sees s t ∧
      g.lookupLocal t name = some i ∧
      ∀ u ∈ before, g.Sees s u → g.lookupLocal u name = none
  missing : ∀ name, g.lookup s name = none ↔
    ∀ t ∈ g.scopeChain s, g.Sees s t → g.lookupLocal t name = none
  hidden : ∀ name, ∀ f ∈ g.scopeChain s, g.kind? f = some .function →
    (∀ t ∈ g.scopeChain s, g.lookupLocal t name ≠ none →
      g.kind? t = some .classBody ∧ t ∈ g.scopeChain f) →
    g.lookup s name = none

/-- **Lookup is lexical.** In a graph whose scopes were each added below one that
    was there, whatever else was done to it, every scope has a way outwards
    with descending numbers that ends in the module scope, and a name means
    what the first scope on the way binds it to that can be seen. What only
    the bodies of classes around a function bind is not found in the function. -/
theorem resolvesFrom_of_built (g : ScopeGraph) (hg : g.Built) (s : ScopeId)
    (hs : s < g.scopeCount) : g.ResolvesFrom s := by
  have hrooted := hg.rooted
  have hclimbs := climbs_scopeChain hrooted hs
  exact {
    climbs := hclimbs
    head := hclimbs.head?_eq
    last := hclimbs.getLast?_eq hrooted hs
    descending := hclimbs.descending hrooted hs
    searches := fun _ => hclimbs.searches
    found := fun _ _ => lookup_eq_some_iff
    missing := fun _ => lookup_eq_none_iff
    hidden := fun _ _ hf hkind hbound => lookup_eq_none_of_classBody hrooted hs hf hkind hbound }

/-- A function in a method of a class. The module and the class bind one name,
    the class alone another. -/
def methodGraph : ScopeGraph :=
  (((((((empty.addScope 0 .classBody ⟨2, 4⟩).addScope 1 .function ⟨3, 8⟩).closeScope 2
    ⟨4, 20⟩).addScope 2 .function ⟨4, 12⟩).define 0 "helper" 0).define 1 "helper" 1).define 1
      "limit" 2)

theorem resolvesFrom_of_built_methodGraph :
    methodGraph.Built ∧ 3 < methodGraph.scopeCount ∧ methodGraph.ResolvesFrom 3 ∧
      methodGraph.scopeChain 3 = [3, 2, 1, 0] ∧ methodGraph.lookup 3 "helper" = some 0 ∧
      methodGraph.lookup 1 "helper" = some 1 ∧ methodGraph.lookup 3 "limit" = none := by
  have hbuilt : methodGraph.Built :=
    .define <| .define <| .define <| .addScope (.closeScope <|
      .addScope (.addScope .empty (by decide)) (by decide)) (by decide)
  have hcount : 3 < methodGraph.scopeCount := by decide
  have hresolves := resolvesFrom_of_built methodGraph hbuilt 3 hcount
  refine ⟨hbuilt, hcount, hresolves, by decide, by decide, by decide, ?_⟩
  -- the class body alone binds the name, around the method
  apply hresolves.hidden "limit" 2 (by decide) (by decide)
  intro t ht hbound
  have hmem : t = 3 ∨ t = 2 ∨ t = 1 ∨ t = 0 := by
    simpa [show methodGraph.scopeChain 3 = [3, 2, 1, 0] by decide] using ht
  rcases hmem with rfl | rfl | rfl | rfl
  · exact absurd (by decide) hbound
  · exact absurd (by decide) hbound
  · exact ⟨by decide, by decide⟩
  · exact absurd (by decide) hbound

end ScopeGraph

end CrossRef
