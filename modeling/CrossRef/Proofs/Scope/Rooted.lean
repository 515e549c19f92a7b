/-
  CrossRef.Proofs.Scope.Rooted

  Scope graphs as trees. A scope is added below one that is there already, so
  every scope but the first has a parent with a smaller number (`Rooted`), and
  no closing, binding or import changes that. Whoever goes from a scope to its
  parent and on gets to the module scope, and takes fewer steps than there are
  scopes.
-/
import CrossRef.Scope.Graph

namespace CrossRef

namespace ScopeGraph

variable {g : ScopeGraph} {parent scope s : Nat} {kind : ScopeKind} {start stop : Position}
  {name : String} {i : Nat} {w : WildcardImport}

/-! ## What changes leave as it is -/

@[simp] theorem scopeCount_empty : empty.scopeCount = 1 := rfl

@[simp] theorem scopeCount_addScope :
    (g.addScope parent kind start).scopeCount = g.scopeCount + 1 :=
  Array.size_push _

@[simp] theorem scopeCount_closeScope : (g.closeScope scope stop).scopeCount = g.scopeCount := by
  unfold closeScope
  split
  · rfl
  · exact Array.size_modify ..

@[simp] theorem scopeCount_define : (g.define scope name i).scopeCount = g.scopeCount := rfl

@[simp] theorem scopeCount_addWildcard : (g.addWildcard w).scopeCount = g.scopeCount := rfl

/-- Closing a scope sets its end and nothing else. -/
theorem getElem?_closeScope (g : ScopeGraph) (scope s : ScopeId) (stop : Position) :
    ∃ f : Scope → Position, (g.closeScope scope stop).scopes[s]? =
      g.scopes[s]?.map fun r => { r with stop := f r } := by
  have hsame : ∃ f : Scope → Position, g.scopes[s]? =
      g.scopes[s]?.map fun r => { r with stop := f r } := ⟨Scope.stop, by simp⟩
  unfold closeScope
  split
  · exact hsame
  · show ∃ f : Scope → Position, (g.scopes.modify scope _)[s]? = _
    rw [Array.getElem?_modify]
    split
    · exact ⟨fun r => Position.latest r.start stop, rfl⟩
    · exact hsame

@[simp] theorem parent?_closeScope : (g.closeScope scope stop).parent? s = g.parent? s := by
  obtain ⟨f, hf⟩ := getElem?_closeScope g scope s stop
  rw [parent?, hf, parent?]
  cases g.scopes[s]? <;> rfl

@[simp] theorem kind?_closeScope : (g.closeScope scope stop).kind? s = g.kind? s := by
  obtain ⟨f, hf⟩ := getElem?_closeScope g scope s stop
  rw [kind?, hf, kind?]
  cases g.scopes[s]? <;> rfl

@[simp] theorem parent?_define : (g.define scope name i).parent? s = g.parent? s := rfl

@[simp] theorem kind?_define : (g.define scope name i).kind? s = g.kind? s := rfl

@[simp] theorem parent?_addWildcard : (g.addWildcard w).parent? s = g.parent? s := rfl

@[simp] theorem kind?_addWildcard : (g.addWildcard w).kind? s = g.kind? s := rfl

/-- A new scope has the next number. -/
theorem getElem?_addScope : (g.addScope parent kind start).scopes[s]? =
    if s = g.scopeCount then some ⟨kind, some parent, start, .unbounded⟩ else g.scopes[s]? :=
  Array.getElem?_push

theorem parent?_addScope : (g.addScope parent kind start).parent? s =
    if s = g.scopeCount then some parent else g.parent? s := by
  rw [parent?, getElem?_addScope]
  split
  · rfl
  · rfl

theorem kind?_addScope : (g.addScope parent kind start).kind? s =
    if s = g.scopeCount then some kind else g.kind? s := by
  rw [kind?, getElem?_addScope]
  split
  · rfl
  · rfl

/-! ## Trees of scopes -/

/-- The module scope is there and has no parent, every other scope has one with
    a smaller number. -/
structure Rooted (g : ScopeGraph) : Prop where
  pos : 0 < g.scopeCount
  root : g.parent? 0 = none
  parent : ∀ s : Nat, 0 < s → s < g.scopeCount → ∃ p : Nat, g.parent? s = some p ∧ p < s

theorem rooted_empty : Rooted empty where
  pos := Nat.one_pos
  root := rfl
  parent := fun s hs hlt => by
    rw [scopeCount_empty] at hlt
    omega

/-- Only the parents of scopes matter. -/
theorem Rooted.congr {h : ScopeGraph} (hg : g.Rooted) (hcount : h.scopeCount = g.scopeCount)
    (hparent : ∀ s, h.parent? s = g.parent? s) : h.Rooted where
  pos := by rw [hcount]; exact hg.pos
  root := by rw [hparent]; exact hg.root
  parent := fun s hs hlt => by rw [hparent]; exact hg.parent s hs (by omega)

theorem Rooted.addScope (hg : g.Rooted) (hparent : parent < g.scopeCount) :
    (g.addScope parent kind start).Rooted where
  pos := by simp
  root := by
    have hpos := hg.pos
    rw [parent?_addScope, if_neg (by omega)]
    exact hg.root
  parent := fun s hs hlt => by
    rw [scopeCount_addScope] at hlt
    rw [parent?_addScope]
    by_cases hnew : s = g.scopeCount
    · -- its parent was there before it
      rw [if_pos hnew]
      exact ⟨parent, rfl, by omega⟩
    · rw [if_neg hnew]
      exact hg.parent s hs (by omega)

/-! ## Graphs built step by step -/

/-- The graph was made out of the empty one by adding scopes below scopes that
    were there, and by any closings, bindings and imports in between. -/
inductive Built : ScopeGraph → Prop where
  | empty : Built .empty
  | addScope {g : ScopeGraph} {parent : ScopeId} {kind : ScopeKind} {start : Position} :
      Built g → parent < g.scopeCount → Built (g.addScope parent kind start)
  | closeScope {g : ScopeGraph} {scope : ScopeId} {stop : Position} :
      Built g → Built (g.closeScope scope stop)
  | define {g : ScopeGraph} {scope : ScopeId} {name : String} {i : Nat} :
      Built g → Built (g.define scope name i)
  | addWildcard {g : ScopeGraph} {w : WildcardImport} : Built g → Built (g.addWildcard w)

theorem Built.rooted (h : g.Built) : g.Rooted := by
  induction h with
  | empty => exact rooted_empty
  | addScope _ hparent ih => exact ih.addScope hparent
  | closeScope _ ih => exact ih.congr scopeCount_closeScope fun _ => parent?_closeScope
  | define _ ih => exact ih.congr rfl fun _ => rfl
  | addWildcard _ ih => exact ih.congr rfl fun _ => rfl

end ScopeGraph

end CrossRef
