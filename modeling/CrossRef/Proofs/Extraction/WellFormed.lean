/-
  CrossRef.Proofs.Extraction.WellFormed

  Declarations, names and scopes of a file belong together, whatever the tree
  looks like (`wellFormed_ofTree`). The table of names is that of the last
  declarations, as `Tables` has it. Here it is about the scopes: a task is done
  in scopes that are there already (`knownIn_expand`), so what is declared is
  declared in one of them, and a scope that is opened lies in one of them.

  Scopes are never taken away. That is why the tasks that wait while others
  are done may still rely on theirs (`scopeCount_le_run`).
-/
import CrossRef.Proofs.Linking.Exports
import CrossRef.Proofs.Scope.Rooted

namespace CrossRef

open CrossRef.Syntax

/-! ## Names of the module scope -/

/-- Every name of the module scope comes once, in ascending order. -/
theorem ScopeGraph.ascending_moduleDefinitions (g : ScopeGraph) :
    Keyed.Ascending Prod.fst g.moduleDefinitions := by
  have hsorted := Keyed.ascending_sort
    (Keyed.nodup_keys_firsts Binding.name (g.bindings.filter (·.scope == 0)))
  show List.Pairwise _ (List.map _ _)
  exact List.pairwise_map.2 hsorted

namespace Extraction

variable {src : Source} {x y : Extraction} {t u : Task} {n : Node}

/-! ## Scopes that tasks know -/

/-- The scopes in which a task binds or opens something. -/
def Task.scopes : Task → List ScopeId
  | .visit scope _ | .bind scope _ | .enter scope _ | .clause scope _ | .declare scope _ _
  | .wildcard scope _ => [scope]
  | .parameter outer inner _ => [outer, inner]

/-- The scopes of the task are there. -/
def Task.KnownIn (x : Extraction) (t : Task) : Prop :=
  ∀ scope ∈ t.scopes, scope < x.scopes.scopeCount

theorem Task.KnownIn.mono (h : t.KnownIn x) (hle : x.scopes.scopeCount ≤ y.scopes.scopeCount) :
    t.KnownIn y :=
  fun scope hscope => Nat.lt_of_lt_of_le (h scope hscope) hle

/-- What a task leaves behind is done in its own scopes, or in the one that it opens. -/
theorem Leaves.mem_scopes (h : Leaves x t u) : ∀ scope ∈ u.scopes,
    scope ∈ t.scopes ∨ (scope = x.scopes.scopeCount ∧ ∃ outer n, t = .enter outer n) := by
  intro scope hscope
  cases h with
  | parameter =>
    rcases List.mem_cons.1 hscope with rfl | hscope
    · exact .inl List.mem_cons_self
    · exact .inr ⟨List.mem_singleton.1 hscope, _, _, rfl⟩
  | clause | inside => exact .inr ⟨List.mem_singleton.1 hscope, _, _, rfl⟩
  | parameterName | parameterCode => exact .inl (by simp_all [Task.scopes])
  | _ => exact .inl hscope

/-! ## Steps -/

theorem scopeCount_openScope (src : Source) (x : Extraction) (parent : ScopeId)
    (kind : ScopeKind) (body : Node) :
    (openScope src parent kind body x).scopes.scopeCount = x.scopes.scopeCount + 1 := by
  simp [openScope]

/-- The same scopes are there, each of its kind and where it was. -/
structure KeepsScopes (x y : Extraction) : Prop where
  count : y.scopes.scopeCount = x.scopes.scopeCount
  parent : ∀ s, y.scopes.parent? s = x.scopes.parent? s
  kind : ∀ s, y.scopes.kind? s = x.scopes.kind? s

theorem KeepsScopes.of_eq (h : y.scopes = x.scopes) : KeepsScopes x y :=
  ⟨by rw [h], fun s => by rw [h], fun s => by rw [h]⟩

theorem keepsScopes_declare (scope : ScopeId) (kind : DeclarationKind) :
    KeepsScopes x (declare src scope kind n x) := by
  unfold declare
  simp only
  split
  · exact .of_eq rfl
  · exact ⟨by simp, fun s => by simp, fun s => by simp⟩

theorem keepsScopes_recordWildcard (scope : ScopeId) :
    KeepsScopes x (recordWildcard src scope n x) := by
  unfold recordWildcard
  split
  · split
    · exact ⟨by simp, fun s => by simp, fun s => by simp⟩
    · exact .of_eq rfl
  · exact .of_eq rfl

/-- A task adds at most one scope, and below its own: it either enters a
    construct that opens one, or leaves the scopes as they are. -/
theorem scopes_expand (src : Source) (t : Task) (x : Extraction) :
    (∃ outer n kind body, t = .enter outer n ∧ opened? n = some (kind, body) ∧
      (expand src t x).2 = openScope src outer kind body x) ∨
    (KeepsScopes x (expand src t x).2 ∧
      ∀ outer n, t = .enter outer n → (expand src t x).1 = []) := by
  cases t with
  | visit | bind | parameter | clause => exact .inr ⟨.of_eq rfl, fun _ _ h => by cases h⟩
  | declare scope kind n => exact .inr ⟨keepsScopes_declare scope kind, fun _ _ h => by cases h⟩
  | wildcard scope n => exact .inr ⟨keepsScopes_recordWildcard scope, fun _ _ h => by cases h⟩
  | enter outer n =>
    cases hopened : opened? n with
    | none =>
      have hnothing : expand src (.enter outer n) x = ([], x) := by simp [expand, hopened]
      rw [hnothing]
      exact .inr ⟨.of_eq rfl, fun _ _ _ => rfl⟩
    | some found =>
      obtain ⟨kind, body⟩ := found
      exact .inl ⟨outer, n, kind, body, rfl, hopened, by simp [expand, hopened]⟩

theorem scopeCount_le_expand (src : Source) (t : Task) (x : Extraction) :
    x.scopes.scopeCount ≤ (expand src t x).2.scopes.scopeCount := by
  rcases scopes_expand src t x with ⟨outer, n, kind, body, -, -, h⟩ | ⟨hkeeps, -⟩
  · rw [h, scopeCount_openScope]
    omega
  · exact Nat.le_of_eq hkeeps.count.symm

/-- No scope is lost on the walk. -/
theorem scopeCount_le_run (src : Source) (t : Task) (x : Extraction) :
    x.scopes.scopeCount ≤ (run src t x).scopes.scopeCount := by
  apply run_preserves (T := fun _ => True)
    (P := fun y : Extraction => x.scopes.scopeCount ≤ y.scopes.scopeCount)
  · exact fun _ _ _ _ _ => trivial
  · exact fun u y _ hy => Nat.le_trans hy (scopeCount_le_expand src u y)
  · trivial
  · exact Nat.le_refl _

/-- A task leaves tasks behind that are done in scopes which are there by then. -/
theorem knownIn_expand (ht : t.KnownIn x) :
    ∀ u ∈ (expand src t x).1, u.KnownIn (expand src t x).2 := by
  intro u hu scope hscope
  have hle := scopeCount_le_expand src t x
  rcases (leaves_of_mem_expand hu).mem_scopes scope hscope with hold | ⟨rfl, outer, n, henter⟩
  · exact Nat.lt_of_lt_of_le (ht scope hold) hle
  · -- the task opens a scope, or else nothing is left to do
    rcases scopes_expand src t x with ⟨_, _, _, _, -, -, h⟩ | ⟨-, hnothing⟩
    · rw [h, scopeCount_openScope]
      exact Nat.lt_succ_self _
    · rw [hnothing outer n henter] at hu
      cases hu

/-! ## Declarations in scopes -/

/-- The scopes are those of a module with classes and functions in it, and every
    declaration has a name and stands in one of them. -/
structure Placed (x : Extraction) : Prop where
  rooted : x.scopes.Rooted
  module : x.scopes.kind? 0 = some .module
  inner : ∀ s : Nat, 0 < s → s < x.scopes.scopeCount →
    x.scopes.kind? s = some .classBody ∨ x.scopes.kind? s = some .function
  name : ∀ d ∈ x.declarations, d.name ≠ ""
  scope : ∀ d ∈ x.declarations, d.scope < x.scopes.scopeCount

theorem placed_empty : Placed .empty where
  rooted := ScopeGraph.rooted_empty
  module := rfl
  inner := fun s hs hlt => by
    rw [Extraction.empty, ScopeGraph.scopeCount_empty] at hlt
    omega
  name := fun d hd => absurd hd (Array.not_mem_empty d)
  scope := fun d hd => absurd hd (Array.not_mem_empty d)

theorem kind_of_opened? {kind : ScopeKind} {body : Node} (h : opened? n = some (kind, body)) :
    kind = .classBody ∨ kind = .function := by
  unfold opened? at h
  split at h <;> simp_all

theorem Placed.openScope (hx : Placed x) {outer : Nat} (houter : outer < x.scopes.scopeCount)
    {kind : ScopeKind} (hkind : kind = .classBody ∨ kind = .function) (body : Node) :
    Placed (openScope src outer kind body x) := by
  have hpos := hx.rooted.pos
  have hcount := scopeCount_openScope src x outer kind body
  have hkinds (s : Nat) : (Extraction.openScope src outer kind body x).scopes.kind? s =
      if s = x.scopes.scopeCount then some kind else x.scopes.kind? s := by
    rw [Extraction.openScope, ScopeGraph.kind?_closeScope, ScopeGraph.kind?_addScope]
  constructor
  · exact (hx.rooted.addScope houter).congr ScopeGraph.scopeCount_closeScope
      fun _ => ScopeGraph.parent?_closeScope
  · rw [hkinds, if_neg (by omega)]
    exact hx.module
  · intro s hs hlt
    rw [hkinds]
    by_cases hnew : s = x.scopes.scopeCount
    · rw [if_pos hnew]
      exact hkind.imp (congrArg some) (congrArg some)
    · rw [if_neg hnew]
      exact hx.inner s hs (by omega)
  · exact hx.name
  · exact fun d hd => hcount ▸ Nat.lt_succ_of_lt (hx.scope d hd)

/-- What is declared gets a name and the scope it is declared in. -/
theorem mem_declarations_expand (src : Source) (t : Task) (x : Extraction) :
    ∀ d ∈ (expand src t x).2.declarations,
      d ∈ x.declarations ∨ (d.name ≠ "" ∧ d.scope ∈ t.scopes) := by
  intro d hd
  cases t with
  | visit | bind | parameter | clause => exact .inl hd
  | enter outer n =>
    rw [expand] at hd
    split at hd
    · exact .inl hd
    · exact .inl hd
  | declare scope kind n =>
    rw [expand, declare] at hd
    simp only at hd
    split at hd
    · exact .inl hd
    · rename_i hname
      rcases Array.mem_push.1 hd with hd | rfl
      · exact .inl hd
      · exact .inr ⟨fun h => hname (String.isEmpty_iff.2 h), List.mem_cons_self⟩
  | wildcard scope n =>
    rw [expand, recordWildcard] at hd
    split at hd
    · split at hd
      · exact .inl hd
      · exact .inl hd
    · exact .inl hd

theorem placed_expand (ht : t.KnownIn x) (hx : Placed x) : Placed (expand src t x).2 := by
  rcases scopes_expand src t x with
    ⟨outer, n, kind, body, rfl, hopened, h⟩ | ⟨⟨hcount, hparent, hkind⟩, -⟩
  · rw [h]
    exact hx.openScope (ht outer List.mem_cons_self) (kind_of_opened? hopened) body
  · constructor
    · exact hx.rooted.congr hcount hparent
    · rw [hkind]
      exact hx.module
    · intro s hs hlt
      rw [hkind]
      exact hx.inner s hs (hcount ▸ hlt)
    · intro d hd
      rcases mem_declarations_expand src t x d hd with hold | ⟨hname, -⟩
      · exact hx.name d hold
      · exact hname
    · intro d hd
      rw [hcount]
      rcases mem_declarations_expand src t x d hd with hold | ⟨-, hscope⟩
      · exact hx.scope d hold
      · exact ht d.scope hscope

/-! ## The walk -/

theorem placed_foldl {ts : List Task} (hts : ∀ t ∈ ts, t.KnownIn x)
    (hrun : ∀ t ∈ ts, ∀ y, t.KnownIn y → Placed y → Placed (run src t y)) (hx : Placed x) :
    Placed (ts.foldl (fun y t => run src t y) x) := by
  induction ts generalizing x with
  | nil => exact hx
  | cons t ts ih =>
    obtain ⟨ht, hts⟩ := List.forall_mem_cons.1 hts
    obtain ⟨hfirst, hrest⟩ := List.forall_mem_cons.1 hrun
    rw [List.foldl_cons]
    apply ih _ hrest (hfirst x ht hx)
    -- the scopes that the other tasks rely on are still there
    exact fun u hu => (hts u hu).mono (scopeCount_le_run src t x)

theorem placed_run (src : Source) (t : Task) (x : Extraction) (ht : t.KnownIn x)
    (hx : Placed x) : Placed (run src t x) := by
  rw [run_eq]
  apply placed_foldl (knownIn_expand ht) _ (placed_expand ht hx)
  intro u hu y huy hy
  -- a task that this one leaves behind is smaller
  have hlt : u.weight < t.weight := weight_expand hu
  exact placed_run src u y huy hy
termination_by t.weight

theorem placed_ofTree (src : Source) (root : Node) : Placed (ofTree src root) := by
  apply placed_foldl _ (fun t _ x ht hx => placed_run src t x ht hx) placed_empty
  intro t ht scope hscope
  obtain ⟨n, -, rfl⟩ := List.mem_map.1 ht
  cases List.mem_singleton.1 hscope
  exact Nat.one_pos

/-! ## Files -/

/-- What has been collected of the file fits together. A name means in a scope
    the last declaration of it there; the module scope lists its names in
    order; declarations have names, and stand in scopes of the file; and these
    are one module with classes and functions in it, each inside an earlier one. -/
structure WellFormed (file : String) (x : Extraction) : Prop where
  lookupLocal_eq_some : ∀ scope name i, x.scopes.lookupLocal scope name = some i ↔
    IsLastDeclared x.declarations scope name i
  lookupLocal_eq_none : ∀ scope name, x.scopes.lookupLocal scope name = none ↔
    ∀ d ∈ x.declarations, ¬ (d.scope = scope ∧ d.name = name)
  module_ascending : x.scopes.moduleDefinitions.Pairwise fun a b => a.1 < b.1
  mem_module : ∀ name i, (name, i) ∈ x.scopes.moduleDefinitions ↔
    IsLastDeclared x.declarations 0 name i
  module_names : ∀ name, name ∈ x.scopes.moduleDefinitions.map Prod.fst ↔
    ∃ d ∈ x.declarations, d.isModuleScope = true ∧ d.name = name
  declaration : ∀ d ∈ x.declarations,
    d.name ≠ "" ∧ d.file = file ∧ d.scope < x.scopes.scopeCount
  module : 0 < x.scopes.scopeCount ∧ x.scopes.kind? 0 = some .module ∧ x.scopes.parent? 0 = none
  inner : ∀ s : Nat, 0 < s → s < x.scopes.scopeCount →
    (x.scopes.kind? s = some .classBody ∨ x.scopes.kind? s = some .function) ∧
      ∃ p : Nat, x.scopes.parent? s = some p ∧ p < s

theorem Tabled.lookupLocal_eq_none (h : Tabled src x) (scope : ScopeId) (name : String) :
    x.scopes.lookupLocal scope name = none ↔
      ∀ d ∈ x.declarations, ¬ (d.scope = scope ∧ d.name = name) := by
  rw [Option.eq_none_iff_forall_ne_some]
  constructor
  · rintro hnone d hd ⟨rfl, rfl⟩
    obtain ⟨i, hi⟩ := exists_isLastDeclared hd
    exact hnone i ((h.lookupLocal _ _ i).2 hi)
  · intro hnone i hi
    obtain ⟨⟨d, hd, hname⟩, -⟩ := (h.lookupLocal scope name i).1 hi
    exact hnone d (Array.mem_of_getElem? hd) hname

/-- The module scope lists a name if and only if the name is declared in it. -/
theorem Tabled.mem_map_moduleDefinitions (h : Tabled src x) (name : String) :
    name ∈ x.scopes.moduleDefinitions.map Prod.fst ↔
      ∃ d ∈ x.declarations, d.isModuleScope = true ∧ d.name = name := by
  constructor
  · intro hname
    obtain ⟨⟨name, i⟩, hi, rfl⟩ := List.mem_map.1 hname
    obtain ⟨⟨d, hd, hscope, hname⟩, -⟩ :=
      (h.lookupLocal 0 _ i).1 (ScopeGraph.mem_moduleDefinitions.1 hi)
    exact ⟨d, Array.mem_of_getElem? hd, beq_iff_eq.2 hscope, hname⟩
  · rintro ⟨d, hd, hscope, rfl⟩
    obtain ⟨i, hi⟩ := exists_isLastDeclared hd
    rw [beq_iff_eq.1 hscope] at hi
    have hmem := ScopeGraph.mem_moduleDefinitions.2 ((h.lookupLocal 0 d.name i).2 hi)
    exact List.mem_map_of_mem hmem

/-- **Every tree gives a well-formed file.** Whatever the tree and the file it is
    read for, the table of names has the last declaration of each name in each
    scope, and declarations and scopes fit together. -/
theorem wellFormed_ofTree (src : Source) (root : Node) :
    (ofTree src root).WellFormed src.file := by
  have htabled := tabled_ofTree src root
  have hplaced := placed_ofTree src root
  exact {
    lookupLocal_eq_some := htabled.lookupLocal
    lookupLocal_eq_none := htabled.lookupLocal_eq_none
    module_ascending := ScopeGraph.ascending_moduleDefinitions _
    mem_module := fun name i =>
      ScopeGraph.mem_moduleDefinitions.trans (htabled.lookupLocal 0 name i)
    module_names := htabled.mem_map_moduleDefinitions
    declaration := fun d hd => ⟨hplaced.name d hd, htabled.file d hd, hplaced.scope d hd⟩
    module := ⟨hplaced.rooted.pos, hplaced.module, hplaced.rooted.root⟩
    inner := fun s hs hlt => ⟨hplaced.inner s hs hlt, hplaced.rooted.parent s hs hlt⟩ }

end Extraction

end CrossRef
