/-
  CrossRef.Proofs.Extraction.Reach

  Which tasks a walk comes to (`Comes`): those it begins with, and whatever they
  split into. Declarations and scopes are only added behind those that are
  there (`Grows`), so what a task does when the walk comes to it is there in
  the end, and no scope is opened for two constructs (`Enters.unique`).
-/
import CrossRef.Proofs.Extraction.Opened

namespace CrossRef.Extraction

open CrossRef.Syntax

variable {src : Source} {x y z : Extraction} {t u v : Task} {ts : List Task}

/-! ## What is collected grows -/

/-- `y` has the declarations and scopes of `x`, and perhaps others behind them. -/
structure Grows (x y : Extraction) : Prop where
  declarations : x.declarations.toList <+: y.declarations.toList
  scopes : x.scopes.scopes.toList <+: y.scopes.scopes.toList

namespace Grows

theorem refl (x : Extraction) : Grows x x := ⟨List.prefix_rfl, List.prefix_rfl⟩

theorem trans (h : Grows x y) (h' : Grows y z) : Grows x z :=
  ⟨h.declarations.trans h'.declarations, h.scopes.trans h'.scopes⟩

theorem scopeCount_le (h : Grows x y) : x.scopes.scopeCount ≤ y.scopes.scopeCount :=
  h.scopes.length_le

/-- What has a number keeps it. -/
theorem declaration (h : Grows x y) {i : Nat} {d : Declaration}
    (hd : x.declarations[i]? = some d) : y.declarations[i]? = some d := by
  rw [← Array.getElem?_toList] at *
  obtain ⟨ds, hds⟩ := h.declarations
  rw [← hds]
  exact List.getElem?_append_left (List.getElem?_eq_some_iff.1 hd).1 ▸ hd

theorem scope (h : Grows x y) {i : Nat} {s : Scope} (hs : x.scopes.scopes[i]? = some s) :
    y.scopes.scopes[i]? = some s := by
  rw [← Array.getElem?_toList] at *
  obtain ⟨ss, hss⟩ := h.scopes
  rw [← hss]
  exact List.getElem?_append_left (List.getElem?_eq_some_iff.1 hs).1 ▸ hs

end Grows

theorem grows_openScope (src : Source) (parent : ScopeId) (kind : ScopeKind) (body : Node)
    (hx : 0 < x.scopes.scopeCount) : Grows x (openScope src parent kind body x) where
  declarations := List.prefix_rfl
  scopes := ⟨_, (adds_openScope_latest parent kind body hx).symm⟩

theorem grows_declare (src : Source) (scope : ScopeId) (kind : DeclarationKind) (n : Node)
    (x : Extraction) : Grows x (declare src scope kind n x) := by
  unfold declare
  simp only
  split
  · exact .refl x
  · refine ⟨?_, List.prefix_rfl⟩
    rw [Array.toList_push]
    exact List.prefix_append _ _

theorem grows_recordWildcard (src : Source) (scope : ScopeId) (n : Node) (x : Extraction) :
    Grows x (recordWildcard src scope n x) := by
  unfold recordWildcard
  split
  · split
    · exact ⟨List.prefix_rfl, List.prefix_rfl⟩
    · exact .refl x
  · exact .refl x

theorem grows_expand (src : Source) (t : Task) (hx : 0 < x.scopes.scopeCount) :
    Grows x (expand src t x).2 := by
  cases t with
  | visit | bind | parameter | clause => exact .refl x
  | enter outer n =>
    rw [expand]
    split
    · exact grows_openScope src outer _ _ hx
    · exact .refl x
  | declare scope kind n => exact grows_declare src scope kind n x
  | wildcard scope n => exact grows_recordWildcard src scope n x

theorem grows_run (src : Source) (t : Task) (hx : 0 < x.scopes.scopeCount) :
    Grows x (run src t x) := by
  refine run_preserves (T := fun _ => True) (fun _ _ _ _ _ => trivial) ?_ t trivial x (.refl x)
  exact fun u y _ hy => hy.trans (grows_expand src u (Nat.lt_of_lt_of_le hx hy.scopeCount_le))

theorem grows_runAll (src : Source) (ts : List Task) (hx : 0 < x.scopes.scopeCount) :
    Grows x (runAll src ts x) := by
  refine List.foldlRecOn (motive := fun y => Grows x y) ts _ (.refl x) fun y hy t _ => ?_
  exact hy.trans (grows_run src t (Nat.lt_of_lt_of_le hx hy.scopeCount_le))

/-! ## Tasks that are done -/

/-- Doing the tasks one after another from `x` on comes to `u`, when `y` has been
    collected: `u` is one of them, or one of those that they split into. -/
inductive Comes (src : Source) : List Task → Extraction → Task → Extraction → Prop where
  | here {t : Task} {ts : List Task} {x : Extraction} : Comes src (t :: ts) x t x
  | inside {t u : Task} {ts : List Task} {x y : Extraction} :
      Comes src (expand src t x).1 (expand src t x).2 u y → Comes src (t :: ts) x u y
  | behind {t u : Task} {ts : List Task} {x y : Extraction} :
      Comes src ts (run src t x) u y → Comes src (t :: ts) x u y

namespace Comes

theorem of_mem (hu : u ∈ ts) (x : Extraction) : ∃ y, Comes src ts x u y := by
  induction ts generalizing x with
  | nil => cases hu
  | cons t ts ih =>
    rcases List.mem_cons.1 hu with rfl | hu
    · exact ⟨x, .here⟩
    · obtain ⟨y, hy⟩ := ih hu (run src t x)
      exact ⟨y, .behind hy⟩

/-- The walk also comes to what comes of splitting a task it comes to. -/
theorem trans (h : Comes src ts x u y) (hv : Comes src (expand src u y).1 (expand src u y).2 v z) :
    Comes src ts x v z := by
  induction h with
  | here => exact .inside hv
  | inside _ ih => exact .inside (ih hv)
  | behind _ ih => exact .behind (ih hv)

theorem next (h : Comes src ts x u y) (hv : v ∈ (expand src u y).1) :
    ∃ z, Comes src ts x v z := by
  obtain ⟨z, hz⟩ := of_mem hv (expand src u y).2
  exact ⟨z, h.trans hz⟩

theorem grows_before (h : Comes src ts x u y) (hx : 0 < x.scopes.scopeCount) : Grows x y := by
  induction h with
  | here => exact .refl _
  | @inside t _ _ _ _ _ ih =>
    have hstep := grows_expand src t hx
    exact hstep.trans (ih (Nat.lt_of_lt_of_le hx hstep.scopeCount_le))
  | @behind t _ _ _ _ _ ih =>
    have hrun := grows_run src t hx
    exact hrun.trans (ih (Nat.lt_of_lt_of_le hx hrun.scopeCount_le))

/-- What has been collected when a task is done is there in the end. -/
theorem grows_behind (h : Comes src ts x u y) (hx : 0 < x.scopes.scopeCount) :
    Grows (run src u y) (runAll src ts x) := by
  induction h with
  | @here t ts x =>
    have hrun := grows_run src t hx
    exact grows_runAll src ts (Nat.lt_of_lt_of_le hx hrun.scopeCount_le)
  | @inside t u ts x y _ ih =>
    have hstep := grows_expand src t hx
    have hrun := grows_run src t hx
    have hinside := ih (Nat.lt_of_lt_of_le hx hstep.scopeCount_le)
    rw [← run_eq_runAll] at hinside
    exact hinside.trans (grows_runAll src ts (Nat.lt_of_lt_of_le hx hrun.scopeCount_le))
  | @behind t u ts x y _ ih =>
    have hrun := grows_run src t hx
    exact ih (Nat.lt_of_lt_of_le hx hrun.scopeCount_le)

end Comes

/-! ## Scopes of their own -/

variable {outer outer' : ScopeId} {n n' : Node}

/-- Entering a construct that opens a scope makes one more. -/
theorem scopeCount_expand_enter (src : Source) (outer : ScopeId) (hn : (opened? n).isSome = true)
    (hx : 0 < x.scopes.scopeCount) :
    (expand src (.enter outer n) x).2.scopes.scopeCount = x.scopes.scopeCount + 1 := by
  obtain ⟨⟨kind, body⟩, hopened⟩ := Option.isSome_iff_exists.1 hn
  rw [expand, hopened]
  exact (adds_openScope_latest outer kind body hx).scopeCount_eq

theorem Comes.scopeCount_lt_of_enter (h : Comes src ts x (.enter outer n) y)
    (hn : (opened? n).isSome = true) (hx : 0 < x.scopes.scopeCount) :
    y.scopes.scopeCount < (runAll src ts x).scopes.scopeCount := by
  have hy : 0 < y.scopes.scopeCount :=
    Nat.lt_of_lt_of_le hx (h.grows_before hx).scopeCount_le
  have hopen := scopeCount_expand_enter src outer hn hy
  have hrun : Grows (expand src (.enter outer n) y).2 (run src (.enter outer n) y) := by
    rw [run_eq_runAll]
    exact grows_runAll src _ (by omega)
  have hbehind := (h.grows_behind hx).scopeCount_le
  have hinside := hrun.scopeCount_le
  omega

/-- No two constructs are entered with the same number of scopes. -/
theorem Comes.enter_unique (h : Comes src ts x (.enter outer n) y)
    (h' : Comes src ts x (.enter outer' n') z) (hn : (opened? n).isSome = true)
    (hn' : (opened? n').isSome = true) (hx : 0 < x.scopes.scopeCount)
    (hcount : y.scopes.scopeCount = z.scopes.scopeCount) : n = n' := by
  -- what comes inside a task comes before what comes behind it
  have apart {t : Task} {ts : List Task} {x y z : Extraction} {outer outer' : ScopeId}
      {n n' : Node} (hx : 0 < x.scopes.scopeCount) (hn : (opened? n).isSome = true)
      (h : Comes src (expand src t x).1 (expand src t x).2 (.enter outer n) y)
      (h' : Comes src ts (run src t x) (.enter outer' n') z) :
      y.scopes.scopeCount < z.scopes.scopeCount := by
    have hstep := (grows_expand src t hx).scopeCount_le
    have hrun := (grows_run src t hx).scopeCount_le
    have hinside := h.scopeCount_lt_of_enter hn (by omega)
    rw [← run_eq_runAll] at hinside
    have hbehind := (h'.grows_before (by omega)).scopeCount_le
    omega
  -- and what comes of entering a construct comes after its scope
  have first (ts : List Task) {x z : Extraction} {outer outer' : ScopeId} {n n' : Node}
      (hx : 0 < x.scopes.scopeCount) (hn : (opened? n).isSome = true)
      (h' : Comes src (expand src (.enter outer n) x).1 (expand src (.enter outer n) x).2
          (.enter outer' n') z ∨ Comes src ts (run src (.enter outer n) x) (.enter outer' n') z) :
      x.scopes.scopeCount < z.scopes.scopeCount := by
    have hopen := scopeCount_expand_enter src outer hn hx
    have hpos : 0 < (expand src (.enter outer n) x).2.scopes.scopeCount := by omega
    rcases h' with h' | h'
    · have hbefore := (h'.grows_before hpos).scopeCount_le
      omega
    · rw [run_eq_runAll] at h'
      have hinside := (grows_runAll src (expand src (.enter outer n) x).1 hpos).scopeCount_le
      have hbefore := (h'.grows_before (by omega)).scopeCount_le
      omega
  generalize hu : Task.enter outer n = u at h
  induction h with
  | here =>
    subst hu
    cases h' with
    | here => rfl
    | inside h' => exact absurd (first [] hx hn (.inl h')) (by omega)
    | behind h' => exact absurd (first _ hx hn (.inr h')) (by omega)
  | @inside t u ts x y h ih =>
    subst hu
    cases h' with
    | here => exact absurd (first [] hx hn' (.inl h)) (by omega)
    | inside h' =>
      have hstep := (grows_expand src t hx).scopeCount_le
      exact ih h' (by omega) hcount rfl
    | behind h' => exact absurd (apart hx hn h h') (by omega)
  | @behind t u ts x y h ih =>
    subst hu
    cases h' with
    | here => exact absurd (first _ hx hn' (.inr h)) (by omega)
    | inside h' => exact absurd (apart hx hn' h' h) (by omega)
    | behind h' =>
      have hrun := (grows_run src t hx).scopeCount_le
      exact ih h' (by omega) hcount rfl

/-! ## The walk over a tree -/

/-- The tasks with which the walk over a tree begins. -/
def visits (root : Node) : List Task := root.namedChildren.map (Task.visit 0)

theorem scopeCount_empty_pos : 0 < Extraction.empty.scopes.scopeCount := Nat.one_pos

/-- The walk over the tree comes to the task. -/
def Meets (src : Source) (root : Node) (t : Task) : Prop :=
  ∃ y, Comes src (visits root) .empty t y

/-- The walk over the tree enters the construct and opens the scope for it. -/
def Enters (src : Source) (root n : Node) (scope : ScopeId) : Prop :=
  ∃ outer y, Comes src (visits root) .empty (.enter outer n) y ∧ (opened? n).isSome = true ∧
    y.scopes.scopeCount = scope

section

variable {root : Node} {scope : ScopeId}

theorem Meets.of_mem (h : u ∈ visits root) : Meets src root u := Comes.of_mem h _

/-- The walk comes to what a task splits into, if that is the same whatever has
    been collected. -/
theorem Meets.next (h : Meets src root t) (hu : ∀ x, u ∈ (expand src t x).1) :
    Meets src root u := by
  obtain ⟨y, hy⟩ := h
  exact hy.next (hu y)

theorem Meets.enters (h : Meets src root (.enter outer n)) (hn : (opened? n).isSome = true) :
    ∃ scope, Enters src root n scope := by
  obtain ⟨y, hy⟩ := h
  exact ⟨_, outer, y, hy, hn, rfl⟩

/-- The walk goes on inside the construct, in its scope. -/
theorem Enters.meets (h : Enters src root n scope) :
    ∃ outer, ∀ u ∈ innerTasks outer scope n, Meets src root u := by
  obtain ⟨outer, y, hy, hn, rfl⟩ := h
  obtain ⟨⟨kind, body⟩, hopened⟩ := Option.isSome_iff_exists.1 hn
  refine ⟨outer, fun u hu => hy.next ?_⟩
  rw [expand, hopened]
  exact hu

/-- A scope is opened for one construct only. -/
theorem Enters.unique (h : Enters src root n scope) (h' : Enters src root n' scope) : n = n' := by
  obtain ⟨_, _, hy, hn, hscope⟩ := h
  obtain ⟨_, _, hz, hn', hscope'⟩ := h'
  exact hy.enter_unique hz hn hn' scopeCount_empty_pos (hscope.trans hscope'.symm)

/-- The scope is one over the body of the construct. -/
theorem Enters.exists_scope (h : Enters src root n scope) {kind : ScopeKind} {body : Node}
    (hopened : opened? n = some (kind, body)) :
    ∃ outer, (ofTree src root).scopes.scopes[scope]? = some ⟨kind, some outer,
      src.map.start body, Position.latest (src.map.start body) (src.map.stop body)⟩ := by
  obtain ⟨outer, y, hy, -, rfl⟩ := h
  have hpos : 0 < y.scopes.scopeCount := Nat.lt_of_lt_of_le scopeCount_empty_pos
    (hy.grows_before scopeCount_empty_pos).scopeCount_le
  have hadds : Adds y (openScope src outer kind body y) _ :=
    adds_openScope_latest outer kind body hpos
  have hinside : Grows (openScope src outer kind body y) (run src (.enter outer n) y) := by
    have hopen := (grows_openScope src outer kind body hpos).scopeCount_le
    rw [run_eq_runAll, expand, hopened]
    exact grows_runAll src _ (Nat.lt_of_lt_of_le hpos hopen)
  refine ⟨outer, (hinside.trans (hy.grows_behind scopeCount_empty_pos)).scope ?_⟩
  rw [← Array.getElem?_toList, hadds]
  exact List.getElem?_concat_length

/-- What the walk comes to declare is declared in the end. -/
theorem Meets.exists_declaration {kind : DeclarationKind}
    (h : Meets src root (.declare scope kind n)) (htext : src.map.text n ≠ "") :
    ∃ i : Nat, (ofTree src root).declarations[i]? = some ⟨src.map.text n, kind, src.file,
      (src.map.start n).line, (src.map.start n).column, scope⟩ := by
  obtain ⟨y, hy⟩ := h
  refine ⟨y.declarations.size, (hy.grows_behind scopeCount_empty_pos).declaration ?_⟩
  have hempty : (src.map.text n).isEmpty = false := by
    rw [← Bool.not_eq_true, String.isEmpty_iff]
    exact htext
  rw [run_eq_runAll, expand]
  show (declare src scope kind n y).declarations[y.declarations.size]? = _
  rw [declare]
  simp only [hempty]
  exact Array.getElem?_push_size

end

end CrossRef.Extraction
