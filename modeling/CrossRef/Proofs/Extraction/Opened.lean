/-
  CrossRef.Proofs.Extraction.Opened

  The scopes that tasks open. A task adds scopes behind those that are there
  and changes none of them (`adds_run`), and each one it adds lies in one of
  the nodes that the task is about, where no other task opens any.
-/
import CrossRef.Proofs.Extraction.Sites

namespace CrossRef

open CrossRef.Syntax

namespace Extraction

variable {src : Source} {m : SourceMap} {p : Position} {x y z : Extraction} {t : Task}

/-! ## Added scopes -/

/-- `y` has the scopes of `x` and, behind them, `added`. -/
def Adds (x y : Extraction) (added : List Scope) : Prop :=
  y.scopes.scopes.toList = x.scopes.scopes.toList ++ added

theorem Adds.of_eq (h : y.scopes.scopes = x.scopes.scopes) : Adds x y [] := by
  rw [Adds, h, List.append_nil]

theorem Adds.trans {as bs : List Scope} (h : Adds x y as) (h' : Adds y z bs) :
    Adds x z (as ++ bs) := by
  rw [Adds] at *
  rw [h', h, List.append_assoc]

theorem Adds.scopeCount_eq {as : List Scope} (h : Adds x y as) :
    y.scopes.scopeCount = x.scopes.scopeCount + as.length := by
  have hlen := congrArg List.length h
  rwa [List.length_append, Array.length_toList, Array.length_toList] at hlen

theorem Adds.scopeCount_pos {as : List Scope} (h : Adds x y as)
    (hx : 0 < x.scopes.scopeCount) : 0 < y.scopes.scopeCount := by
  rw [h.scopeCount_eq]
  omega

/-- A scope is opened behind the others. It ends with the last leaf of its body,
    but not before the body begins. -/
theorem adds_openScope_latest (parent : ScopeId) (kind : ScopeKind) (body : Node)
    (hx : 0 < x.scopes.scopeCount) :
    Adds x (openScope src parent kind body x) [⟨kind, some parent, src.map.start body,
      Position.latest (src.map.start body) (src.map.stop body)⟩] := by
  have hmodify (ss : List Scope) (s : Scope) (f : Scope → Scope) :
      (ss ++ [s]).modify ss.length f = ss ++ [f s] := by
    induction ss with
    | nil => rfl
    | cons r ss ih => exact congrArg (r :: ·) ih
  rw [Adds, openScope, ScopeGraph.closeScope, if_neg (Nat.ne_of_gt hx)]
  simp only [ScopeGraph.addScope, ScopeGraph.scopeCount, Array.toList_modify, Array.toList_push]
  rw [← Array.length_toList, hmodify]

/-- A scope opened over a body ends with its last leaf. -/
theorem adds_openScope (parent : ScopeId) (kind : ScopeKind) {body : Node}
    (hx : 0 < x.scopes.scopeCount) (hbody : src.map.start body ≤ src.map.stop body) :
    Adds x (openScope src parent kind body x)
      [⟨kind, some parent, src.map.start body, src.map.stop body⟩] := by
  have hlatest : Position.latest (src.map.start body) (src.map.stop body) = src.map.stop body := by
    rw [Position.latest]
    split
    · rfl
    · exact le_antisymm hbody (not_lt.1 ‹_›)
  rw [← hlatest]
  exact adds_openScope_latest parent kind body hx

/-! ## Where scopes are opened -/

/-- The positions of the node nest, and no scope over its body ends at `p`. -/
structure Clear (m : SourceMap) (p : Position) (n : Node) : Prop where
  nested : n.Nested m
  ends : ∀ kind body, opened? n = some (kind, body) → m.stop body ≠ p

theorem nested_of_clear {n : Node} (h : n.Everywhere (Clear m p)) :
    n.Everywhere (Node.Nested m) :=
  h.imp fun _ hc => hc.here.nested

/-- The scope lies in the node, and does not end at `p`. -/
structure LiesIn (m : SourceMap) (p : Position) (r : Node) (s : Scope) : Prop where
  start : m.start r ≤ s.start
  stop : s.stop ≤ m.finish r
  ends : s.stop ≠ p

theorem LiesIn.of_has {a r : Node} {s : Scope} (h : LiesIn m p r s)
    (ha : a.Everywhere (Node.Nested m)) (hr : a.Has r) : LiesIn m p a s where
  start := le_trans (Node.start_le_of_has ha hr) h.start
  stop := le_trans h.stop (Node.finish_le_of_has ha hr)
  ends := h.ends

/-- A task itself opens one scope at most, over a body it is about. -/
theorem adds_expand (ht : t.Within (Clear src.map p)) (hx : 0 < x.scopes.scopeCount) :
    ∃ added, Adds x (expand src t x).2 added ∧
      ∀ s ∈ added, ∃ r ∈ t.sites, LiesIn src.map p r s := by
  have none_added {y : Extraction} (hy : y.scopes.scopes = x.scopes.scopes) :
      ∃ added, Adds x y added ∧ ∀ s ∈ added, ∃ r ∈ t.sites, LiesIn src.map p r s :=
    ⟨[], .of_eq hy, fun _ hs => absurd hs List.not_mem_nil⟩
  cases t with
  | visit | bind | parameter | clause => exact none_added rfl
  | enter outer n =>
    rw [expand]
    split
    · rename_i kind body hopened
      have hmem : body ∈ entered n := mem_entered_of_opened? hopened
      have hnested : body.Everywhere (Node.Nested src.map) :=
        nested_of_clear (Node.Everywhere.of_has ht ((parts_entered n).has body hmem))
      refine ⟨_, adds_openScope outer kind hx (Node.start_le_stop hnested body.has_self),
        List.forall_mem_singleton.2 ⟨body, hmem, ?_⟩⟩
      exact ⟨le_refl _, Node.stop_le_finish hnested,
        (Node.Everywhere.here ht).ends kind body hopened⟩
    · exact none_added rfl
  | declare scope kind n =>
    refine none_added ?_
    rw [expand, declare]
    simp only
    split
    · rfl
    · rfl
  | wildcard scope n =>
    refine none_added ?_
    rw [expand, recordWildcard]
    split
    · split
      · rfl
      · rfl
    · rfl

/-! ## The walk -/

/-- Does tasks one after another. -/
def runAll (src : Source) (ts : List Task) (x : Extraction) : Extraction :=
  ts.foldl (fun y t => run src t y) x

theorem run_eq_runAll (src : Source) (t : Task) (x : Extraction) :
    run src t x = runAll src (expand src t x).1 (expand src t x).2 := run_eq src t x

/-- What tasks add one after another, given what each of them adds. -/
theorem adds_foldl {ts : List Task} (hx : 0 < x.scopes.scopeCount)
    (h : ∀ t ∈ ts, ∀ y, 0 < y.scopes.scopeCount → ∃ added, Adds y (run src t y) added ∧
      ∀ s ∈ added, ∃ r ∈ t.sites, LiesIn src.map p r s) :
    ∃ added, Adds x (runAll src ts x) added ∧
      ∀ s ∈ added, ∃ t ∈ ts, ∃ r ∈ t.sites, LiesIn src.map p r s := by
  induction ts generalizing x with
  | nil => exact ⟨[], .of_eq rfl, fun _ hs => absurd hs List.not_mem_nil⟩
  | cons t ts ih =>
    obtain ⟨ht, hts⟩ := List.forall_mem_cons.1 h
    obtain ⟨as, has, hin⟩ := ht x hx
    obtain ⟨bs, hbs, hin'⟩ := ih (has.scopeCount_pos hx) hts
    refine ⟨as ++ bs, has.trans hbs, fun s hs => ?_⟩
    rcases List.mem_append.1 hs with hs | hs
    · exact ⟨t, List.mem_cons_self, hin s hs⟩
    · obtain ⟨u, hu, hr⟩ := hin' s hs
      exact ⟨u, List.mem_cons_of_mem t hu, hr⟩

theorem adds_run {t : Task} {x : Extraction} (ht : t.Within (Clear src.map p))
    (hx : 0 < x.scopes.scopeCount) : ∃ added, Adds x (run src t x) added ∧
    ∀ s ∈ added, ∃ r ∈ t.sites, LiesIn src.map p r s := by
  obtain ⟨as, has, hin⟩ := adds_expand ht hx
  have hparts : ∀ u ∈ (expand src t x).1, ∀ y, 0 < y.scopes.scopeCount →
      ∃ added, Adds y (run src u y) added ∧
        ∀ s ∈ added, ∃ r ∈ u.sites, LiesIn src.map p r s := fun u hu y hy =>
    -- a task that this one leaves behind is smaller
    have : u.weight < t.weight := weight_expand hu
    adds_run (within_expand ht x u hu) hy
  obtain ⟨bs, hbs, hin'⟩ := adds_foldl (has.scopeCount_pos hx) hparts
  rw [run_eq_runAll]
  refine ⟨as ++ bs, has.trans hbs, fun s hs => ?_⟩
  rcases List.mem_append.1 hs with hs | hs
  · exact hin s hs
  · obtain ⟨u, hu, r, hr, hlies⟩ := hin' s hs
    obtain ⟨a, ha, hhas⟩ := exists_site_of_mem_expand hu r hr
    exact ⟨a, ha, hlies.of_has (nested_of_clear (ht.of_mem_sites ha)) hhas⟩
termination_by t.weight

theorem adds_runAll {ts : List Task} (hts : ∀ t ∈ ts, t.Within (Clear src.map p))
    (hx : 0 < x.scopes.scopeCount) :
    ∃ added, Adds x (runAll src ts x) added ∧
      ∀ s ∈ added, ∃ t ∈ ts, ∃ r ∈ t.sites, LiesIn src.map p r s :=
  adds_foldl hx fun t ht _ hy => adds_run (hts t ht) hy

end Extraction

end CrossRef
