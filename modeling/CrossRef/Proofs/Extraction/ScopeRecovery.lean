/-
  CrossRef.Proofs.Extraction.ScopeRecovery

  The scope of a name, told from its position alone. The walk over a tree
  carries the scope along in which it binds names; whoever looks a name up
  later only knows where the name stands, and searches the scopes of the file
  for the innermost one around it. Both agree (`scopeAt_of_handles`).

  The search is followed along the walk. Of the tasks that are done one after
  another, only the one that has the name in a node of its own opens scopes
  around it, because the others lie apart (`Finds.around`). A task that enters
  a construct opens a scope which covers the name if the name is in the body,
  and which does not if it is in the parameters (`Finds.of_mem_expand`). Where
  one body begins with another, both scopes start at one place, and the inner
  one counts because it is added behind the outer one.
-/
import CrossRef.Linking.Resolution
import CrossRef.Proofs.Extraction.Opened
import CrossRef.Proofs.Syntax.Identifiers
import Mathlib.Data.List.Pairwise

namespace CrossRef

open CrossRef.Syntax

/-! ## The search for the innermost scope -/

namespace ScopeGraph

/-- Goes on with the search through scopes that are numbered from `i` on. -/
def search (p : Position) (i : Nat) (best : ScopeId × Position) (ss : List Scope) :
    ScopeId × Position :=
  (ss.zipIdx i).foldl (innermost p) best

variable {p : Position} {i : Nat} {best : ScopeId × Position} {s : Scope} {ss : List Scope}

theorem search_append (ss ts : List Scope) : search p i best (ss ++ ts) =
    search p (i + ss.length) (search p i best ss) ts := by
  rw [search, List.zipIdx_append, List.foldl_append]
  rfl

theorem search_cons_of_covers (hs : s.covers p) (hbest : best.2 ≤ s.start) :
    search p i best (s :: ss) = search p (i + 1) (i, s.start) ss := by
  rw [search, List.zipIdx_cons, List.foldl_cons, innermost, if_pos ⟨hs, hbest⟩]
  rfl

theorem search_cons_of_not_covers (hs : ¬ s.covers p) :
    search p i best (s :: ss) = search p (i + 1) best ss := by
  rw [search, List.zipIdx_cons, List.foldl_cons, innermost, if_neg fun h => hs h.1]
  rfl

/-- Scopes elsewhere do not matter. -/
theorem search_of_not_covers (h : ∀ s ∈ ss, ¬ s.covers p) : search p i best ss = best := by
  induction ss generalizing i with
  | nil => rfl
  | cons s ss ih =>
    obtain ⟨hs, hss⟩ := List.forall_mem_cons.1 h
    rw [search_cons_of_not_covers hs, ih hss]

theorem scopeAt_eq_search {g : ScopeGraph} (h : g.scopes.toList = s :: ss) :
    g.scopeAt p = (search p 1 (0, .origin) ss).1 := by
  rw [scopeAt, h]
  rfl

end ScopeGraph

namespace Extraction

/-! ## The tasks of a walk -/

/-- The task that is come to along a path when tasks are done in order. The
    first number of the path says which of the tasks it is or comes from, the
    others lead on through what that one leaves behind. -/
def taskAt? (src : Source) : List Nat → List Task → Extraction → Option Task
  | [], _, _ => none
  | i :: path, ts, x =>
    ts[i]?.bind fun t =>
      if path.isEmpty then some t
      else
        let split := expand src t (runAll src (ts.take i) x)
        taskAt? src path split.1 split.2

/-- The task is to visit the name in the scope, to bind it there as a target,
    or to visit a construct that declares it there. -/
inductive Task.Handles (scope : ScopeId) (n : Node) : Task → Prop where
  | visited : Handles scope n (.visit scope n)
  | bound : Handles scope n (.bind scope n)
  | declared {c : Node} {kind : DeclarationKind} :
      .declare scope kind n ∈ visitTasks scope c → Handles scope n (.visit scope c)

/-- Somewhere on its walk over the tree the extraction visits or binds the name
    in the scope. The names of parameters are not meant: they are declared in
    one scope and stand in another. -/
def Handles (src : Source) (root : Node) (scope : ScopeId) (n : Node) : Prop :=
  ∃ path t, taskAt? src path (root.namedChildren.map (.visit 0)) .empty = some t ∧
    t.Handles scope n

variable {src : Source} {m : SourceMap} {scope : ScopeId} {n : Node} {x y : Extraction}
  {t u : Task} {ts : List Task}

/-- What a path leads to is one of the tasks, or is left behind by one of them. -/
theorem taskAt?_cases {path : List Nat} (h : taskAt? src path ts x = some u) :
    ∃ i rest before t after, path = i :: rest ∧ ts = before ++ t :: after ∧
      (t = u ∨ taskAt? src rest (expand src t (runAll src before x)).1
        (expand src t (runAll src before x)).2 = some u) := by
  cases path with
  | nil => cases h
  | cons i rest =>
    rw [taskAt?] at h
    obtain ⟨t, ht, h⟩ := Option.bind_eq_some_iff.1 h
    obtain ⟨hi, hti⟩ := List.getElem?_eq_some_iff.1 ht
    have hsplit : ts = ts.take i ++ t :: ts.drop (i + 1) := by
      rw [← hti, ← List.drop_eq_getElem_cons hi, List.take_append_drop]
    refine ⟨i, rest, ts.take i, t, ts.drop (i + 1), rfl, hsplit, ?_⟩
    split at h
    · exact .inl (Option.some.inj h)
    · exact .inr h

/-! ## Scopes that do not cover a name -/

/-- A scope in a node that is apart from the name does not cover it. -/
theorem LiesIn.not_covers {a r : Node} {s : Scope} (hs : LiesIn m (m.start n) a s)
    (hapart : a.Apart m r) (hr : r.Everywhere (Node.Nested m)) (hn : r.Has n)
    (hpos : m.start n < m.finish n) : ¬ s.covers (m.start n) := by
  rintro ⟨hstart, hstop⟩
  rcases hapart with h | h
  · -- the scope could only reach up to the name, and it does not end there
    have hle : s.stop ≤ m.start n :=
      le_trans hs.stop (le_trans h (Node.start_le_of_has hr hn))
    exact hs.ends (le_antisymm hle hstop)
  · have hlt : m.start n < m.start n :=
      calc m.start n < m.finish n := hpos
        _ ≤ m.finish r := Node.finish_le_of_has hr hn
        _ ≤ m.start a := h
        _ ≤ s.start := hs.start
        _ ≤ m.start n := hstart
    exact absurd hlt (lt_irrefl _)

/-- Tasks that are apart from the name add no scope that covers it. -/
theorem misses_runAll {r : Node} (hts : ∀ t ∈ ts, t.Within (Clear src.map (src.map.start n)))
    (hx : 0 < x.scopes.scopeCount) (hapart : ∀ t ∈ ts, ∀ a ∈ t.sites, a.Apart src.map r)
    (hr : r.Everywhere (Node.Nested src.map)) (hn : r.Has n)
    (hpos : src.map.start n < src.map.finish n) :
    ∃ added, Adds x (runAll src ts x) added ∧ ∀ s ∈ added, ¬ s.covers (src.map.start n) := by
  obtain ⟨added, hadds, hin⟩ := adds_runAll hts hx
  refine ⟨added, hadds, fun s hs => ?_⟩
  obtain ⟨t, ht, a, ha, hlies⟩ := hin s hs
  exact hlies.not_covers (hapart t ht a ha) hr hn hpos

/-! ## The search along the walk -/

/-- The name is in a node of the task, and the scopes that are added from `x`
    to `y` lead the search on from the scope in which the task is done to
    `scope`. The search may have come from any place in front of the task. -/
structure Finds (src : Source) (n : Node) (scope : ScopeId) (t : Task) (x y : Extraction) :
    Prop where
  site : ∃ r ∈ t.sites, r.Has n
  found : ∃ added, Adds x y added ∧ ∀ q, (∀ r ∈ t.sites, q ≤ src.map.start r) →
    (ScopeGraph.search (src.map.start n) x.scopes.scopeCount (t.home, q) added).1 = scope

/-- Other tasks around a task do not mislead the search. -/
theorem Finds.around {before after : List Task}
    (hts : ∀ u ∈ before ++ t :: after, u.Within (Clear src.map (src.map.start n)))
    (hapart : (before ++ t :: after).Pairwise (Task.Apart src.map))
    (hx : 0 < x.scopes.scopeCount) (hpos : src.map.start n < src.map.finish n)
    (h : Finds src n scope t (runAll src before x) (run src t (runAll src before x))) :
    Finds src n scope t x (runAll src (before ++ t :: after) x) := by
  obtain ⟨⟨r, hr, hn⟩, added, hadds, hfound⟩ := h
  obtain ⟨hbefore, ht, hafter⟩ : (∀ u ∈ before, u.Within (Clear src.map (src.map.start n))) ∧
      t.Within (Clear src.map (src.map.start n)) ∧
      ∀ u ∈ after, u.Within (Clear src.map (src.map.start n)) := by
    rwa [List.forall_mem_append, List.forall_mem_cons] at hts
  obtain ⟨-, hrest, hfirst⟩ := List.pairwise_append.1 hapart
  have hnested : r.Everywhere (Node.Nested src.map) := nested_of_clear (ht.of_mem_sites hr)
  obtain ⟨as, has, hmissed⟩ := misses_runAll hbefore hx
    (fun u hu a ha => hfirst u hu t List.mem_cons_self a ha r hr) hnested hn hpos
  have hy : 0 < (run src t (runAll src before x)).scopes.scopeCount :=
    hadds.scopeCount_pos (has.scopeCount_pos hx)
  obtain ⟨bs, hbs, hmissed'⟩ := misses_runAll hafter hy
    (fun u hu a ha => ((List.pairwise_cons.1 hrest).1 u hu r hr a ha).symm) hnested hn hpos
  refine ⟨⟨r, hr, hn⟩, as ++ (added ++ bs), ?_, fun q hq => ?_⟩
  · rw [runAll, List.foldl_append]
    exact has.trans (hadds.trans hbs)
  · rw [ScopeGraph.search_append, ScopeGraph.search_append,
      ScopeGraph.search_of_not_covers hmissed, ScopeGraph.search_of_not_covers hmissed',
      ← has.scopeCount_eq]
    exact hfound q hq

/-- What is left to do with the name, or around it, is apart from it. -/
theorem apart_of_handles (hname : n.IsName) (hu : u.Handles scope n)
    (hwithin : u.Within (Node.Nested src.map)) :
    ∀ t ∈ (expand src u x).1, ∀ a ∈ t.sites, a.Apart src.map n := by
  intro t ht a ha
  cases hu with
  | visited =>
    have hnone : visitTasks scope n = [] := by
      simp only [visitTasks, hname.kind, Node.namedChildren, hname.leaf, List.filter_nil,
        List.map_nil]
    rw [expand, hnone] at ht
    cases ht
  | bound =>
    have hdeclare : bindTasks scope n = [.declare scope .variable n] := by
      rw [bindTasks, if_pos (beq_iff_eq.2 hname.kind)]
    rw [expand, hdeclare] at ht
    cases List.mem_singleton.1 ht
    cases ha
  | @declared c kind hmem =>
    have hnodes := (parts_visitTasks scope c).pairwise_apart (Node.Everywhere.here hwithin)
    have hsymm : Std.Symm fun t u : Task => ∀ a ∈ t.nodes, ∀ b ∈ u.nodes, a.Apart src.map b :=
      ⟨fun _ _ h a ha b hb => (h b hb a ha).symm⟩
    have hne : t ≠ .declare scope kind n := by
      rintro rfl
      cases ha
    exact (List.pairwise_flatMap.1 hnodes).2.forall ht hmem hne a
      (t.sites_sublist_nodes.subset ha) n List.mem_cons_self

/-- The search ends where the name is handled. -/
theorem finds_of_handles (hname : n.IsName) (hpos : src.map.start n < src.map.finish n)
    (hu : u.Handles scope n) (hwithin : u.Within (Clear src.map (src.map.start n)))
    (hx : 0 < x.scopes.scopeCount) : Finds src n scope u x (run src u x) := by
  have hnested : u.Within (Node.Nested src.map) := hwithin.imp fun _ hc => hc.here.nested
  have hsame : (expand src u x).2 = x := by
    cases hu with
    | visited | bound | declared => rfl
  obtain ⟨c, hsites, hn⟩ : ∃ c, u.sites = [c] ∧ c.Has n := by
    cases hu with
    | visited | bound => exact ⟨n, rfl, n.has_self⟩
    | @declared c kind hmem =>
      refine ⟨c, rfl, ?_⟩
      cases leaves_visitTasks (x := x) _ hmem with
      | named _ hc | renamed _ hc => exact .inr (Node.below_of_child? hc)
      | caught hc => exact .inr hc
  have hhome : u.home = scope := by
    cases hu with
    | visited | bound | declared => rfl
  have hc : c ∈ u.sites := by
    rw [hsites]
    exact List.mem_cons_self
  have hnode : n.Everywhere (Node.Nested src.map) :=
    (nested_of_clear (hwithin.of_mem_sites hc)).of_has hn
  obtain ⟨added, hadds, hmissed⟩ := misses_runAll (x := x) (within_expand hwithin x) hx
    (apart_of_handles hname hu hnested) hnode n.has_self hpos
  refine ⟨⟨c, hc, hn⟩, added, ?_, fun q _ => ?_⟩
  · rw [run_eq_runAll, hsame]
    exact hadds
  · rw [ScopeGraph.search_of_not_covers hmissed, hhome]

/-- A task that opens nothing itself is done in the same scope as its parts. -/
theorem Finds.of_part (ht : t.Within (Clear src.map (src.map.start n)))
    (henter : ∀ outer c, t ≠ .enter outer c) (hsame : (expand src t x).2 = x)
    (hu : u ∈ (expand src t x).1) (h : Finds src n scope u (expand src t x).2 y) :
    Finds src n scope t x y := by
  obtain ⟨⟨r, hr, hn⟩, added, hadds, hfound⟩ := h
  rw [hsame] at hadds hfound
  have hhome : u.home = t.home :=
    (leaves_of_mem_expand hu).home_eq henter (List.ne_nil_of_mem hr)
  obtain ⟨a, ha, hhas⟩ := exists_site_of_mem_expand hu r hr
  refine ⟨⟨a, ha, hhas.trans hn⟩, added, hadds, fun q hq => ?_⟩
  rw [← hhome]
  refine hfound q fun b hb => ?_
  obtain ⟨c, hc, hhas⟩ := exists_site_of_mem_expand hu b hb
  exact le_trans (hq c hc) (Node.start_le_of_has (nested_of_clear (ht.of_mem_sites hc)) hhas)

/-- The scope that is opened over a body is found from the body, and passed
    over from the parameters. -/
theorem Finds.of_inside {outer : ScopeId} {c body : Node} {kind : ScopeKind}
    (hpos : src.map.start n < src.map.finish n)
    (hc : c.Everywhere (Clear src.map (src.map.start n)))
    (hx : 0 < x.scopes.scopeCount) (hopened : opened? c = some (kind, body))
    (hu : u ∈ innerTasks outer x.scopes.scopeCount c)
    (h : Finds src n scope u (openScope src outer kind body x) y) :
    Finds src n scope (.enter outer c) x y := by
  obtain ⟨⟨r, hr, hn⟩, added, hadds, hfound⟩ := h
  have hentered : body ∈ entered c := mem_entered_of_opened? hopened
  have hnested : c.Everywhere (Node.Nested src.map) := nested_of_clear hc
  have hbody : body.Everywhere (Node.Nested src.map) :=
    hnested.of_has ((parts_entered c).has body hentered)
  have hopen := adds_openScope outer kind hx
    (Node.start_le_stop hbody body.has_self)
  rw [hopen.scopeCount_eq] at hfound
  rcases innerTasks_cases hopened u hu with ⟨hhome, hhas⟩ | ⟨hhome, ps, hps, hrole, hbodyRole, hhas⟩
  · refine ⟨⟨body, hentered, (hhas r hr).trans hn⟩, _, hopen.trans hadds, fun q hq => ?_⟩
    -- the scope covers the whole body, and starts where the body does
    have hinside : body.Has n := (hhas r hr).trans hn
    have hcovers : Scope.covers ⟨kind, some outer, src.map.start body, src.map.stop body⟩
        (src.map.start n) :=
      ⟨Node.start_le_of_has hbody hinside, Node.start_le_stop hbody hinside⟩
    rw [hhome] at hfound
    rw [List.singleton_append, ScopeGraph.search_cons_of_covers hcovers (hq body hentered)]
    exact hfound _ fun b hb => Node.start_le_of_has hbody (hhas b hb)
  · have hparameters : ps.Everywhere (Node.Nested src.map) :=
      hnested.of_has ((parts_entered c).has ps hps)
    refine ⟨⟨ps, hps, (hhas r hr).trans hn⟩, _, hopen.trans hadds, fun q hq => ?_⟩
    have hapart : body.Apart src.map ps :=
      hnested.here.apart_of_child? (by decide) hbodyRole hrole
    have hlies : LiesIn src.map (src.map.start n) body
        ⟨kind, some outer, src.map.start body, src.map.stop body⟩ :=
      ⟨le_refl _, Node.stop_le_finish hbody, hc.here.ends kind body hopened⟩
    have hmissed := hlies.not_covers hapart hparameters ((hhas r hr).trans hn) hpos
    rw [hhome] at hfound
    rw [List.singleton_append, ScopeGraph.search_cons_of_not_covers hmissed]
    exact hfound q fun b hb => le_trans (hq ps hps) (Node.start_le_of_has hparameters (hhas b hb))

/-- A search that finds its way from a part of a task finds it from the task. -/
theorem Finds.of_mem_expand (hpos : src.map.start n < src.map.finish n)
    (ht : t.Within (Clear src.map (src.map.start n))) (hx : 0 < x.scopes.scopeCount)
    (hu : u ∈ (expand src t x).1) (h : Finds src n scope u (expand src t x).2 y) :
    Finds src n scope t x y := by
  cases t with
  | enter outer c =>
    rw [expand] at hu h
    split at hu
    · rename_i kind body hopened
      rw [hopened] at h
      exact h.of_inside hpos ht hx hopened hu
    · cases hu
  | visit | bind | parameter | clause =>
    exact h.of_part ht (fun _ _ heq => by cases heq) rfl hu
  | declare | wildcard => cases hu

/-- The search finds the scope in which a name is handled, from the task that it is
    handled by on the way. -/
theorem exists_finds (hname : n.IsName) (hpos : src.map.start n < src.map.finish n)
    {path : List Nat} (hpath : taskAt? src path ts x = some u) (hu : u.Handles scope n)
    (hts : ∀ t ∈ ts, t.Within (Clear src.map (src.map.start n)))
    (hapart : ts.Pairwise (Task.Apart src.map)) (hx : 0 < x.scopes.scopeCount) :
    ∃ t ∈ ts, Finds src n scope t x (runAll src ts x) := by
  induction path generalizing ts x with
  | nil => cases hpath
  | cons i path ih =>
    obtain ⟨i, rest, before, t, after, heq, rfl, hcases⟩ := taskAt?_cases hpath
    cases heq
    have ht : t.Within (Clear src.map (src.map.start n)) :=
      hts t (List.mem_append_right _ List.mem_cons_self)
    have hy : 0 < (runAll src before x).scopes.scopeCount := by
      obtain ⟨added, hadds, -⟩ := adds_runAll
        (fun u hu => hts u (List.mem_append_left _ hu)) hx
      exact hadds.scopeCount_pos hx
    have hfinds : Finds src n scope t (runAll src before x) (run src t (runAll src before x)) := by
      rcases hcases with rfl | hrest
      · exact finds_of_handles hname hpos hu ht hy
      · obtain ⟨added, hadds, -⟩ := adds_expand ht hy
        obtain ⟨v, hv, hfinds⟩ := ih hrest (within_expand ht _)
          (apart_expand (ht.imp fun _ hc => hc.here.nested) _) (hadds.scopeCount_pos hy)
        rw [run_eq_runAll]
        exact hfinds.of_mem_expand hpos ht hy hv
    exact ⟨t, List.mem_append_right _ List.mem_cons_self, hfinds.around hts hapart hx hpos⟩

/-! ## The scope of a name -/

/-- If a scope is opened over a part of the node, the last leaf of that part does
    not end with the byte. -/
def EndsElsewhere (byte : Nat) (n : Node) : Prop :=
  ∀ opened ∈ opened? n, opened.2.lastLeaf.span.stopByte ≠ byte

instance (byte : Nat) : DecidablePred (EndsElsewhere byte) := fun n =>
  inferInstanceAs (Decidable (∀ opened ∈ opened? n, opened.2.lastLeaf.span.stopByte ≠ byte))

/-- What is come to along a path is about the tree, if what the path starts with is. -/
theorem within_taskAt? {P : Node → Prop} {path : List Nat}
    (hpath : taskAt? src path ts x = some u) (hts : ∀ t ∈ ts, t.Within P) : u.Within P := by
  induction path generalizing ts x with
  | nil => cases hpath
  | cons i path ih =>
    obtain ⟨i, rest, before, t, after, heq, rfl, hcases⟩ := taskAt?_cases hpath
    cases heq
    have ht : t.Within P := hts t (List.mem_append_right _ List.mem_cons_self)
    rcases hcases with rfl | hrest
    · exact ht
    · exact ih hrest (within_expand ht _)

/-- A name that is handled is in the tree. -/
theorem everywhere_of_handles {P : Node → Prop} {root : Node} (h : root.Everywhere P)
    (hhandles : Handles src root scope n) : n.Everywhere P := by
  obtain ⟨path, u, hpath, hu⟩ := hhandles
  have hwithin : u.Within P := within_taskAt? hpath <|
    List.forall_mem_map.2 fun c hc => h.of_below (Node.below_of_mem_namedChildren hc)
  cases hu with
  | visited | bound => exact hwithin
  | declared hmem => exact (leaves_visitTasks (x := .empty) _ hmem).within hwithin

theorem clear_of_liesOver {text : String} {root : Node}
    (h : root.Everywhere (Node.LiesOver text.toList))
    (hends : root.Everywhere (EndsElsewhere n.span.startByte)) (hn : n.LiesOver text.toList) :
    root.Everywhere (Clear (.ofText text) ((SourceMap.ofText text).start n)) := by
  refine (h.and hends).imp fun c hc => ?_
  have hlies : c.Everywhere (Node.LiesOver text.toList) := hc.imp fun _ hb => hb.here.1
  refine ⟨(Node.nested_of_liesOver hlies).here, fun kind body hopened heq => ?_⟩
  have hbody : body.lastLeaf.LiesOver text.toList :=
    ((hlies.of_has ((parts_entered c).has body (mem_entered_of_opened? hopened))).of_has
      body.has_lastLeaf).here
  exact hc.here.2 _ hopened (eq_of_position_eq hbody.stop hn.start heq)

theorem scopeAt_ofTree {text : String} {root : Node} (hmap : src.map = .ofText text)
    (hlies : root.Everywhere (Node.LiesOver text.toList)) (hname : n.IsName)
    (hends : root.Everywhere (EndsElsewhere n.span.startByte))
    (hhandles : Handles src root scope n) :
    (ofTree src root).scopes.scopeAt (src.map.start n) = scope := by
  have hn : n.LiesOver text.toList := (everywhere_of_handles hlies hhandles).here
  have hclear : root.Everywhere (Clear src.map (src.map.start n)) :=
    hmap ▸ clear_of_liesOver hlies hends hn
  have hpos : src.map.start n < src.map.finish n :=
    hmap ▸ position_lt hn.start hn.stop hname.nonempty
  obtain ⟨path, u, hpath, hu⟩ := hhandles
  have hwithin : ∀ t ∈ root.namedChildren.map (Task.visit 0),
      t.Within (Clear src.map (src.map.start n)) :=
    List.forall_mem_map.2 fun c hc => hclear.of_below (Node.below_of_mem_namedChildren hc)
  have hapart : (root.namedChildren.map (Task.visit 0)).Pairwise (Task.Apart src.map) := by
    have hchildren := hclear.here.nested.pairwise_apart root.namedChildren_sublist.subperm
    refine List.pairwise_map.2 (hchildren.imp fun hab a ha b hb => ?_)
    rwa [List.mem_singleton.1 ha, List.mem_singleton.1 hb]
  obtain ⟨t, ht, -, added, hadds, hfound⟩ :=
    exists_finds hname hpos hpath hu hwithin hapart Nat.one_pos
  obtain ⟨c, -, rfl⟩ := List.mem_map.1 ht
  have hscopes : (ofTree src root).scopes.scopes.toList =
      ⟨.module, none, .origin, .unbounded⟩ :: added := hadds
  rw [ScopeGraph.scopeAt_eq_search hscopes]
  -- every place is behind the first one of the module
  exact hfound .origin fun r _ => .inl (Nat.succ_pos _)

end Extraction

open Extraction

/-- **Positions lead back to scopes.** Let the nodes of a tree lie over a text,
    children inside their parent and siblings one after another. If the walk
    handles a name in a scope, and the name does not begin where what a scope
    is opened over ends, that scope is found at the position of the name. So
    what is asked for at this place is looked up where the extraction binds. -/
theorem Analysis.scopeAt_ofTree_eq (file text : String) (root n : Node) (scope : ScopeId)
    (hlies : root.Everywhere (Node.LiesOver text.toList)) (hname : n.IsName)
    (hends : root.Everywhere (EndsElsewhere n.span.startByte))
    (hhandles : Handles ⟨file, .ofText text⟩ root scope n) :
    let a := ofTree file text root
    let p := (SourceMap.ofText text).start n
    a.scopes.scopeAt p = scope ∧
      ∀ u : Usage, u.position = p →
        Linking.sameFile? a u = (a.scopes.lookup scope u.identifier).bind (a.declarations[·]?) := by
  intro a p
  have hscope : a.scopes.scopeAt p = scope := scopeAt_ofTree rfl hlies hname hends hhandles
  refine ⟨hscope, fun u hu => ?_⟩
  rw [Linking.sameFile?, hu, hscope]

/-- The names of the tree of a text are tokens, so nothing needs to be asked of them. -/
theorem Analysis.scopeAt_parse (file text : String) {n : Node} {scope : ScopeId}
    (hlies : (parse text).Everywhere (Node.LiesOver text.toList))
    (hn : n ∈ (parse text).children.flatMap Node.names)
    (hends : (parse text).Everywhere (EndsElsewhere n.span.startByte))
    (hhandles : Handles ⟨file, .ofText text⟩ (parse text) scope n) :
    (ofTree file text (parse text)).scopes.scopeAt ((SourceMap.ofText text).start n) = scope :=
  scopeAt_ofTree rfl hlies (isName_of_mem_names hn) hends hhandles

namespace Extraction

/-- The task is to visit a token for a name, which covers the stretch, in the scope. -/
def Task.visitsName (scope : ScopeId) (s : Span) : Task → Bool
  | .visit scope' n =>
    scope' == scope && n.kind == .identifier && n.children.isEmpty && n.span == s
  | _ => false

theorem exists_of_visitsName {s : Span} {path : List Nat}
    (h : (taskAt? src path ts x).any (Task.visitsName scope s) = true) :
    ∃ n, taskAt? src path ts x = some (.visit scope n) ∧
      n.kind = .identifier ∧ n.children = [] ∧ n.span = s := by
  obtain ⟨t, ht, h⟩ := (Option.any_eq_true _ _).1 h
  cases t with
  | visit scope' n =>
    simp only [Task.visitsName, Bool.and_eq_true, beq_iff_eq, List.isEmpty_iff] at h
    obtain ⟨⟨⟨rfl, hkind⟩, hleaf⟩, hspan⟩ := h
    exact ⟨n, ht, hkind, hleaf, hspan⟩
  | bind | enter | parameter | clause | declare | wildcard => cases h

end Extraction

/-- A default with a scope of its own, a lambda whose body is a comprehension,
    and a block that ends with a comment. -/
def nestedText : String :=
  "def f(a=[i for i in b]):\n    return lambda: [j for j in a]\n    # end\nf\n"

theorem Analysis.scopeAt_ofTree_eq_nestedText :
    let root := parse nestedText
    root.Everywhere (Node.LiesOver nestedText.toList) ∧
    ∃ n, n.IsName ∧ root.Everywhere (EndsElsewhere n.span.startByte) ∧
      Handles ⟨"m.py", .ofText nestedText⟩ root 4 n ∧
      (SourceMap.ofText nestedText).start n = ⟨2, 20⟩ ∧
      (ofTree "m.py" nestedText root).scopes.scopeAt ⟨2, 20⟩ = 4 := by
  intro root
  have hlies : root.Everywhere (Node.LiesOver nestedText.toList) := by decide +kernel
  have hends : root.Everywhere (EndsElsewhere 45) := by decide +kernel
  -- the name in front of the clause of the comprehension in the lambda
  have hpath : (taskAt? ⟨"m.py", .ofText nestedText⟩ [0, 1, 1, 0, 0, 0, 0, 0]
      (root.namedChildren.map (.visit 0)) .empty).any
        (Task.visitsName 4 ⟨⟨1, 20⟩, ⟨1, 21⟩, 45, 46⟩) = true := by decide +kernel
  obtain ⟨n, hn, hkind, hleaf, hspan⟩ := exists_of_visitsName hpath
  have hname : n.IsName := ⟨hkind, hleaf, by rw [hspan]; decide⟩
  have hends : root.Everywhere (EndsElsewhere n.span.startByte) := by rwa [hspan]
  have hhandles : Handles ⟨"m.py", .ofText nestedText⟩ root 4 n := ⟨_, _, hn, .visited⟩
  have hstart : (SourceMap.ofText nestedText).start n = ⟨2, 20⟩ := by
    rw [SourceMap.start, hspan]
    decide +kernel
  have hscope := (scopeAt_ofTree_eq "m.py" nestedText root n 4 hlies hname hends hhandles).1
  rw [hstart] at hscope
  exact ⟨hlies, n, hname, hends, hhandles, hstart, hscope⟩

end CrossRef
