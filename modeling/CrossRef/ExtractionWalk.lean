/-
  CrossRef.ExtractionWalk

  The walk of the extraction. What a task can leave behind is said once
  (`Leaves`): all of it is about the node of the task or nodes below it, and
  lighter than the task, so doing one task after another ends.
-/
import CrossRef.Extraction

namespace CrossRef.Extraction

open CrossRef.Syntax

/-! ## What tasks leave behind -/

/-- The task `u` is one of those that `t` leaves behind after `x`. -/
inductive Leaves (x : Extraction) : Task → Task → Prop where
  | visit {scope : ScopeId} {n c : Node} : n.Below c → Leaves x (.visit scope n) (.visit scope c)
  | target {scope : ScopeId} {n c : Node} : n.Below c → Leaves x (.visit scope n) (.bind scope c)
  | construct {scope : ScopeId} {n : Node} : Leaves x (.visit scope n) (.enter scope n)
  | named {scope : ScopeId} {n c : Node} {kind : DeclarationKind} :
      n.kind = .functionDefinition ∨ n.kind = .classDefinition ∨ n.kind = .namedExpression →
      n.child? .name = some c → Leaves x (.visit scope n) (.declare scope kind c)
  | renamed {scope : ScopeId} {n c : Node} :
      n.kind = .aliasedImport → n.child? .alias = some c →
      Leaves x (.visit scope n) (.declare scope .variable c)
  | caught {scope : ScopeId} {n c : Node} :
      n.Below c → c.kind = .identifier → Leaves x (.visit scope n) (.declare scope .variable c)
  | wildcard {scope : ScopeId} {n : Node} :
      n.kind = .importFromStatement → Leaves x (.visit scope n) (.wildcard scope n)
  | bound {scope : ScopeId} {n : Node} :
      n.kind = .identifier → Leaves x (.bind scope n) (.declare scope .variable n)
  | boundWhole {scope : ScopeId} {n : Node} :
      n.kind = .asPatternTarget → n.namedChildren = [] →
      Leaves x (.bind scope n) (.declare scope .variable n)
  | member {scope : ScopeId} {n c : Node} : n.Below c → Leaves x (.bind scope n) (.bind scope c)
  | code {scope : ScopeId} {n : Node} : Leaves x (.bind scope n) (.visit scope n)
  | parameter {outer : ScopeId} {n c : Node} :
      n.Below c → Leaves x (.enter outer n) (.parameter outer x.scopes.scopeCount c)
  | clause {outer : ScopeId} {n c : Node} :
      n.Below c → c.kind = .forInClause →
      Leaves x (.enter outer n) (.clause x.scopes.scopeCount c)
  | inside {outer : ScopeId} {n c : Node} :
      n.Below c → Leaves x (.enter outer n) (.visit x.scopes.scopeCount c)
  | parameterName {outer inner : ScopeId} {n c : Node} :
      c = n ∨ n.Below c → c.kind = .identifier →
      Leaves x (.parameter outer inner n) (.declare inner .variable c)
  | parameterCode {outer inner : ScopeId} {n c : Node} :
      n.Below c → Leaves x (.parameter outer inner n) (.visit outer c)
  | clauseTarget {scope : ScopeId} {n c : Node} :
      n.Below c → Leaves x (.clause scope n) (.bind scope c)
  | clauseSource {scope : ScopeId} {n c : Node} :
      n.Below c → Leaves x (.clause scope n) (.visit scope c)

section

variable {src : Source} {x : Extraction} {t : Task} {scope outer inner : ScopeId} {n : Node}

/-- Tasks for the nodes in a role. -/
theorem leaves_child {f : Field} {g : Node → Task}
    (hg : ∀ c, n.child? f = some c → Leaves x t (g c)) :
    ∀ u ∈ (n.child? f).toList.map g, Leaves x t u :=
  List.forall_mem_map.2 fun c hc => hg c (Option.mem_toList.1 hc)

theorem leaves_asPatternTasks {ns : List Node} (hns : ∀ c ∈ ns, n.Below c) :
    ∀ u ∈ asPatternTasks scope ns, Leaves x (.visit scope n) u := by
  intro u hu
  obtain ⟨c, hc, hu⟩ := List.mem_filterMap.1 hu
  split at hu
  · cases hu
    exact .target (hns c hc)
  · split at hu
    · cases hu
      exact .visit (hns c hc)
    · cases hu

theorem leaves_exceptTasks {ns : List Node} (hns : ∀ c ∈ ns, n.Below c) (afterAs : Bool) :
    ∀ u ∈ exceptTasks scope afterAs ns, Leaves x (.visit scope n) u := by
  induction ns generalizing afterAs with
  | nil => exact fun u hu => by cases hu
  | cons c cs ih =>
    obtain ⟨hc, hcs⟩ := List.forall_mem_cons.1 hns
    rw [exceptTasks]
    split
    · exact ih hcs _
    · refine List.forall_mem_cons.2 ⟨?_, ih hcs _⟩
      split
      · rename_i hname
        exact .caught hc (beq_iff_eq.1 (Bool.and_eq_true_iff.1 hname).2)
      · exact .visit hc

theorem leaves_visitTasks : ∀ u ∈ visitTasks scope n, Leaves x (.visit scope n) u := by
  have visited {f : Field} :
      ∀ u ∈ (n.child? f).toList.map (Task.visit scope), Leaves x (.visit scope n) u :=
    leaves_child fun c hc => .visit (Node.below_of_child? hc)
  have targets {f : Field} :
      ∀ u ∈ (n.child? f).toList.map (Task.bind scope), Leaves x (.visit scope n) u :=
    leaves_child fun c hc => .target (Node.below_of_child? hc)
  have filtered {p : Node → Bool} :
      ∀ u ∈ (n.namedChildren.filter p).map (Task.visit scope), Leaves x (.visit scope n) u :=
    List.forall_mem_map.2 fun c hc =>
      .visit (Node.below_of_mem_namedChildren (List.mem_filter.1 hc).1)
  have entered : ∀ u ∈ [Task.enter scope n], Leaves x (.visit scope n) u :=
    List.forall_mem_singleton.2 .construct
  -- the cases are the kinds of `visitTasks`, from function definitions on
  unfold visitTasks
  split
  case h_1 hkind =>
    exact List.forall_mem_append.2 ⟨List.forall_mem_append.2
      ⟨leaves_child fun _ => .named (.inl hkind), visited⟩, entered⟩
  case h_2 hkind =>
    exact List.forall_mem_append.2 ⟨List.forall_mem_append.2
      ⟨leaves_child fun _ => .named (.inr (.inl hkind)), visited⟩, entered⟩
  case h_3 | h_4 | h_5 | h_6 | h_7 => exact entered
  case h_8 =>
    exact List.forall_mem_append.2 ⟨List.forall_mem_append.2 ⟨targets, visited⟩, visited⟩
  case h_9 => exact List.forall_mem_append.2 ⟨targets, filtered⟩
  case h_10 => exact leaves_asPatternTasks fun _ => .child
  case h_11 => exact leaves_exceptTasks (fun _ => .child) _
  case h_12 hkind =>
    exact List.forall_mem_append.2
      ⟨leaves_child fun _ => .named (.inr (.inr hkind)), visited⟩
  case h_13 hkind => exact leaves_child fun _ => .renamed hkind
  case h_14 hkind =>
    exact List.forall_mem_append.2 ⟨filtered, List.forall_mem_singleton.2 (.wildcard hkind)⟩
  case h_15 | h_16 | h_17 => exact fun u hu => by cases hu
  case h_18 => exact List.forall_mem_map.2 fun c hc => .visit (Node.below_of_mem_namedChildren hc)

theorem leaves_bindTasks : ∀ u ∈ bindTasks scope n, Leaves x (.bind scope n) u := by
  unfold bindTasks
  split
  · rename_i hkind
    exact List.forall_mem_singleton.2 (.bound (beq_iff_eq.1 hkind))
  · split
    · rename_i hwhole
      obtain ⟨hkind, hempty⟩ := Bool.and_eq_true_iff.1 hwhole
      exact List.forall_mem_singleton.2
        (.boundWhole (beq_iff_eq.1 hkind) (List.isEmpty_iff.1 hempty))
    · split
      · exact List.forall_mem_map.2 fun c hc => .member (Node.below_of_mem_namedChildren hc)
      · exact List.forall_mem_singleton.2 .code

theorem leaves_innerTasks :
    ∀ u ∈ innerTasks outer x.scopes.scopeCount n, Leaves x (.enter outer n) u := by
  have below {f : Field} {g : Node → Task}
      (hg : ∀ c, n.Below c → Leaves x (.enter outer n) (g c)) :
      ∀ u ∈ (n.child? f).toList.flatMap fun b => b.namedChildren.map g,
        Leaves x (.enter outer n) u := by
    intro u hu
    obtain ⟨b, hb, hu⟩ := List.mem_flatMap.1 hu
    obtain ⟨c, hc, rfl⟩ := List.mem_map.1 hu
    exact hg c (.further (Node.below_of_child? (Option.mem_toList.1 hb)) (List.mem_filter.1 hc).1)
  have parameters := below (f := .parameters) fun _ => Leaves.parameter
  have body := below (f := .body) fun _ => Leaves.inside
  unfold innerTasks
  split
  · exact List.forall_mem_append.2 ⟨parameters, body⟩
  · exact List.forall_mem_append.2
      ⟨parameters, leaves_child fun c hc => .inside (Node.below_of_child? hc)⟩
  · exact body
  · refine List.forall_mem_map.2 fun c hc => ?_
    split
    · exact .clause (Node.below_of_mem_namedChildren hc) (beq_iff_eq.1 ‹_›)
    · exact .inside (Node.below_of_mem_namedChildren hc)

/-- The name of a parameter is the parameter, or below it. -/
theorem below_of_parameterName? {c : Node} (h : parameterName? n = some c) :
    c = n ∨ n.Below c := by
  have first {m : Node} {c : Node} (hc : m.namedChildren.head? = some c) : m.Below c :=
    Node.below_of_mem_namedChildren (List.mem_of_head? hc)
  unfold parameterName? at h
  split at h
  · exact .inl (Option.some.inj h).symm
  · exact .inr (first h)
  · exact .inr (first h)
  · split at h
    · rename_i name hname
      split at h
      · exact .inr (.further (first hname) (List.mem_filter.1 (List.mem_of_head? h)).1)
      · cases h
        exact .inr (first hname)
    · cases h
  · exact .inr (Node.below_of_child? h)
  · exact .inr (Node.below_of_child? h)
  · cases h

theorem below_of_mem_parameterCode {c : Node} (h : c ∈ parameterCode n) : n.Below c := by
  have child {f : Field} (hc : c ∈ (n.child? f).toList) : n.Below c :=
    Node.below_of_child? (Option.mem_toList.1 hc)
  unfold parameterCode at h
  split at h
  · exact child h
  · exact (List.mem_append.1 h).elim child child
  · exact (List.mem_append.1 h).elim child child
  · cases h

theorem leaves_parameterTasks :
    ∀ u ∈ parameterTasks src outer inner n, Leaves x (.parameter outer inner n) u := by
  refine List.forall_mem_append.2 ⟨List.forall_mem_map.2 fun c hc => ?_,
    List.forall_mem_map.2 fun c hc => .parameterCode (below_of_mem_parameterCode hc)⟩
  obtain ⟨hc, hname⟩ := List.mem_filter.1 hc
  exact .parameterName (below_of_parameterName? (Option.mem_toList.1 hc))
    (beq_iff_eq.1 (Bool.and_eq_true_iff.1 hname).1)

/-- All that a task can leave behind. -/
theorem leaves_of_mem_expand {u : Task} (h : u ∈ (expand src t x).1) : Leaves x t u := by
  cases t with
  | visit scope n => exact leaves_visitTasks u h
  | bind scope n => exact leaves_bindTasks u h
  | enter outer n =>
    rw [expand] at h
    split at h
    · exact leaves_innerTasks u h
    · cases h
  | parameter outer inner n => exact leaves_parameterTasks u h
  | clause scope n =>
    rcases List.mem_append.1 h with h | h
    · exact leaves_child (fun c hc => .clauseTarget (Node.below_of_child? hc)) u h
    · exact leaves_child (fun c hc => .clauseSource (Node.below_of_child? hc)) u h
  | declare | wildcard => cases h

end

/-! ## Tasks get lighter -/

theorem Leaves.weight_lt {x : Extraction} {t u : Task} (h : Leaves x t u) :
    u.weight < t.weight := by
  have hpos (n : Node) : 0 < 2 * n.size := Nat.mul_pos Nat.two_pos n.size_pos
  cases h with
  | visit hc | target hc | member hc | parameter hc | clause hc | inside hc | parameterCode hc
  | clauseTarget hc | clauseSource hc =>
    have hsize := hc.size_lt
    simp only [Task.weight]
    omega
  | named | renamed | caught | wildcard | parameterName => exact hpos _
  | construct => exact Nat.sub_one_lt (Nat.ne_of_gt (hpos _))
  | bound | boundWhole => exact Nat.succ_pos _
  | code => exact Nat.lt_succ_self _

/-- Every task a task splits into is lighter than it. -/
theorem weight_expand {src : Source} {t u : Task} {x : Extraction}
    (h : u ∈ (expand src t x).1) : u.weight < t.weight :=
  (leaves_of_mem_expand h).weight_lt

/-! ## The walk -/

/-- Does a task: splits it, and does the parts in order. -/
def run (src : Source) (t : Task) (x : Extraction) : Extraction :=
  let split := expand src t x
  split.1.attach.foldl (fun y u => run src u.1 y) split.2
termination_by t.weight
decreasing_by exact weight_expand u.2

theorem run_eq (src : Source) (t : Task) (x : Extraction) :
    run src t x = (expand src t x).1.foldl (fun y u => run src u y) (expand src t x).2 := by
  rw [run]
  exact List.foldl_attach (l := (expand src t x).1) (f := fun y u => run src u y)

/-- The declarations and scopes of a file, given its text and its tree. -/
def ofTree (src : Source) (root : Node) : Extraction :=
  (root.namedChildren.map (Task.visit 0)).foldl (fun x t => run src t x) .empty

end CrossRef.Extraction
