/-
  CrossRef.Proofs.Ordering.Least

  The emission yields the least of all orders that put dependencies first.
  Two orders are compared at the first place where they differ. What stands
  there in any other order was ready as well when the emission chose, and the
  emission chose the smallest.
-/
import CrossRef.Proofs.Ordering.Cycle

namespace CrossRef

namespace FileGraph

/-! ## Orders of files -/

/-- `a` stands before `b`. -/
def Precedes (order : List String) (a b : String) : Prop :=
  ∃ xs ys, order = xs ++ b :: ys ∧ a ∈ xs

/-- All files, each once, behind the files it depends on. -/
structure IsTopological (g : FileGraph) (order : List String) : Prop where
  perm : order.Perm g.files.toList
  precedes : ∀ a b, g.DependsOn a b → Precedes order b a

theorem IsTopological.nodup {g : FileGraph} (wf : g.WellFormed) {order : List String}
    (h : g.IsTopological order) : order.Nodup :=
  h.perm.nodup_iff.2 wf.files_nodup

/-- Where a file stands in an order, everything it depends on is in front. -/
theorem IsTopological.mem_of_dependsOn {g : FileGraph} (wf : g.WellFormed) {xs ys : List String}
    {a b : String} (h : g.IsTopological (xs ++ a :: ys)) (hab : g.DependsOn a b) : b ∈ xs := by
  obtain ⟨us, vs, heq, hb⟩ := h.precedes a b hab
  have hnot := (List.nodup_cons.1 (List.nodup_middle.1 (h.nodup wf))).1
  rw [List.mem_append, not_or] at hnot
  rw [((List.append_cons_inj_of_notMem hnot.1 hnot.2).1 heq).1]
  exact hb

/-! ## Orders by number -/

/-- Each file is ready when its turn comes after those in `done`. -/
def Legal (g : FileGraph) (done : List Nat) : List Nat → Prop
  | [] => True
  | i :: is => g.IsReady done i ∧ Legal g (i :: done) is

theorem legal_of_isTopological {g : FileGraph} (wf : g.WellFormed) (us is : List Nat)
    (his : ∀ i ∈ us ++ is, i < g.fileCount) (h : g.IsTopological ((us ++ is).map g.file)) :
    g.Legal us.reverse is := by
  induction is generalizing us with
  | nil => trivial
  | cons i is ih =>
    have hi : i < g.fileCount := his i (List.mem_append_right _ (List.mem_cons_self ..))
    have happend : us ++ i :: is = us ++ [i] ++ is := by simp
    refine ⟨⟨hi, fun hmem => ?_, fun j hj => ?_⟩, ?_⟩
    -- it has not come before, its dependencies have, and the rest goes on behind it
    · have hnodup := (h.nodup wf).of_map g.file
      have hnot := (List.nodup_cons.1 (List.nodup_middle.1 hnodup)).1
      exact hnot (List.mem_append_left _ (List.mem_reverse.1 hmem))
    · rw [List.map_append, List.map_cons] at h
      obtain ⟨k, hk, hkj⟩ := List.mem_map.1
        (h.mem_of_dependsOn wf ((wf.hasEdge_file hi (wf.lt_of_mem i j hj)).2 hj))
      rw [List.mem_reverse,
        ← wf.file_inj (his k (List.mem_append_left _ hk)) (wf.lt_of_mem i j hj) hkj]
      exact hk
    · have hnext := ih (us ++ [i]) (by rwa [← happend]) (by rwa [← happend])
      rwa [List.reverse_append, List.reverse_singleton, List.singleton_append] at hnext

/-- The numbers of the files in an order. -/
def indices (g : FileGraph) (order : List String) : List Nat :=
  order.map fun f => (g.indexOf? f).getD 0

theorem indices_spec {g : FileGraph} (wf : g.WellFormed) {order : List String}
    (h : ∀ f ∈ order, g.HasFile f) :
    (∀ i ∈ g.indices order, i < g.fileCount) ∧ (g.indices order).map g.file = order := by
  have hindex : ∀ f ∈ order, ∃ i, g.indexOf? f = some i ∧ i < g.fileCount ∧ g.file i = f := by
    intro f hf
    obtain ⟨i, hi, rfl⟩ := hasFile_iff.1 (h f hf)
    exact ⟨i, wf.indexOf?_file hi, hi, rfl⟩
  constructor
  · intro k hk
    obtain ⟨f, hf, rfl⟩ := List.mem_map.1 hk
    obtain ⟨i, hsome, hi, -⟩ := hindex f hf
    rwa [hsome, Option.getD_some]
  · rw [indices, List.map_map]
    refine (List.map_congr_left fun f hf => ?_).trans (List.map_id order)
    obtain ⟨i, hsome, -, hi⟩ := hindex f hf
    rw [Function.comp_apply, hsome, Option.getD_some, hi, id_eq]

/-! ## The emission is least -/

/-- `a` is `b`, or smaller where the two differ first. -/
def LexLE (a b : List String) : Prop := a = b ∨ List.Lex (fun x y => x < y) a b

theorem LexLE.nil (b : List String) : LexLE [] b := by
  cases b with
  | nil => exact .inl rfl
  | cons x xs => exact .inr .nil

theorem LexLE.cons {a b : List String} (x : String) (h : LexLE a b) : LexLE (x :: a) (x :: b) := by
  rcases h with rfl | h
  · exact .inl rfl
  · exact .inr (.cons h)

theorem LexLE.antisymm {a b : List String} (hab : LexLE a b) (hba : LexLE b a) : a = b := by
  rcases hab with rfl | hab
  · rfl
  · rcases hba with rfl | hba
    · rfl
    · exact absurd hba (List.lt_asymm hab)

/-- From any state on, the emission continues with the least of all legal
    continuations that leave no file out. -/
theorem lexLE_emit {g : FileGraph} (wf : g.WellFormed) {e : Emission} (hs : e.Sound g)
    (fuel : Nat) {is : List Nat} (hlegal : g.Legal e.emitted is)
    (hlen : e.emitted.length + is.length = g.fileCount) :
    ∃ next : List Nat, (g.emit fuel e).emitted = next.reverse ++ e.emitted ∧
      LexLE (next.map g.file) (is.map g.file) := by
  induction fuel generalizing e is with
  | zero => exact ⟨[], rfl, LexLE.nil _⟩
  | succ fuel ih =>
    rcases emitNext_cases wf hs with ⟨-, hnext⟩ | ⟨i, rest, e', hready, hnext, hemitted, hs'⟩
    · exact ⟨[], by rw [emit, hnext]; rfl, LexLE.nil _⟩
    · have hi := hs.isReady_head hready
      rw [emit, hnext]
      cases is with
      | nil => exact absurd (hs.settled.mem_of_length_eq hlen hi.1) hi.2.1
      | cons k ks =>
        obtain ⟨hk, hks⟩ := hlegal
        have hmem := (hs.mem_ready k).2 hk
        have hasc := hs.ascending
        rw [hready] at hmem hasc
        rcases List.mem_cons.1 hmem with rfl | hmem
        · -- both go on with the same file
          have hlen' : e'.emitted.length + ks.length = g.fileCount := by
            rw [hemitted, List.length_cons, ← hlen, List.length_cons]
            omega
          obtain ⟨next, hnext', hle⟩ := ih hs' (by rwa [hemitted]) hlen'
          refine ⟨k :: next, ?_, hle.cons _⟩
          rw [hnext', hemitted, List.reverse_cons, List.append_assoc, List.singleton_append]
        · -- `k` is ready too but not the first, so the emission chose a smaller file
          obtain ⟨next, hnext'⟩ := exists_emitted_emit wf hs' fuel
          refine ⟨i :: next, ?_, .inr (.rel ((List.pairwise_cons.1 hasc).1 k hmem))⟩
          rw [hnext', hemitted, List.reverse_cons, List.append_assoc, List.singleton_append]

/-- The files in the order of the emission. -/
def emittedFiles (g : FileGraph) : List String := g.emissionEnd.emitted.reverse.map g.file

theorem emitted_perm {g : FileGraph} (wf : g.WellFormed)
    (hlen : g.emissionEnd.emitted.length = g.fileCount) :
    g.emissionEnd.emitted.Perm (List.range g.fileCount) := by
  have hs := (sound_emissionEnd wf).settled
  rw [List.perm_ext_iff_of_nodup hs.nodup List.nodup_range]
  exact fun i => ⟨fun hi => List.mem_range.2 (hs.lt hi),
    fun hi => hs.mem_of_length_eq hlen (List.mem_range.1 hi)⟩

/-- If all files are emitted, each comes behind those it depends on. -/
theorem isTopological_emittedFiles {g : FileGraph} (wf : g.WellFormed)
    (hlen : g.emissionEnd.emitted.length = g.fileCount) : g.IsTopological g.emittedFiles := by
  refine ⟨?_, fun a b hab => ?_⟩
  · rw [← g.map_file_range]
    exact ((List.reverse_perm _).trans (emitted_perm wf hlen)).map g.file
  · obtain ⟨i, j, hij, rfl, rfl⟩ := wf.hasEdge_iff.1 hab
    have hs := (sound_emissionEnd wf).settled
    have hi := hs.mem_of_length_eq hlen (wf.source_lt hij)
    obtain ⟨us, vs, heq⟩ := List.append_of_mem hi
    have hj : j ∈ vs := (hs.isReady_of_append heq).2.2 j hij
    refine ⟨vs.reverse.map g.file, us.reverse.map g.file, ?_,
      List.mem_map_of_mem (List.mem_reverse.2 hj)⟩
    rw [emittedFiles, heq, List.reverse_append, List.reverse_cons, List.map_append, List.map_append,
      List.append_assoc]
    rfl

/-- No order with dependencies first is smaller than that of the emission. -/
theorem lexLE_emittedFiles {g : FileGraph} (wf : g.WellFormed) {order : List String}
    (h : g.IsTopological order) :
    LexLE g.emittedFiles order := by
  obtain ⟨hlt, hmap⟩ := indices_spec wf fun f hf => h.perm.mem_iff.1 hf
  have hlegal : g.Legal g.emissionStart.emitted (g.indices order) :=
    legal_of_isTopological wf [] _ hlt (by rwa [List.nil_append, hmap])
  have hcount : g.emissionStart.emitted.length + (g.indices order).length = g.fileCount := by
    rw [indices, List.length_map, h.perm.length_eq]
    exact Nat.zero_add _
  obtain ⟨next, hnext, hle⟩ := lexLE_emit wf (sound_emissionStart wf) g.fileCount
    hlegal hcount
  have hend : g.emissionEnd.emitted.reverse = next := by
    rw [emissionEnd, hnext, List.reverse_append, List.reverse_reverse]
    rfl
  rwa [hmap, ← hend] at hle

/-! ## Every mode -/

/-- The files of a graph in ascending order. -/
theorem sortedFiles_spec {g : FileGraph} (wf : g.WellFormed) :
    g.sortedFiles.Perm g.files.toList ∧ g.sortedFiles.Pairwise (· < ·) := by
  refine ⟨Keyed.sort_perm id _, Keyed.ascending_sort ?_⟩
  rw [List.map_id']
  exact wf.files_nodup

/-- What the modes that look at edges give: the least order with dependencies
    first, from either end, or all files in ascending order and a cycle. -/
theorem order_cases {g : FileGraph} (wf : g.WellFormed) {mode : OrderMode}
    (hmode : mode.usesGraph = true) :
    (¬ g.Cyclic ∧ g.emissionEnd.emitted.length = g.fileCount ∧ g.order mode =
      (⟨mode, mode, if mode = .dependencyRev then g.emittedFiles.reverse else g.emittedFiles⟩,
        none)) ∨
    ∃ walk, g.Cyclic ∧ g.ClosedWalk walk ∧ walk = g.findCycle g.emissionEnd.emitted ∧
      g.order mode =
        (⟨mode, .lexicographic, g.sortedFiles⟩, some (.dependencyCycle (walk.map g.file))) := by
  rcases topological_cases wf with ⟨hacyclic, hlen, htop⟩ | ⟨hcyclic, htop, hwalk⟩
  · refine .inl ⟨hacyclic, hlen, ?_⟩
    cases mode with
    | dependency | dependencyRev => simp only [order, htop, emittedFiles, List.map_reverse]
    | lexicographic | none => cases hmode
  · refine .inr ⟨_, hcyclic, hwalk, rfl, ?_⟩
    cases mode with
    | dependency | dependencyRev => simp only [order, htop]
    | lexicographic | none => cases hmode

/-- An ascending list is the least of its permutations. -/
theorem lexLE_of_perm {order order' : List String} (h : order.Pairwise (· < ·))
    (hperm : order.Perm order') : LexLE order order' := by
  induction order generalizing order' with
  | nil => exact LexLE.nil _
  | cons x xs ih =>
    obtain ⟨hx, hxs⟩ := List.pairwise_cons.1 h
    cases order' with
    | nil => exact absurd hperm.length_eq (Nat.succ_ne_zero _)
    | cons y ys =>
      rcases List.mem_cons.1 (hperm.mem_iff.2 (List.mem_cons_self ..)) with rfl | hy
      · exact (ih hxs (List.Perm.cons_inv hperm)).cons _
      · exact .inr (.rel (hx y hy))

/-- Without edges the emission is ascending. -/
theorem emittedFiles_eq_sortedFiles {g : FileGraph} (wf : g.WellFormed)
    (h : ∀ a b, ¬ g.DependsOn a b) (hlen : g.emissionEnd.emitted.length = g.fileCount) :
    g.emittedFiles = g.sortedFiles := by
  obtain ⟨hperm, hascending⟩ := sortedFiles_spec wf
  have hsorted : g.IsTopological g.sortedFiles := ⟨hperm, fun a b hab => absurd hab (h a b)⟩
  have hemitted := (isTopological_emittedFiles wf hlen).perm
  exact (lexLE_emittedFiles wf hsorted).antisymm
    (lexLE_of_perm hascending (hperm.trans hemitted.symm))

/-- Only a cycle makes a mode return a diagnostic. -/
theorem order_snd_of_acyclic {g : FileGraph} (wf : g.WellFormed) (h : ¬ g.Cyclic)
    (mode : OrderMode) : (g.order mode).2 = none := by
  by_cases hmode : mode.usesGraph = true
  · rcases order_cases wf hmode with ⟨-, -, horder⟩ | ⟨walk, hcyclic, -⟩
    · rw [horder]
    · exact absurd hcyclic h
  · cases mode with
    | dependency | dependencyRev => exact absurd rfl hmode
    | lexicographic | none => rfl

/-- A mode is given up exactly when a diagnostic says so. -/
theorem fellBack_order {g : FileGraph} (wf : g.WellFormed) (mode : OrderMode) :
    (g.order mode).1.fellBack = (g.order mode).2.isSome := by
  by_cases hmode : mode.usesGraph = true
  · rcases order_cases wf hmode with ⟨-, -, horder⟩ | ⟨walk, -, -, -, horder⟩
    · rw [horder, FileOrdering.fellBack]
      exact bne_self_eq_false mode
    · rw [horder, FileOrdering.fellBack]
      cases mode with
      | dependency | dependencyRev => rfl
      | lexicographic | none => cases hmode
  · cases mode with
    | dependency | dependencyRev => exact absurd rfl hmode
    | lexicographic | none => rfl

/-- **Least order or cycle.** Of a graph built in any way, the dependency mode
    returns no diagnostic exactly if no file depends on itself, and then the
    least of all orders that put every file behind those it depends on. If
    some file does, both modes that look at edges return all files in ascending
    order with a diagnostic of the cycle, and say that they fell back. No mode
    falls back without a diagnostic or returns one without falling back. -/
theorem dependency_order_least_or_cycle (steps : List Step) :
    let g := ofSteps steps
    ((g.order .dependency).2 = none ↔ ¬ g.Cyclic) ∧
    (¬ g.Cyclic → g.IsTopological (g.order .dependency).1.files ∧
      ∀ other, g.IsTopological other → LexLE (g.order .dependency).1.files other) ∧
    (g.Cyclic → ∀ mode : OrderMode, mode.usesGraph = true →
      (g.order mode).1.files.Perm g.files.toList ∧
      (g.order mode).1.files.Pairwise (· < ·) ∧
      (g.order mode).1.applied = .lexicographic ∧
      ∃ d, (g.order mode).2 = some d ∧ d.kind = .cycle) ∧
    ∀ mode, (g.order mode).1.fellBack = (g.order mode).2.isSome := by
  intro g
  have wf : g.WellFormed := wellFormed_ofSteps steps
  have huse : OrderMode.usesGraph .dependency = true := rfl
  -- the emission leaves files out exactly if some file depends on itself
  refine ⟨?_, fun hacyclic => ?_, fun hcyclic mode hmode => ?_, fellBack_order wf⟩
  · rcases order_cases wf huse with
      ⟨hacyclic, -, horder⟩ | ⟨walk, hcyclic, -, -, horder⟩
    · rw [horder]
      exact ⟨fun _ => hacyclic, fun _ => rfl⟩
    · rw [horder]
      exact ⟨fun h => absurd h (Option.some_ne_none _), fun h => absurd hcyclic h⟩
  · rcases order_cases wf huse with ⟨-, hlen, horder⟩ | ⟨walk, hcyclic, -⟩
    · rw [horder]
      exact ⟨isTopological_emittedFiles wf hlen, fun _ h => lexLE_emittedFiles wf h⟩
    · exact absurd hcyclic hacyclic
  · rcases order_cases wf hmode with ⟨hacyclic, -⟩ | ⟨walk, -, -, -, horder⟩
    · exact absurd hcyclic hacyclic
    · obtain ⟨hperm, hsorted⟩ := sortedFiles_spec wf
      rw [horder]
      exact ⟨hperm, hsorted, rfl, _, rfl, rfl⟩

end FileGraph

end CrossRef
