/-
  CrossRef.Proofs.Ordering.Agreement

  The order of files depends on their identifiers and edges alone. Two graphs
  that agree on these may number the files differently and keep their rows in
  different orders; every mode but the one that keeps the order of the input
  presents them alike, the text of the diagnostic included (`order_eq`,
  `order_ofSteps_eq`).

  For the emission this is uniqueness of the least order. The search for a
  cycle is followed step by step on both graphs.
-/
import CrossRef.Proofs.FileGraph.Edges
import CrossRef.Proofs.Ordering.Least

namespace CrossRef

namespace FileGraph

/-- Two graphs have the same files and the same edges. -/
structure Agree (g h : FileGraph) : Prop where
  hasFile : ∀ f, g.HasFile f ↔ h.HasFile f
  hasEdge : ∀ a b, g.hasEdge a b = h.hasEdge a b

namespace Agree

variable {g h : FileGraph} (agree : g.Agree h) (wfg : g.WellFormed) (wfh : h.WellFormed)

include agree

theorem dependsOn_iff (a b : String) : g.DependsOn a b ↔ h.DependsOn a b := by
  rw [DependsOn, DependsOn, agree.hasEdge]

theorem dependsOn_eq : g.DependsOn = h.DependsOn := by
  funext a b
  exact propext (agree.dependsOn_iff a b)

theorem cyclic_iff : g.Cyclic ↔ h.Cyclic := by
  rw [Cyclic, Cyclic, agree.dependsOn_eq]

include wfg wfh

theorem files_perm : g.files.toList.Perm h.files.toList :=
  (List.perm_ext_iff_of_nodup wfg.files_nodup wfh.files_nodup).2 agree.hasFile

theorem sortedFiles_eq : g.sortedFiles = h.sortedFiles :=
  Keyed.sort_eq_of_perm (by rw [List.map_id]; exact wfg.files_nodup)
    (agree.files_perm wfg wfh)

omit wfg wfh in
theorem isTopological {order : List String} (hperm : g.files.toList.Perm h.files.toList)
    (ho : g.IsTopological order) : h.IsTopological order :=
  ⟨ho.perm.trans hperm, fun a b hab => ho.precedes a b ((agree.dependsOn_iff a b).2 hab)⟩

omit agree wfg wfh in
theorem symm (agree : g.Agree h) : h.Agree g :=
  ⟨fun f => (agree.hasFile f).symm, fun a b => (agree.hasEdge a b).symm⟩

/-- If all files of both are emitted, they are emitted in the same order. -/
theorem emittedFiles_eq (hg : g.emissionEnd.emitted.length = g.fileCount)
    (hh : h.emissionEnd.emitted.length = h.fileCount) : g.emittedFiles = h.emittedFiles := by
  -- either order is topological for the other graph too, so neither is smaller
  have hperm := agree.files_perm wfg wfh
  have htop := isTopological_emittedFiles wfg hg
  have htop' := isTopological_emittedFiles wfh hh
  exact LexLE.antisymm (lexLE_emittedFiles wfg (agree.symm.isTopological hperm.symm htop'))
    (lexLE_emittedFiles wfh (agree.isTopological hperm htop))

end Agree

/-! ## The search on both graphs -/

/-- Two lists that read the same part alike at a name that occurs once. -/
theorem map_split_eq {g h : FileGraph} {xs ys xs' ys' : List Nat} {i i' : Nat}
    (hnodup : ((xs ++ i :: ys).map g.file).Nodup) (hi : g.file i = h.file i')
    (heq : (xs ++ i :: ys).map g.file = (xs' ++ i' :: ys').map h.file) :
    xs.map g.file = xs'.map h.file ∧ ys.map g.file = ys'.map h.file := by
  simp only [List.map_append, List.map_cons, ← hi] at hnodup heq
  have hnot := (List.nodup_cons.1 (List.nodup_middle.1 hnodup)).1
  rw [List.mem_append, not_or] at hnot
  obtain ⟨hxs, -, hys⟩ := (List.append_cons_inj_of_notMem hnot.1 hnot.2).1 heq
  exact ⟨hxs, hys⟩

theorem map_closedWalk_eq {g h : FileGraph} {is js : List Nat} (hne : is ≠ [])
    (hnodup : (is.map g.file).Nodup) (heq : is.map g.file = js.map h.file) :
    (g.closedWalk is).map g.file = (h.closedWalk js).map h.file := by
  have hne' : js ≠ [] := by
    rintro rfl
    exact hne (List.map_eq_nil_iff.1 heq)
  have hsmallest := map_smallest?_eq (g := g) (h := h) fun f => by rw [heq]
  obtain ⟨i, xs, ys, hi, his, -, hwalk⟩ := closedWalk_eq (g := g) hne
  obtain ⟨j, us, vs, hj, hjs, -, hwalk'⟩ := closedWalk_eq (g := h) hne'
  rw [hi, hj, Option.map_some, Option.map_some, Option.some.injEq] at hsmallest
  obtain ⟨hxs, hys⟩ := map_split_eq (his ▸ hnodup) hsmallest (his ▸ hjs ▸ heq)
  rw [hwalk, hwalk']
  simp only [List.map_append, List.map_cons, List.map_nil, hxs, hys, hsmallest]

/-- Two ways of one sequence of names close to walks of one sequence of names. -/
theorem map_closedWalk_dropWhile_eq {g h : FileGraph} {is js : List Nat} {k l : Nat}
    (hnodup : (is.map g.file).Nodup) (heq : is.map g.file = js.map h.file) (hk : k ∈ is)
    (hl : l ∈ js) (hkl : g.file k = h.file l) :
    (g.closedWalk (is.dropWhile (· != k))).map g.file =
      (h.closedWalk (js.dropWhile (· != l))).map h.file := by
  obtain ⟨xs, ys, his, -, -, hdrop⟩ := exists_split hk
  obtain ⟨us, vs, hjs, -, -, hdrop'⟩ := exists_split hl
  rw [his] at hnodup heq
  rw [hjs] at heq
  have hys : ys.map g.file = vs.map h.file := (map_split_eq hnodup hkl heq).2
  rw [hdrop, hdrop']
  refine map_closedWalk_eq (List.cons_ne_nil k ys) ?_ ?_
  · rw [List.map_append] at hnodup
    exact hnodup.of_append_right
  · rw [List.map_cons, List.map_cons, hkl, hys]

namespace WellFormed

variable {g : FileGraph}

theorem mem_map_file (wf : g.WellFormed) {is : List Nat} {i : Nat}
    (his : ∀ k ∈ is, k < g.fileCount) (hi : i < g.fileCount) :
    g.file i ∈ is.map g.file ↔ i ∈ is := by
  constructor
  · intro hmem
    obtain ⟨k, hk, hki⟩ := List.mem_map.1 hmem
    rwa [← wf.file_inj (his k hk) hi hki]
  · exact List.mem_map_of_mem

/-- The stuck files, by name. -/
theorem mem_map_isStuck (wf : g.WellFormed) {f : String} :
    f ∈ ((List.range g.fileCount).filter fun k => !g.emissionEnd.emitted.contains k).map g.file ↔
      ¬ Acc (fun b a => g.DependsOn a b) f := by
  rw [List.mem_map]
  constructor
  · rintro ⟨i, hi, rfl⟩ hacc
    obtain ⟨hin, hstuck⟩ := List.mem_filter.1 hi
    rw [List.mem_range] at hin
    simp [(mem_emitted_iff wf hin).2 hacc] at hstuck
  · intro hacc
    -- it depends on something, so it is a file of the graph
    obtain ⟨b, hb⟩ : ∃ b, g.DependsOn f b := by
      by_contra hnone
      exact hacc (.intro f fun b hb => absurd ⟨b, hb⟩ hnone)
    obtain ⟨i, j, hij, rfl, -⟩ := wf.hasEdge_iff.1 hb
    have hin := wf.source_lt hij
    refine ⟨i, List.mem_filter.2 ⟨List.mem_range.2 hin, ?_⟩, rfl⟩
    have hstuck : i ∉ g.emissionEnd.emitted := fun hmem => hacc ((mem_emitted_iff wf hin).1 hmem)
    simpa using hstuck

/-- The stuck dependencies of a file, by name. -/
theorem mem_map_stuckDependencies (wf : g.WellFormed) {i : Nat} (hi : i < g.fileCount)
    {f : String} :
    f ∈ ((g.dependencies i).filter fun j => !g.emissionEnd.emitted.contains j).map g.file ↔
      g.DependsOn (g.file i) f ∧ ¬ Acc (fun b a => g.DependsOn a b) f := by
  rw [List.mem_map]
  constructor
  · rintro ⟨j, hj, rfl⟩
    obtain ⟨hdep, hstuck⟩ := List.mem_filter.1 hj
    have hjn := wf.lt_of_mem i j hdep
    refine ⟨(wf.hasEdge_file hi hjn).2 hdep, fun hacc => ?_⟩
    simp [(mem_emitted_iff wf hjn).2 hacc] at hstuck
  · rintro ⟨hdep, hacc⟩
    obtain ⟨k, j, hkj, hk, rfl⟩ := wf.hasEdge_iff.1 hdep
    have hki := wf.file_inj (wf.source_lt hkj) hi hk
    subst hki
    have hjn := wf.lt_of_mem k j hkj
    refine ⟨j, List.mem_filter.2 ⟨hkj, ?_⟩, rfl⟩
    have hstuck : j ∉ g.emissionEnd.emitted := fun hmem => hacc ((mem_emitted_iff wf hjn).1 hmem)
    simpa using hstuck

end WellFormed

section

variable {g h : FileGraph} (hdepends : g.DependsOn = h.DependsOn)
variable (wfg : g.WellFormed) (wfh : h.WellFormed)
include hdepends wfg wfh

theorem map_nextStuck?_eq {i j : Nat} (hi : i < g.fileCount) (hj : j < h.fileCount)
    (hij : g.file i = h.file j) :
    (g.nextStuck? g.emissionEnd.emitted i).map g.file =
      (h.nextStuck? h.emissionEnd.emitted j).map h.file := by
  refine map_smallest?_eq fun f => ?_
  rw [wfg.mem_map_stuckDependencies hi, wfh.mem_map_stuckDependencies hj, hij, hdepends]

/-- Both searches are at files of one name and have passed files of the same
    names; they go on alike. Both come back to a file before their fuel is out,
    so it does not matter how much of it they have. -/
theorem map_followStuck_eq {n m i j : Nat} {is js : List Nat}
    (his : ∀ k ∈ i :: is, g.IsStuck k) (hjs : ∀ k ∈ j :: js, h.IsStuck k)
    (hnodup : ((i :: is).map g.file).Nodup) (heq : (i :: is).map g.file = (j :: js).map h.file)
    (hn : g.fileCount < n + (i :: is).length) (hm : h.fileCount < m + (j :: js).length) :
    (g.followStuck g.emissionEnd.emitted n i (i :: is)).map g.file =
      (h.followStuck h.emissionEnd.emitted m j (j :: js)).map h.file := by
  induction n generalizing m i j is js with
  | zero =>
    have hle := length_le_of_isStuck his (hnodup.of_map g.file)
    omega
  | succ n ih =>
    cases m with
    | zero =>
      have hle := length_le_of_isStuck hjs ((heq ▸ hnodup).of_map h.file)
      omega
    | succ m =>
      have hi := his i (List.mem_cons_self ..)
      have hj := hjs j (List.mem_cons_self ..)
      have hnext := map_nextStuck?_eq hdepends wfg wfh hi.1 hj.1 (List.cons.inj heq).1
      obtain ⟨k, hk, -, hkstuck⟩ := nextStuck?_of_isStuck wfg hi
      obtain ⟨l, hl, -, hlstuck⟩ := nextStuck?_of_isStuck wfh hj
      have hkl : g.file k = h.file l := by
        rw [hk, hl] at hnext
        exact Option.some.inj hnext
      -- names decide whether a file has been passed, so both searches close here or neither does
      have hmem : k ∈ i :: is ↔ l ∈ j :: js := by
        rw [← wfg.mem_map_file (fun k hk => (his k hk).1) hkstuck.1,
          ← wfh.mem_map_file (fun k hk => (hjs k hk).1) hlstuck.1, heq, hkl]
      simp only [followStuck, hk, hl]
      by_cases hpassed : k ∈ i :: is
      · rw [if_pos hpassed, if_pos (hmem.1 hpassed)]
        refine map_closedWalk_dropWhile_eq ?_ ?_ (List.mem_reverse.2 hpassed)
          (List.mem_reverse.2 (hmem.1 hpassed)) hkl
        · rw [List.map_reverse]
          exact List.nodup_reverse.2 hnodup
        · rw [List.map_reverse, List.map_reverse, heq]
      · rw [if_neg hpassed, if_neg fun h => hpassed (hmem.2 h)]
        refine ih (List.forall_mem_cons.2 ⟨hkstuck, his⟩) (List.forall_mem_cons.2 ⟨hlstuck, hjs⟩)
          ?_ (congrArg₂ List.cons hkl heq) ?_ ?_
        · rw [List.map_cons, List.nodup_cons, wfg.mem_map_file (fun k hk => (his k hk).1) hkstuck.1]
          exact ⟨hpassed, hnodup⟩
        · rw [List.length_cons]
          omega
        · rw [List.length_cons]
          omega

/-- Both searches find the same walk. -/
theorem map_findCycle_eq :
    (g.findCycle g.emissionEnd.emitted).map g.file =
      (h.findCycle h.emissionEnd.emitted).map h.file := by
  have hsmallest := map_smallest?_eq (g := g) (h := h) fun f => by
    rw [wfg.mem_map_isStuck, wfh.mem_map_isStuck, hdepends]
  rw [findCycle, findCycle]
  cases hi : g.smallest? ((List.range g.fileCount).filter
      fun k => !g.emissionEnd.emitted.contains k) with
  | none =>
    rw [hi, Option.map_none, eq_comm, Option.map_eq_none_iff] at hsmallest
    rw [hsmallest]
    rfl
  | some i =>
    rw [hi, Option.map_some, eq_comm, Option.map_eq_some_iff] at hsmallest
    obtain ⟨j, hj, hji⟩ := hsmallest
    rw [hj]
    simp only
    refine map_followStuck_eq hdepends wfg wfh ?_ ?_ (List.nodup_singleton _) ?_ ?_ ?_
    · exact List.forall_mem_singleton.2 (mem_stuck.1 (smallest?_eq_some hi).1)
    · exact List.forall_mem_singleton.2 (mem_stuck.1 (smallest?_eq_some hj).1)
    · rw [List.map_singleton, List.map_singleton, hji]
    · exact Nat.lt_succ_self _
    · exact Nat.lt_succ_self _

end

/-! ## The order of both graphs -/

namespace Agree

variable {g h : FileGraph} (agree : g.Agree h) (wfg : g.WellFormed) (wfh : h.WellFormed)

include agree wfg wfh

/-- A mode that does not keep the order of the input presents both graphs alike. -/
theorem order_eq {mode : OrderMode} (hmode : mode ≠ .none) : g.order mode = h.order mode := by
  by_cases huse : mode.usesGraph = true
  · rcases order_cases wfg huse with ⟨hacyclic, hlen, hg⟩ | ⟨walk, hcyclic, -, rfl, hg⟩
    · rcases order_cases wfh huse with ⟨-, hlen', hh⟩ | ⟨walk', hcyclic', -⟩
      · rw [hg, hh, agree.emittedFiles_eq wfg wfh hlen hlen']
      · exact absurd (agree.cyclic_iff.2 hcyclic') hacyclic
    · rcases order_cases wfh huse with ⟨hacyclic', -⟩ | ⟨walk', -, -, rfl, hh⟩
      · exact absurd (agree.cyclic_iff.1 hcyclic) hacyclic'
      · rw [hg, hh, agree.sortedFiles_eq wfg wfh, map_findCycle_eq agree.dependsOn_eq wfg wfh]
  · cases mode with
    | none => exact absurd rfl hmode
    | lexicographic => rw [order, order, agree.sortedFiles_eq wfg wfh]
    | dependency | dependencyRev => exact absurd rfl huse

end Agree

/-! ## Graphs built in different ways -/

/-- **Only files and edges count.** Two graphs built in any ways that have the
    same files and the same edges are presented alike by every mode that does
    not keep the order of the input, the diagnostic included. -/
theorem order_ofSteps_eq (steps steps' : List Step)
    (hfiles : ∀ f, (ofSteps steps).HasFile f ↔ (ofSteps steps').HasFile f)
    (hedges : ∀ a b, (ofSteps steps).hasEdge a b = (ofSteps steps').hasEdge a b)
    (mode : OrderMode) (hmode : mode ≠ .none) :
    (ofSteps steps).order mode = (ofSteps steps').order mode := by
  have agree : (ofSteps steps).Agree (ofSteps steps') := ⟨hfiles, hedges⟩
  exact agree.order_eq (wellFormed_ofSteps steps) (wellFormed_ofSteps steps') hmode

/-- Two files that depend on each other and one that they need, added in one way. -/
def mutualSteps : List Step :=
  [.addFile "b", .addFile "a", .addFile "c", .addEdge "a" "b", .addEdge "a" "c",
    .addEdge "b" "a", .addEdge "b" "b"]

/-- The same files and edges in another order, with repeats and an unknown file. -/
def mutualSteps' : List Step :=
  [.addFile "a", .addEdge "a" "b", .addFile "c", .addEdge "a" "c", .addFile "b",
    .addEdge "b" "a", .addEdge "a" "b", .addFile "a", .addEdge "a" "x"]

theorem order_ofSteps_eq_mutual :
    (ofSteps mutualSteps).files ≠ (ofSteps mutualSteps').files ∧
      (ofSteps mutualSteps).order .dependencyRev = (ofSteps mutualSteps').order .dependencyRev ∧
      ((ofSteps mutualSteps).order .dependencyRev).2 =
        some (.dependencyCycle ["a", "b", "a"]) := by
  have hperm : (ofSteps mutualSteps).files.toList.Perm (ofSteps mutualSteps').files.toList := by
    decide +kernel
  have hedges : (ofSteps mutualSteps).edges = (ofSteps mutualSteps').edges := by decide +kernel
  refine ⟨by decide +kernel, order_ofSteps_eq _ _ (fun f => hperm.mem_iff) (fun a b => ?_)
    .dependencyRev (by decide), by decide +kernel⟩
  rw [Bool.eq_iff_iff, ← (wellFormed_ofSteps _).mem_edges, ← (wellFormed_ofSteps _).mem_edges,
    hedges]

end FileGraph

end CrossRef
