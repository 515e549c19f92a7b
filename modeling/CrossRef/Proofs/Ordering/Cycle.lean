/-
  CrossRef.Proofs.Ordering.Cycle

  The closed walk that explains why not every file could be emitted. From a
  file that was not emitted the search follows one dependency after another
  that was not emitted either. It cannot pass more files than there are, so
  it comes back to one it has passed (`closedWalk_followStuck`). Hence some
  file depends on itself exactly if not every file can be emitted
  (`cyclic_iff`), and what is shown then is a cycle of the graph
  (`topological_error_showsCycle`).
-/
import CrossRef.Proofs.Ordering.Emission
import Mathlib.Data.List.Chain

namespace CrossRef

namespace FileGraph

/-! ## The smallest file -/

theorem smallest?_eq_none {g : FileGraph} {is : List Nat} : g.smallest? is = none ↔ is = [] := by
  cases is with
  | nil => simp [smallest?]
  | cons i is =>
    rw [smallest?]
    constructor
    · intro h
      split at h
      · split at h <;> cases h
      · cases h
    · intro h
      cases h

theorem smallest?_eq_some {g : FileGraph} {is : List Nat} {i : Nat} (h : g.smallest? is = some i) :
    i ∈ is ∧ ∀ j ∈ is, g.file i ≤ g.file j := by
  induction is generalizing i with
  | nil => cases h
  | cons k ks ih =>
    rw [smallest?] at h
    split at h
    · rename_i j hj
      obtain ⟨hmem, hle⟩ := ih hj
      split at h
      · rename_i hlt
        cases h
        refine ⟨List.mem_cons_of_mem _ hmem, fun l hl => ?_⟩
        rcases List.mem_cons.1 hl with rfl | hl
        · exact le_of_lt hlt
        · exact hle l hl
      · rename_i hlt
        cases h
        refine ⟨List.mem_cons_self .., fun l hl => ?_⟩
        rcases List.mem_cons.1 hl with rfl | hl
        · exact String.le_refl _
        · exact String.le_trans (String.not_lt.1 hlt) (hle l hl)
    · rename_i hnone
      cases h
      rw [smallest?_eq_none.1 hnone]
      refine ⟨List.mem_cons_self .., fun l hl => ?_⟩
      cases List.mem_singleton.1 hl
      exact String.le_refl _

/-- Only the identifiers in a list decide which is the smallest. -/
theorem map_smallest?_eq {g h : FileGraph} {is js : List Nat}
    (heq : ∀ f, f ∈ is.map g.file ↔ f ∈ js.map h.file) :
    (g.smallest? is).map g.file = (h.smallest? js).map h.file := by
  cases hi : g.smallest? is with
  | none =>
    rw [smallest?_eq_none] at hi
    subst hi
    have hjs : js.map h.file = [] :=
      List.eq_nil_iff_forall_not_mem.2 fun f hf => absurd ((heq f).2 hf) (by simp)
    rw [List.map_eq_nil_iff] at hjs
    rw [hjs]
    rfl
  | some i =>
    obtain ⟨himem, hile⟩ := smallest?_eq_some hi
    cases hj : h.smallest? js with
    | none =>
      rw [smallest?_eq_none] at hj
      subst hj
      exact absurd ((heq _).1 (List.mem_map_of_mem himem)) (by simp)
    | some j =>
      obtain ⟨hjmem, hjle⟩ := smallest?_eq_some hj
      obtain ⟨k, hk, hki⟩ := List.mem_map.1 ((heq _).1 (List.mem_map_of_mem himem))
      obtain ⟨l, hl, hlj⟩ := List.mem_map.1 ((heq _).2 (List.mem_map_of_mem hjmem))
      have hle : g.file i ≤ h.file j := hlj ▸ hile l hl
      have hge : h.file j ≤ g.file i := hki ▸ hjle k hk
      rw [Option.map_some, Option.map_some, String.le_antisymm hle hge]

/-! ## Turning a cycle -/

/-- A list parts at the first occurrence of a member. -/
theorem exists_split {is : List Nat} {i : Nat} (h : i ∈ is) :
    ∃ xs ys, is = xs ++ i :: ys ∧ i ∉ xs ∧ is.takeWhile (· != i) = xs ∧
      is.dropWhile (· != i) = i :: ys := by
  induction is with
  | nil => cases h
  | cons j js ih =>
    by_cases hji : j = i
    · subst hji
      exact ⟨[], js, rfl, List.not_mem_nil, by simp, by simp⟩
    · obtain ⟨xs, ys, heq, hxs, htake, hdrop⟩ := ih ((List.mem_cons.1 h).resolve_left (Ne.symm hji))
      have hbne : (j != i) = true := bne_iff_ne.2 hji
      refine ⟨j :: xs, ys, by rw [heq, List.cons_append], fun hmem => ?_, ?_, ?_⟩
      · exact (List.mem_cons.1 hmem).elim (fun h => hji h.symm) hxs
      · rw [List.takeWhile_cons, if_pos hbne, htake]
      · rw [List.dropWhile_cons, if_pos hbne, hdrop]

/-- A walk along dependencies that ends where it begins, passes no other file
    twice, and begins with its smallest file. -/
structure ClosedWalk (g : FileGraph) (walk : List Nat) : Prop where
  closed : walk.head? = walk.getLast?
  length : 3 ≤ walk.length
  nodup : walk.dropLast.Nodup
  chain : walk.IsChain fun i j => j ∈ g.dependencies i
  smallest : ∀ i ∈ walk.head?, ∀ j ∈ walk, g.file i ≤ g.file j

theorem closedWalk_eq {g : FileGraph} {cycle : List Nat} (h : cycle ≠ []) :
    ∃ i xs ys, g.smallest? cycle = some i ∧ cycle = xs ++ i :: ys ∧ i ∉ xs ∧
      g.closedWalk cycle = i :: ys ++ xs ++ [i] := by
  cases hi : g.smallest? cycle with
  | none => exact absurd (smallest?_eq_none.1 hi) h
  | some i =>
    obtain ⟨xs, ys, heq, hxs, htake, hdrop⟩ := exists_split (smallest?_eq_some hi).1
    refine ⟨i, xs, ys, rfl, heq, hxs, ?_⟩
    simp only [FileGraph.closedWalk, hi, htake, hdrop]

/-- The walk around a cycle, from its smallest file back to it. -/
theorem closedWalk_closedWalk {g : FileGraph} {cycle : List Nat} (hlen : 2 ≤ cycle.length)
    (hnodup : cycle.Nodup) (hchain : cycle.IsChain fun i j => j ∈ g.dependencies i)
    (hclose : ∀ i ∈ cycle.getLast?, ∀ j ∈ cycle.head?, j ∈ g.dependencies i) :
    g.ClosedWalk (g.closedWalk cycle) := by
  have hne : cycle ≠ [] := by
    rintro rfl
    simp at hlen
  obtain ⟨i, xs, ys, hi, heq, -, hwalk⟩ := closedWalk_eq (g := g) hne
  have hperm : (i :: ys ++ xs).Perm cycle := by
    rw [heq]
    exact List.perm_append_comm
  have hmem : ∀ j ∈ g.closedWalk cycle, j ∈ cycle := by
    intro j hj
    rw [hwalk, List.mem_append, List.mem_singleton] at hj
    rcases hj with hj | rfl
    · exact hperm.mem_iff.1 hj
    · exact (smallest?_eq_some hi).1
  -- going round twice is a chain, and the walk is a stretch of it
  have htwice : (cycle ++ cycle).IsChain fun i j => j ∈ g.dependencies i :=
    List.isChain_append.2 ⟨hchain, hchain, hclose⟩
  have hinfix : g.closedWalk cycle <:+: cycle ++ cycle :=
    ⟨xs, ys, by rw [hwalk, heq]; simp⟩
  refine ⟨?_, ?_, ?_, htwice.infix hinfix, fun j hj k hk => ?_⟩
  · rw [hwalk, List.getLast?_concat]
    rfl
  · rw [hwalk, List.length_append, hperm.length_eq, List.length_singleton]
    omega
  · rw [hwalk, List.dropLast_concat]
    exact hperm.nodup_iff.2 hnodup
  · rw [hwalk] at hj
    cases hj
    exact (smallest?_eq_some hi).2 k (hmem k hk)

/-! ## Following what is stuck -/

/-- Nothing is left to emit, but file `i` has not been emitted. -/
def IsStuck (g : FileGraph) (i : Nat) : Prop := i < g.fileCount ∧ i ∉ g.emissionEnd.emitted

theorem nextStuck?_of_isStuck {g : FileGraph} (wf : g.WellFormed) {i : Nat} (h : g.IsStuck i) :
    ∃ j, g.nextStuck? g.emissionEnd.emitted i = some j ∧ j ∈ g.dependencies i ∧ g.IsStuck j := by
  obtain ⟨k, hk, hkstuck⟩ := exists_stuck_dependency wf h.1 h.2
  cases hj : g.nextStuck? g.emissionEnd.emitted i with
  | none =>
    have hmem : k ∈ (g.dependencies i).filter fun j => !g.emissionEnd.emitted.contains j :=
      List.mem_filter.2 ⟨hk, by simpa using hkstuck⟩
    rw [nextStuck?, smallest?_eq_none] at hj
    rw [hj] at hmem
    cases hmem
  | some j =>
    obtain ⟨hdep, hstuck⟩ := List.mem_filter.1 (smallest?_eq_some hj).1
    exact ⟨j, rfl, hdep, wf.lt_of_mem i j hdep, by simpa using hstuck⟩

/-- No more files are stuck than there are. -/
theorem length_le_of_isStuck {g : FileGraph} {is : List Nat} (his : ∀ k ∈ is, g.IsStuck k)
    (hnodup : is.Nodup) : is.length ≤ g.fileCount := by
  have hsub : is ⊆ List.range g.fileCount := fun k hk => List.mem_range.2 (his k hk).1
  have hle := (List.subperm_of_subset hnodup hsub).length_le
  rwa [List.length_range] at hle

theorem mem_stuck {g : FileGraph} {k : Nat} :
    k ∈ (List.range g.fileCount).filter (fun k => !g.emissionEnd.emitted.contains k) ↔
      g.IsStuck k := by
  rw [List.mem_filter, List.mem_range, IsStuck]
  simp

/-- Where the next file `j` has been passed, the way from it on is a cycle. -/
theorem closedWalk_of_passed {g : FileGraph} (wf : g.WellFormed) {i j : Nat} {rest : List Nat}
    (hnodup : (i :: rest).Nodup)
    (hchain : (i :: rest).reverse.IsChain fun i j => j ∈ g.dependencies i)
    (hdep : j ∈ g.dependencies i) (hpassed : j ∈ i :: rest) :
    g.ClosedWalk (g.closedWalk ((i :: rest).reverse.dropWhile (· != j))) := by
  obtain ⟨xs, ys, heq, -, -, hdrop⟩ := exists_split (List.mem_reverse.2 hpassed)
  rw [hdrop]
  have hsuffix : j :: ys <:+ (i :: rest).reverse := ⟨xs, heq.symm⟩
  -- the cycle ends with the file the search stands at
  have hlast : (j :: ys).getLast? = some i := by
    have h := congrArg List.getLast? heq
    rw [List.reverse_cons, List.getLast?_concat,
      List.getLast?_append_of_ne_nil _ (List.cons_ne_nil j ys)] at h
    exact h.symm
  -- and has more than one file, for no file is a dependency of itself
  have hlen : 2 ≤ (j :: ys).length := by
    cases ys with
    | nil =>
      rw [List.getLast?_singleton] at hlast
      cases hlast
      exact absurd rfl (wf.ne_of_mem i i hdep)
    | cons y ys => simp
  refine closedWalk_closedWalk hlen (hsuffix.sublist.nodup (List.nodup_reverse.2 hnodup))
    (hchain.suffix hsuffix) fun k hk l hl => ?_
  rw [hlast] at hk
  cases hk
  cases hl
  exact hdep

/-- The search comes back to a file it has passed before the fuel runs out,
    because it never passes more files than there are. -/
theorem closedWalk_followStuck {g : FileGraph} (wf : g.WellFormed) {fuel i : Nat} {rest : List Nat}
    (hstuck : ∀ k ∈ i :: rest, g.IsStuck k) (hnodup : (i :: rest).Nodup)
    (hchain : (i :: rest).reverse.IsChain fun i j => j ∈ g.dependencies i)
    (hfuel : g.fileCount < fuel + (i :: rest).length) :
    g.ClosedWalk (g.followStuck g.emissionEnd.emitted fuel i (i :: rest)) := by
  induction fuel generalizing i rest with
  | zero =>
    -- out of fuel, more files would have been passed than there are
    have hle := length_le_of_isStuck hstuck hnodup
    omega
  | succ fuel ih =>
    obtain ⟨j, hnext, hdep, hj⟩ := nextStuck?_of_isStuck wf (hstuck i (List.mem_cons_self ..))
    simp only [followStuck, hnext]
    split
    · rename_i hpassed
      exact closedWalk_of_passed wf hnodup hchain hdep hpassed
    · rename_i hpassed
      refine ih (fun k hk => ?_) (List.nodup_cons.2 ⟨hpassed, hnodup⟩) ?_ ?_
      · rcases List.mem_cons.1 hk with rfl | hk
        · exact hj
        · exact hstuck k hk
      -- the way so far ends with `i`, and `j` is a dependency of it
      · rw [List.reverse_cons]
        refine hchain.append (List.isChain_singleton j) fun k hk l hl => ?_
        rw [List.reverse_cons, List.getLast?_concat] at hk
        cases hk
        cases hl
        exact hdep
      · rw [List.length_cons]
        omega

/-- If a file is stuck, the search ends in a closed walk. -/
theorem closedWalk_findCycle {g : FileGraph} (wf : g.WellFormed) {i : Nat} (h : g.IsStuck i) :
    g.ClosedWalk (g.findCycle g.emissionEnd.emitted) := by
  rw [findCycle]
  cases hs : g.smallest? ((List.range g.fileCount).filter
      fun k => !g.emissionEnd.emitted.contains k) with
  | none =>
    rw [smallest?_eq_none] at hs
    have hmem := mem_stuck.2 h
    rw [hs] at hmem
    cases hmem
  | some s =>
    have hstuck : g.IsStuck s := mem_stuck.1 (smallest?_eq_some hs).1
    refine closedWalk_followStuck wf (fun k hk => ?_) (List.nodup_singleton s) ?_ ?_
    · rw [List.mem_singleton.1 hk]
      exact hstuck
    · exact List.isChain_singleton s
    · rw [List.length_singleton]
      omega

/-! ## Cycles of files -/

/-- Some file depends on itself, directly or through others. -/
def Cyclic (g : FileGraph) : Prop := ∃ f, Relation.TransGen g.DependsOn f f

theorem ClosedWalk.dependsOn {g : FileGraph} (wf : g.WellFormed) {walk : List Nat}
    (h : g.ClosedWalk walk) : (walk.map g.file).IsChain g.DependsOn := by
  rw [List.isChain_map]
  exact h.chain.imp fun i j hij => wf.hasEdge_iff.2 ⟨i, j, hij, rfl, rfl⟩

/-- Going along a closed walk leads a file to itself. -/
theorem ClosedWalk.cyclic {g : FileGraph} (wf : g.WellFormed) {walk : List Nat}
    (h : g.ClosedWalk walk) : g.Cyclic := by
  have hchain := h.dependsOn wf
  have hclosed := h.closed
  have hlen := h.length
  match walk, hchain, hclosed, hlen with
  | i :: j :: rest, hchain, hclosed, _ =>
    simp only [List.map_cons] at hchain
    obtain ⟨hij, hrest⟩ := List.isChain_cons_cons.1 hchain
    -- the first step leads to `j`, and the rest of the walk back to `i`
    refine ⟨g.file i, Relation.TransGen.head' hij
      (List.relationReflTransGen_of_exists_isChain_cons (rest.map g.file) hrest ?_)⟩
    have hlast : (j :: rest).getLast? = some i := by
      rw [List.head?_cons, List.getLast?_cons_cons] at hclosed
      exact hclosed.symm
    rw [List.getLast?_eq_some_getLast (List.cons_ne_nil j rest), Option.some.injEq] at hlast
    simp only [← List.map_cons, List.getLast_map, hlast]

/-- A file that leads to itself is not accessible. -/
theorem not_acc_of_transGen {g : FileGraph} {f : String} (h : Relation.TransGen g.DependsOn f f) :
    ¬ Acc (fun b a => g.DependsOn a b) f := by
  intro hacc
  have hswap : Relation.TransGen (fun b a => g.DependsOn a b) f f := Relation.transGen_swap.2 h
  have hacc' := hacc.transGen
  clear hacc h
  induction hacc' with
  | intro f _ ih => exact ih f hswap hswap

/-- Files depend on each other in a cycle exactly if not every file can be emitted. -/
theorem cyclic_iff {g : FileGraph} (wf : g.WellFormed) : g.Cyclic ↔ ∃ i, g.IsStuck i := by
  constructor
  · rintro ⟨f, hf⟩
    obtain ⟨b, hb, -⟩ := Relation.TransGen.head'_iff.1 hf
    obtain ⟨i, j, hij, rfl, -⟩ := wf.hasEdge_iff.1 hb
    have hi := wf.source_lt hij
    exact ⟨i, hi, fun hmem => not_acc_of_transGen hf ((mem_emitted_iff wf hi).1 hmem)⟩
  · rintro ⟨i, hi⟩
    exact (closedWalk_findCycle wf hi).cyclic wf

/-- Either there is no cycle and every file is emitted, or there is one and it is found. -/
theorem topological_cases {g : FileGraph} (wf : g.WellFormed) :
    (¬ g.Cyclic ∧ g.emissionEnd.emitted.length = g.fileCount ∧
      g.topological = .ok g.emissionEnd.emitted.reverse) ∨
    (g.Cyclic ∧ g.topological = .error (g.findCycle g.emissionEnd.emitted) ∧
      g.ClosedWalk (g.findCycle g.emissionEnd.emitted)) := by
  have hsettled := (sound_emissionEnd wf).settled
  have htopological : g.topological = if g.emissionEnd.emitted.length = g.fileCount
      then .ok g.emissionEnd.emitted.reverse
      else .error (g.findCycle g.emissionEnd.emitted) := rfl
  by_cases hlen : g.emissionEnd.emitted.length = g.fileCount
  · refine .inl ⟨fun hcyclic => ?_, hlen, by rw [htopological, if_pos hlen]⟩
    obtain ⟨i, hi, hstuck⟩ := (cyclic_iff wf).1 hcyclic
    exact hstuck (hsettled.mem_of_length_eq hlen hi)
  · obtain ⟨i, hi, hstuck⟩ : ∃ i, g.IsStuck i := by
      -- otherwise all numbers below the count would be among fewer emitted ones
      by_contra hnone
      have hsub : List.range g.fileCount ⊆ g.emissionEnd.emitted := fun i hi =>
        by_contra fun hmem => hnone ⟨i, List.mem_range.1 hi, hmem⟩
      have hle := (List.subperm_of_subset List.nodup_range hsub).length_le
      rw [List.length_range] at hle
      exact hlen (Nat.le_antisymm hsettled.length_le hle)
    refine .inr ⟨(cyclic_iff wf).2 ⟨i, hi, hstuck⟩, by rw [htopological, if_neg hlen], ?_⟩
    exact closedWalk_findCycle wf ⟨hi, hstuck⟩

/-! ## The cycle that is shown -/

/-- Every file on a closed walk is a file of the graph. -/
theorem ClosedWalk.lt {g : FileGraph} (wf : g.WellFormed) {walk : List Nat}
    (h : g.ClosedWalk walk) : ∀ i ∈ walk, i < g.fileCount := by
  intro i hi
  obtain ⟨n, hn, rfl⟩ := List.mem_iff_getElem.1 hi
  have hlen := h.length
  have hstep := List.isChain_iff_getElem.1 h.chain
  -- a file with another behind it depends on that one, and the last is a dependency
  by_cases hlast : n + 1 < walk.length
  · exact wf.source_lt (hstep n hlast)
  · cases n with
    | zero => omega
    | succ n => exact wf.lt_of_mem _ _ (hstep n hn)

/-- A cycle as it is shown: it ends with the file it begins with, which is the
    smallest on it, passes at least two files, none of them twice, and each
    depends on the next. -/
structure ShowsCycle (g : FileGraph) (walk : List String) : Prop where
  closed : ∃ f, walk.head? = some f ∧ walk.getLast? = some f
  several : ∃ a ∈ walk, ∃ b ∈ walk, a ≠ b
  simple : walk.dropLast.Nodup
  along : walk.IsChain g.DependsOn
  smallest : ∀ f ∈ walk.head?, ∀ b ∈ walk, f ≤ b

theorem ClosedWalk.nodup_map_file {g : FileGraph} (wf : g.WellFormed) {walk : List Nat}
    (h : g.ClosedWalk walk) : (walk.dropLast.map g.file).Nodup := by
  have hlt := h.lt wf
  have hsub : ∀ i ∈ walk.dropLast, i < g.fileCount := fun i hi =>
    hlt i ((List.dropLast_sublist walk).subset hi)
  exact h.nodup.map_on fun i hi j hj heq => wf.file_inj (hsub i hi) (hsub j hj) heq

theorem ClosedWalk.showsCycle {g : FileGraph} (wf : g.WellFormed) {walk : List Nat}
    (h : g.ClosedWalk walk) : g.ShowsCycle (walk.map g.file) := by
  have hnodup := h.nodup_map_file wf
  have hclosed := h.closed
  have hlen := h.length
  constructor
  · obtain ⟨i, hi⟩ : ∃ i, walk.head? = some i := by
      cases walk with
      | nil => simp at hlen
      | cons i is => exact ⟨i, rfl⟩
    refine ⟨g.file i, ?_, ?_⟩
    · rw [List.head?_map, hi, Option.map_some]
    · rw [List.getLast?_map, ← hclosed, hi, Option.map_some]
  · match walk, hlen, hnodup with
    | i :: j :: k :: rest, _, hnodup =>
      refine ⟨g.file i, by simp, g.file j, by simp, fun heq => ?_⟩
      rw [List.dropLast_cons_cons, List.dropLast_cons_cons, List.map_cons, List.map_cons] at hnodup
      exact (List.nodup_cons.1 hnodup).1 (heq ▸ List.mem_cons_self ..)
  · rwa [← List.map_dropLast]
  · exact h.dependsOn wf
  · intro f hf b hb
    rw [List.head?_map] at hf
    obtain ⟨i, hi, rfl⟩ := Option.map_eq_some_iff.1 hf
    obtain ⟨j, hj, rfl⟩ := List.mem_map.1 hb
    exact h.smallest i hi j hj

/-- The diagnostic of a mode that looks at edges shows the walk that is found. -/
theorem order_snd_of_error {g : FileGraph} {walk : List Nat} (h : g.topological = .error walk)
    {mode : OrderMode} (hmode : mode.usesGraph = true) :
    (g.order mode).2 = some (.dependencyCycle (walk.map g.file)) := by
  cases mode with
  | dependency | dependencyRev => simp only [order, h]
  | lexicographic | none => cases hmode

/-- **Cycles are real.** Of a graph built in any way, a walk is returned in
    place of an order exactly if some file depends on itself. It is a walk
    along dependencies that ends where it begins, passes at least two files and
    none of them twice, and begins with its smallest file; and it is what the
    diagnostics show. -/
theorem topological_error_showsCycle (steps : List Step) :
    let g := ofSteps steps
    ((∃ walk, g.topological = .error walk) ↔ g.Cyclic) ∧
    ∀ walk, g.topological = .error walk →
      (∀ i ∈ walk, i < g.fileCount) ∧ g.ShowsCycle (walk.map g.file) ∧
      ∀ mode : OrderMode, mode.usesGraph = true →
        (g.order mode).2 = some (.dependencyCycle (walk.map g.file)) := by
  intro g
  have wf : g.WellFormed := wellFormed_ofSteps steps
  rcases topological_cases wf with ⟨hacyclic, -, htop⟩ | ⟨hcyclic, htop, hwalk⟩
  · have hnone : ∀ walk, g.topological ≠ .error walk := by
      intro walk hwalk
      rw [htop] at hwalk
      cases hwalk
    exact ⟨⟨fun ⟨walk, hwalk⟩ => absurd hwalk (hnone walk), fun h => absurd h hacyclic⟩,
      fun walk hwalk => absurd hwalk (hnone walk)⟩
  · refine ⟨⟨fun _ => hcyclic, fun _ => ⟨_, htop⟩⟩, fun walk h => ?_⟩
    have hsame : walk = g.findCycle g.emissionEnd.emitted := Except.error.inj (h.symm.trans htop)
    subst hsame
    exact ⟨hwalk.lt wf, hwalk.showsCycle wf, fun mode hmode => order_snd_of_error h hmode⟩

example : ((ofSteps [.addFile "z", .addFile "a", .addFile "d", .addFile "c", .addFile "b",
    .addEdge "a" "b", .addEdge "b" "c", .addEdge "c" "d", .addEdge "d" "b"]).order .dependency).2 =
    some (.dependencyCycle ["b", "c", "d", "b"]) := by decide +kernel

end FileGraph

end CrossRef
