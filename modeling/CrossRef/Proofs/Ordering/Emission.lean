/-
  CrossRef.Proofs.Ordering.Emission

  What is true at every moment of the emission: the counters say how many
  dependencies of a file have not been emitted, the ready files are exactly
  those that miss none, in the order of their identifiers, and what has been
  emitted was ready when its turn came.

  `sound_emit` carries this through any number of steps; `ready_emit` says
  that as many steps as there are files are enough to run out of ready ones.
-/
import CrossRef.Ordering
import CrossRef.Proofs.FileGraph.WellFormed
import CrossRef.Proofs.Keyed
import Mathlib.Data.List.Perm.Subperm

namespace CrossRef

namespace FileGraph

/-! ## Readiness -/

/-- File `i` may come next when those in `emitted` have come: it has not come
    itself, and all it depends on has. -/
def IsReady (g : FileGraph) (emitted : List Nat) (i : Nat) : Prop :=
  i < g.fileCount ∧ i ∉ emitted ∧ ∀ j ∈ g.dependencies i, j ∈ emitted

/-- Every file was ready when its turn came. The latest stands first. -/
def Settled (g : FileGraph) : List Nat → Prop
  | [] => True
  | i :: is => g.IsReady is i ∧ Settled g is

/-- How many files that `i` depends on have not been emitted. -/
def missing (g : FileGraph) (emitted : List Nat) (i : Nat) : Nat :=
  (g.dependencies i).countP fun j => decide (j ∉ emitted)

section

variable {g : FileGraph} {emitted : List Nat} {i : Nat}

theorem missing_eq_zero : g.missing emitted i = 0 ↔ ∀ j ∈ g.dependencies i, j ∈ emitted := by
  rw [missing, List.countP_eq_zero]
  simp only [decide_not, Bool.not_eq_true, Bool.not_eq_false', decide_eq_true_eq]

/-- In a list without repetitions a new file is counted at most once. -/
theorem countP_notMem_cons (hi : i ∉ emitted) {js : List Nat} (hjs : js.Nodup) :
    js.countP (fun j => decide (j ∉ emitted)) =
      js.countP (fun j => decide (j ∉ i :: emitted)) + if i ∈ js then 1 else 0 := by
  induction js with
  | nil => simp
  | cons j js ih =>
    obtain ⟨hj, hjs⟩ := List.nodup_cons.1 hjs
    by_cases hij : i = j
    · -- the file is the head: it is not in the tail, so there both counts agree
      subst hij
      have hsame : js.countP (fun j => decide (j ∉ emitted)) =
          js.countP fun j => decide (j ∉ i :: emitted) :=
        List.countP_congr fun j hjs => by
          have hne : j ≠ i := fun heq => hj (heq ▸ hjs)
          simp [hne]
      rw [List.countP_cons, List.countP_cons, hsame]
      simp [hi]
    · have hji : j ≠ i := Ne.symm hij
      simp only [List.countP_cons, List.mem_cons, hij, hji, false_or, ih hjs]
      omega

/-- Emitting a file takes one from the counters of its dependents. -/
theorem missing_cons (wf : g.WellFormed) (hi : i ∉ emitted) (k : Nat) :
    g.missing (i :: emitted) k =
      g.missing emitted k - if i ∈ g.dependencies k then 1 else 0 := by
  rw [missing, missing, countP_notMem_cons hi (wf.dependencies_nodup k), Nat.add_sub_cancel]

namespace Settled

theorem lt (h : g.Settled emitted) (hi : i ∈ emitted) : i < g.fileCount := by
  induction emitted with
  | nil => cases hi
  | cons j js ih =>
    rcases List.mem_cons.1 hi with rfl | hi
    · exact h.1.1
    · exact ih h.2 hi

theorem nodup (h : g.Settled emitted) : emitted.Nodup := by
  induction emitted with
  | nil => exact List.nodup_nil
  | cons j js ih => exact List.nodup_cons.2 ⟨h.1.2.1, ih h.2⟩

/-- What has been emitted depends on emitted files only. -/
theorem mem_of_mem_dependencies (h : g.Settled emitted) (hi : i ∈ emitted) {j : Nat}
    (hj : j ∈ g.dependencies i) : j ∈ emitted := by
  induction emitted with
  | nil => cases hi
  | cons k ks ih =>
    rcases List.mem_cons.1 hi with rfl | hi
    · exact List.mem_cons_of_mem _ (h.1.2.2 j hj)
    · exact List.mem_cons_of_mem _ (ih h.2 hi)

/-- Every file was ready when those behind it in the list had been emitted. -/
theorem isReady_of_append (h : g.Settled emitted) {us vs : List Nat}
    (heq : emitted = us ++ i :: vs) : g.IsReady vs i := by
  induction us generalizing emitted with
  | nil =>
    subst heq
    exact h.1
  | cons u us ih =>
    subst heq
    exact ih h.2 rfl

theorem length_le (h : g.Settled emitted) : emitted.length ≤ g.fileCount := by
  have hsub : emitted ⊆ List.range g.fileCount := fun i hi => List.mem_range.2 (h.lt hi)
  have := (List.subperm_of_subset h.nodup hsub).length_le
  rwa [List.length_range] at this

/-- When as many files have been emitted as there are, all have been. -/
theorem mem_of_length_eq (h : g.Settled emitted) (hlen : emitted.length = g.fileCount)
    (hi : i < g.fileCount) : i ∈ emitted := by
  have hsub : emitted ⊆ List.range g.fileCount := fun i hi => List.mem_range.2 (h.lt hi)
  have hperm : emitted.Perm (List.range g.fileCount) :=
    (List.subperm_of_subset h.nodup hsub).perm_of_length_le (by rw [List.length_range, hlen])
  exact hperm.mem_iff.2 (List.mem_range.2 hi)

end Settled

end

/-! ## The ready files -/

theorem mem_insertReady {g : FileGraph} {i k : Nat} {js : List Nat} :
    k ∈ g.insertReady i js ↔ k = i ∨ k ∈ js := by
  induction js with
  | nil => simp [insertReady]
  | cons j js ih =>
    rw [insertReady]
    split
    · rw [List.mem_cons]
    · split
      · rename_i hij
        subst hij
        rw [List.mem_cons]
        tauto
      · rw [List.mem_cons, ih, List.mem_cons]
        tauto

theorem ascending_insertReady {g : FileGraph} (wf : g.WellFormed) {i : Nat} {js : List Nat}
    (hi : i < g.fileCount) (hjs : ∀ j ∈ js, j < g.fileCount) (h : Keyed.Ascending g.file js) :
    Keyed.Ascending g.file (g.insertReady i js) := by
  induction js with
  | nil => exact List.pairwise_singleton ..
  | cons j js ih =>
    obtain ⟨hj, htail⟩ := List.pairwise_cons.1 h
    rw [insertReady]
    split
    · rename_i hlt
      refine List.pairwise_cons.2 ⟨fun k hk => ?_, h⟩
      rcases List.mem_cons.1 hk with rfl | hk
      · exact hlt
      · exact String.lt_trans hlt (hj k hk)
    · rename_i hlt
      split
      · exact h
      · rename_i hij
        refine List.pairwise_cons.2 ⟨fun k hk => ?_, ih (fun k hk => hjs k (.tail _ hk)) htail⟩
        rcases mem_insertReady.1 hk with rfl | hk
        · have hne : g.file j ≠ g.file k := fun heq =>
            hij (wf.file_inj hi (hjs j (List.mem_cons_self ..)) heq.symm)
          exact lt_of_le_of_ne (String.not_lt.1 hlt) hne
        · exact hj k hk

/-- Files put among the ready ones one by one are all there, in order. -/
theorem foldr_insertReady {g : FileGraph} (wf : g.WellFormed) {is : List Nat}
    (his : ∀ i ∈ is, i < g.fileCount) :
    (∀ k, k ∈ is.foldr g.insertReady [] ↔ k ∈ is) ∧
      Keyed.Ascending g.file (is.foldr g.insertReady []) := by
  induction is with
  | nil => exact ⟨fun k => Iff.rfl, List.Pairwise.nil⟩
  | cons i is ih =>
    obtain ⟨hmem, hasc⟩ := ih fun j hj => his j (List.mem_cons_of_mem _ hj)
    refine ⟨fun k => ?_, ?_⟩
    · rw [List.foldr_cons, mem_insertReady, hmem, List.mem_cons]
    · have hready : ∀ j ∈ is.foldr g.insertReady [], j < g.fileCount := fun j hj =>
        his j (List.mem_cons_of_mem _ ((hmem j).1 hj))
      exact ascending_insertReady wf (his i (List.mem_cons_self ..)) hready hasc

/-! ## The invariant -/

/-- What is true of the emission whenever the next file is chosen. -/
structure Emission.Sound (g : FileGraph) (e : Emission) : Prop where
  settled : g.Settled e.emitted
  remaining : ∀ k, k < g.fileCount → e.remaining[k]? = some (g.missing e.emitted k)
  ascending : Keyed.Ascending g.file e.ready
  mem_ready : ∀ k, k ∈ e.ready ↔ g.IsReady e.emitted k

theorem sound_emissionStart {g : FileGraph} (wf : g.WellFormed) : g.emissionStart.Sound g := by
  have hmissing : ∀ k, g.missing [] k = (g.dependencies k).length := by
    intro k
    simp [missing]
  have hstart : ∀ i ∈ (List.range g.fileCount).filter fun i => (g.dependencies i).isEmpty,
      i < g.fileCount := fun i hi => List.mem_range.1 (List.mem_filter.1 hi).1
  obtain ⟨hmem, hasc⟩ := foldr_insertReady wf hstart
  refine ⟨trivial, fun k hk => ?_, hasc, fun k => ?_⟩
  · rw [emissionStart, hmissing, List.getElem?_toArray, List.getElem?_map, List.getElem?_range hk,
      Option.map_some]
  · rw [emissionStart, hmem, List.mem_filter, List.mem_range, List.isEmpty_iff, IsReady]
    simp [List.eq_nil_iff_forall_not_mem]

/-! ## One file -/

/-- What is true while the dependents of file `i` are released, which was
    emitted in the state `start`; `released` are those done so far. -/
structure Releasing (g : FileGraph) (start : Emission) (i : Nat) (released : List Nat)
    (e : Emission) : Prop where
  emitted : e.emitted = i :: start.emitted
  mem_dependencies : ∀ k ∈ released, i ∈ g.dependencies k
  remaining : ∀ k, k < g.fileCount →
    e.remaining[k]? = some (g.missing start.emitted k - if k ∈ released then 1 else 0)
  ascending : Keyed.Ascending g.file e.ready
  mem_ready : ∀ k, k ∈ e.ready ↔
    (k ∈ start.ready ∧ k ≠ i) ∨ (k ∈ released ∧ g.missing (i :: start.emitted) k = 0)

section

variable {g : FileGraph} {start e : Emission} {i k : Nat} {rest released : List Nat}

theorem Emission.Sound.isReady_head (hs : start.Sound g) (hr : start.ready = i :: rest) :
    g.IsReady start.emitted i :=
  (hs.mem_ready i).1 (by rw [hr]; exact List.mem_cons_self ..)

theorem releasing_start (hs : start.Sound g) (hr : start.ready = i :: rest) :
    g.Releasing start i [] { start with ready := rest, emitted := i :: start.emitted } := by
  have hasc := hs.ascending
  rw [hr] at hasc
  obtain ⟨hi, hrest⟩ := List.pairwise_cons.1 hasc
  refine ⟨rfl, fun _ hk => absurd hk List.not_mem_nil, fun k hk => ?_, hrest, fun k => ?_⟩
  · rw [hs.remaining k hk, if_neg (List.not_mem_nil), Nat.sub_zero]
  · have hne : i ∉ rest := fun h => String.lt_irrefl _ (hi i h)
    simp only [hr, List.mem_cons, List.not_mem_nil, false_and, or_false]
    constructor
    · exact fun hk => ⟨.inr hk, fun h => hne (h ▸ hk)⟩
    · rintro ⟨rfl | hk, hki⟩
      · exact absurd rfl hki
      · exact hk

theorem releasing_release (wf : g.WellFormed) (hs : start.Sound g) (hr : start.ready = i :: rest)
    (h : g.Releasing start i released e) (hk : k ∈ g.dependents i) (hnew : k ∉ released) :
    g.Releasing start i (k :: released) (g.release e k) := by
  have hik : i ∈ g.dependencies k := (wf.mem_dependents k i).1 hk
  have hkn : k < g.fileCount := wf.lt_of_mem_dependents hk
  have hi := hs.isReady_head hr
  have hcounter : e.remaining[k]? = some (g.missing start.emitted k) := by
    rw [h.remaining k hkn, if_neg hnew, Nat.sub_zero]
  have hleft : e.remaining[k]?.getD 0 - 1 = g.missing (i :: start.emitted) k := by
    rw [hcounter, missing_cons wf hi.2.1, if_pos hik, Option.getD_some]
  have hready : ∀ l ∈ e.ready, l < g.fileCount := by
    intro l hl
    rcases (h.mem_ready l).1 hl with ⟨hl, -⟩ | ⟨hl, -⟩
    · exact ((hs.mem_ready l).1 hl).1
    · exact wf.source_lt (h.mem_dependencies l hl)
  refine ⟨h.emitted, fun l hl => ?_, fun l hl => ?_, ?_, fun l => ?_⟩
  -- every released file depends on `i`
  · rcases List.mem_cons.1 hl with rfl | hl
    · exact hik
    · exact h.mem_dependencies l hl
  -- the counter of `k` went down by one, the others stand
  · simp only [release]
    rw [Array.getElem?_modify, h.remaining l hl]
    by_cases hkl : k = l
    · subst hkl
      rw [if_pos rfl, if_neg hnew, if_pos (List.mem_cons_self ..), Option.map_some, Nat.sub_zero]
    · have hmem : l ∈ k :: released ↔ l ∈ released := by
        rw [List.mem_cons, or_iff_right (Ne.symm hkl)]
      rw [if_neg hkl, if_congr hmem rfl rfl]
  -- `k` becomes ready if its counter is zero now
  · simp only [release, hleft]
    split
    · exact ascending_insertReady wf hkn hready h.ascending
    · exact h.ascending
  · simp only [release, hleft]
    split
    · rename_i h0
      rw [mem_insertReady, h.mem_ready, List.mem_cons]
      constructor
      · rintro (rfl | hl | ⟨hl, hl0⟩)
        · exact .inr ⟨.inl rfl, h0⟩
        · exact .inl hl
        · exact .inr ⟨.inr hl, hl0⟩
      · rintro (hl | ⟨rfl | hl, hl0⟩)
        · exact .inr (.inl hl)
        · exact .inl rfl
        · exact .inr (.inr ⟨hl, hl0⟩)
    · rename_i h0
      rw [h.mem_ready, List.mem_cons]
      constructor
      · rintro (hl | ⟨hl, hl0⟩)
        · exact .inl hl
        · exact .inr ⟨.inr hl, hl0⟩
      · rintro (hl | ⟨rfl | hl, hl0⟩)
        · exact .inl hl
        · exact absurd hl0 h0
        · exact .inr ⟨hl, hl0⟩

theorem releasing_foldl (wf : g.WellFormed) (hs : start.Sound g) (hr : start.ready = i :: rest)
    {ks : List Nat} (hks : ∀ k ∈ ks, k ∈ g.dependents i) (hnodup : ks.Nodup)
    (hnew : ∀ k ∈ ks, k ∉ released) (h : g.Releasing start i released e) :
    g.Releasing start i (ks.reverse ++ released) (ks.foldl g.release e) := by
  induction ks generalizing released e with
  | nil => exact h
  | cons k ks ih =>
    obtain ⟨hk, hnodup⟩ := List.nodup_cons.1 hnodup
    rw [List.foldl_cons, List.reverse_cons, List.append_assoc, List.singleton_append]
    refine ih (fun l hl => hks l (List.mem_cons_of_mem _ hl)) hnodup (fun l hl => ?_) ?_
    · intro hmem
      rcases List.mem_cons.1 hmem with rfl | hmem
      · exact hk hl
      · exact hnew l (List.mem_cons_of_mem _ hl) hmem
    · exact releasing_release wf hs hr h (hks k (List.mem_cons_self ..))
        (hnew k (List.mem_cons_self ..))

/-- Once every dependent is released, the next file can be chosen. -/
theorem Releasing.sound (wf : g.WellFormed) (hs : start.Sound g) (hr : start.ready = i :: rest)
    (h : g.Releasing start i released e) (hall : ∀ k, k ∈ released ↔ i ∈ g.dependencies k) :
    e.Sound g := by
  have hi := hs.isReady_head hr
  refine ⟨?_, fun k hk => ?_, h.ascending, fun k => ?_⟩
  · rw [h.emitted]
    exact ⟨hi, hs.settled⟩
  · rw [h.remaining k hk, h.emitted, missing_cons wf hi.2.1, if_congr (hall k) rfl rfl]
  · rw [h.mem_ready, h.emitted, hs.mem_ready, hall, missing_eq_zero]
    constructor
    -- what is ready now was ready before or depends on `i`, and in both cases has not come yet
    · rintro (⟨⟨hk, hnew, hdeps⟩, hki⟩ | ⟨hik, hdeps⟩)
      · exact ⟨hk, fun hmem => (List.mem_cons.1 hmem).elim hki hnew,
          fun j hj => List.mem_cons_of_mem _ (hdeps j hj)⟩
      · refine ⟨wf.source_lt hik, fun hmem => ?_, hdeps⟩
        rcases List.mem_cons.1 hmem with rfl | hmem
        · exact wf.ne_of_mem k k hik rfl
        · exact hi.2.1 (hs.settled.mem_of_mem_dependencies hmem hik)
    · rintro ⟨hk, hnew, hdeps⟩
      by_cases hik : i ∈ g.dependencies k
      · exact .inr ⟨hik, hdeps⟩
      · refine .inl ⟨⟨hk, fun hmem => hnew (List.mem_cons_of_mem _ hmem), fun j hj => ?_⟩,
          fun hki => hnew (by rw [hki]; exact List.mem_cons_self ..)⟩
        exact (List.mem_cons.1 (hdeps j hj)).resolve_left fun hji => hik (hji ▸ hj)

end

/-- One step: nothing is left to choose, or the smallest ready file is emitted. -/
theorem emitNext_cases {g : FileGraph} (wf : g.WellFormed) {e : Emission} (hs : e.Sound g) :
    (e.ready = [] ∧ g.emitNext e = none) ∨
    ∃ i rest e', e.ready = i :: rest ∧ g.emitNext e = some e' ∧ e'.emitted = i :: e.emitted ∧
      e'.Sound g := by
  cases hr : e.ready with
  | nil => exact .inl ⟨rfl, by rw [emitNext, hr]⟩
  | cons i rest =>
    have hmem : ∀ k, k ∈ (g.dependents i).reverse ++ [] ↔ i ∈ g.dependencies k := by
      intro k
      rw [List.append_nil, List.mem_reverse, wf.mem_dependents]
    have h := releasing_foldl wf hs hr (fun _ hk => hk) (wf.dependents_nodup i)
      (fun _ _ => List.not_mem_nil) (releasing_start hs hr)
    exact .inr ⟨i, rest, _, rfl, by rw [emitNext, hr], h.emitted, h.sound wf hs hr hmem⟩

/-! ## The whole run -/

theorem sound_emit {g : FileGraph} (wf : g.WellFormed) {e : Emission} (hs : e.Sound g)
    (fuel : Nat) : (g.emit fuel e).Sound g := by
  induction fuel generalizing e with
  | zero => exact hs
  | succ fuel ih =>
    rcases emitNext_cases wf hs with ⟨-, hnext⟩ | ⟨i, rest, e', -, hnext, -, hs'⟩
    · rwa [emit, hnext]
    · rw [emit, hnext]
      exact ih hs'

/-- What has been emitted stays as it is. -/
theorem exists_emitted_emit {g : FileGraph} (wf : g.WellFormed) {e : Emission} (hs : e.Sound g)
    (fuel : Nat) : ∃ next : List Nat, (g.emit fuel e).emitted = next.reverse ++ e.emitted := by
  induction fuel generalizing e with
  | zero => exact ⟨[], rfl⟩
  | succ fuel ih =>
    rcases emitNext_cases wf hs with ⟨-, hnext⟩ | ⟨i, rest, e', -, hnext, hemitted, hs'⟩
    · exact ⟨[], by rw [emit, hnext]; rfl⟩
    · obtain ⟨next, hnext'⟩ := ih hs'
      refine ⟨i :: next, ?_⟩
      rw [emit, hnext]
      simp only
      rw [hnext', hemitted, List.reverse_cons, List.append_assoc, List.singleton_append]

/-- As many steps as there are files are enough. -/
theorem ready_emit {g : FileGraph} (wf : g.WellFormed) {e : Emission} (hs : e.Sound g)
    {fuel : Nat} (hfuel : g.fileCount ≤ fuel + e.emitted.length) :
    (g.emit fuel e).ready = [] := by
  induction fuel generalizing e with
  | zero =>
    rw [emit]
    cases hr : e.ready with
    | nil => rfl
    | cons i rest =>
      have hsettled : g.Settled (i :: e.emitted) := ⟨hs.isReady_head hr, hs.settled⟩
      have := hsettled.length_le
      rw [List.length_cons] at this
      omega
  | succ fuel ih =>
    rcases emitNext_cases wf hs with ⟨hr, hnext⟩ | ⟨i, rest, e', -, hnext, hemitted, hs'⟩
    · rwa [emit, hnext]
    · rw [emit, hnext]
      refine ih hs' ?_
      rw [hemitted, List.length_cons]
      omega

/-- Where the emission of a graph ends. -/
def emissionEnd (g : FileGraph) : Emission := g.emit g.fileCount g.emissionStart

theorem sound_emissionEnd {g : FileGraph} (wf : g.WellFormed) : g.emissionEnd.Sound g :=
  sound_emit wf (sound_emissionStart wf) _

theorem ready_emissionEnd {g : FileGraph} (wf : g.WellFormed) : g.emissionEnd.ready = [] :=
  ready_emit wf (sound_emissionStart wf) (Nat.le_add_right ..)

/-- Every file that was not emitted depends on another one that was not. -/
theorem exists_stuck_dependency {g : FileGraph} (wf : g.WellFormed) {i : Nat}
    (hi : i < g.fileCount) (hstuck : i ∉ g.emissionEnd.emitted) :
    ∃ j ∈ g.dependencies i, j ∉ g.emissionEnd.emitted := by
  by_contra hnone
  have hready : g.IsReady g.emissionEnd.emitted i :=
    ⟨hi, hstuck, fun j hj => by_contra fun hj' => hnone ⟨j, hj, hj'⟩⟩
  have hmem := ((sound_emissionEnd wf).mem_ready i).2 hready
  rw [ready_emissionEnd wf] at hmem
  cases hmem

/-! ## What gets emitted -/

/-- The file `a` uses a declaration of the file `b`. -/
def DependsOn (g : FileGraph) (a b : String) : Prop := g.hasEdge a b = true

/-- Following the dependencies of an emitted file always ends: they were all
    emitted before it. -/
theorem Settled.acc {g : FileGraph} (wf : g.WellFormed) {emitted : List Nat}
    (h : g.Settled emitted) {i : Nat} (hi : i ∈ emitted) :
    Acc (fun b a => g.DependsOn a b) (g.file i) := by
  induction emitted generalizing i with
  | nil => cases hi
  | cons j js ih =>
    rcases List.mem_cons.1 hi with rfl | hi
    · refine Acc.intro _ fun b hb => ?_
      obtain ⟨k, l, hkl, hk, rfl⟩ := wf.hasEdge_iff.1 hb
      have hki := wf.file_inj (wf.source_lt hkl) h.1.1 hk
      exact ih h.2 (h.1.2.2 l (hki ▸ hkl))
    · exact ih h.2 hi

/-- A file is emitted exactly if following its dependencies always ends. -/
theorem mem_emitted_iff {g : FileGraph} (wf : g.WellFormed) {i : Nat} (hi : i < g.fileCount) :
    i ∈ g.emissionEnd.emitted ↔ Acc (fun b a => g.DependsOn a b) (g.file i) := by
  refine ⟨fun hmem => (sound_emissionEnd wf).settled.acc wf hmem, fun hacc => ?_⟩
  -- by induction along the dependencies: a stuck file would have a stuck dependency
  generalize hf : g.file i = f at hacc
  induction hacc generalizing i with
  | intro f _ ih =>
    subst hf
    by_contra hstuck
    obtain ⟨j, hj, hj'⟩ := exists_stuck_dependency wf hi hstuck
    have hjn := wf.lt_of_mem i j hj
    exact hj' (ih _ ((wf.hasEdge_file hi hjn).2 hj) hjn rfl)

end FileGraph

end CrossRef
