/-
  CrossRef.Proofs.Ordering.Counters

  The emission turn by turn, as a loop that only stops when no file is ready
  (`emission_counts`). Before every turn the counter of a file says how many of
  its dependencies have not been emitted, and the ready files are those at zero
  that have not been emitted themselves. Within a turn one counter after the
  other goes down, each of them from a positive number, and no emitted file
  becomes ready again.

  The turns are not bounded here. That there are no more of them than files
  follows from what they do: each emits a file, and none is emitted twice.
-/
import CrossRef.Proofs.Ordering.Emission

namespace CrossRef

namespace FileGraph

/-! ## Turns -/

/-- The emission comes to this state after that many turns. -/
inductive Reaches (g : FileGraph) : Nat → Emission → Prop where
  | start : Reaches g 0 g.emissionStart
  | turn {n : Nat} {e e' : Emission} :
      Reaches g n e → g.emitNext e = some e' → Reaches g (n + 1) e'

/-- The state within a turn that emits `i`, when only some of its dependents
    have been released. -/
def amidTurn (g : FileGraph) (e : Emission) (i : Nat) (rest released : List Nat) : Emission :=
  released.foldl g.release { e with ready := rest, emitted := i :: e.emitted }

variable {g : FileGraph} {e e' : Emission} {n i k : Nat} {rest : List Nat}

theorem emitNext_of_ready (hr : e.ready = i :: rest) :
    g.emitNext e = some (g.amidTurn e i rest (g.dependents i)) := by
  rw [emitNext, hr]
  rfl

theorem emitNext_eq_none_iff : g.emitNext e = none ↔ e.ready = [] := by
  cases hr : e.ready with
  | nil => simp [emitNext, hr]
  | cons i rest => simp [emitNext_of_ready hr]

/-- Every turn emits one file and leaves a sound state. -/
theorem Reaches.sound (wf : g.WellFormed) (h : g.Reaches n e) :
    e.Sound g ∧ e.emitted.length = n := by
  induction h with
  | start => exact ⟨sound_emissionStart wf, rfl⟩
  | @turn n e e' _ hnext ih =>
    obtain ⟨hs, hlen⟩ := ih
    rcases emitNext_cases wf hs with ⟨-, hnone⟩ | ⟨i, rest, e'', -, hsome, hemitted, hs'⟩
    · rw [hnone] at hnext
      cases hnext
    · obtain rfl : e'' = e' := Option.some.inj (hsome.symm.trans hnext)
      refine ⟨hs', ?_⟩
      rw [hemitted, List.length_cons, hlen]

/-- So many turns are made by the bounded loop, unless it runs out of ready files. -/
theorem exists_reaches_emit (h : g.Reaches n e) (fuel : Nat) :
    ∃ m, m ≤ n + fuel ∧ g.Reaches m (g.emit fuel e) := by
  induction fuel generalizing n e with
  | zero => exact ⟨n, by omega, h⟩
  | succ fuel ih =>
    rw [emit]
    cases hnext : g.emitNext e with
    | none => exact ⟨n, by omega, h⟩
    | some e' =>
      obtain ⟨m, hm, hreach⟩ := ih (h.turn hnext)
      exact ⟨m, by omega, hreach⟩

/-! ## Between turns -/

/-- What the counters and the ready files say between two turns. -/
structure Emission.Counts (g : FileGraph) (e : Emission) : Prop where
  counter : ∀ i, i < g.fileCount →
    e.remaining[i]? = some ((g.dependencies i).countP fun j => decide (j ∉ e.emitted))
  mem_ready : ∀ i, i ∈ e.ready ↔
    i < g.fileCount ∧ i ∉ e.emitted ∧ e.remaining[i]? = some 0
  ready_nodup : e.ready.Nodup
  emitted_lt : ∀ i ∈ e.emitted, i < g.fileCount
  emitted_nodup : e.emitted.Nodup

theorem Emission.Sound.counts (hs : e.Sound g) : e.Counts g where
  counter := hs.remaining
  mem_ready := by
    intro i
    rw [hs.mem_ready]
    constructor
    · rintro ⟨hi, hnew, hdeps⟩
      exact ⟨hi, hnew, by rw [hs.remaining i hi, missing_eq_zero.2 hdeps]⟩
    · rintro ⟨hi, hnew, hzero⟩
      rw [hs.remaining i hi] at hzero
      exact ⟨hi, hnew, missing_eq_zero.1 (Option.some.inj hzero)⟩
  ready_nodup := hs.ascending.nodup_keys.of_map g.file
  emitted_lt := fun _ hi => hs.settled.lt hi
  emitted_nodup := hs.settled.nodup

/-! ## Within a turn -/

/-- What is safe about a turn that emits `i`: every dependent is one of the files
    and has a counter, which is positive before it is taken down by one; and
    whatever is ready at some point of the turn has not been emitted by then. -/
structure SafeTurn (g : FileGraph) (e : Emission) (i : Nat) (rest : List Nat) : Prop where
  chosen : i < g.fileCount ∧ i ∉ e.emitted
  dependents_lt : ∀ k ∈ g.dependents i, k < g.fileCount
  positive : ∀ before k after, g.dependents i = before ++ k :: after →
    ∃ c, (g.amidTurn e i rest before).remaining[k]? = some (c + 1) ∧
      (g.amidTurn e i rest (before ++ [k])).remaining[k]? = some c
  ready_new : ∀ before after, g.dependents i = before ++ after →
    ∀ k ∈ (g.amidTurn e i rest before).ready,
      k < g.fileCount ∧ k ∉ (g.amidTurn e i rest before).emitted

/-- Some of the dependents have been released, and no other file. -/
theorem releasing_amidTurn (wf : g.WellFormed) (hs : e.Sound g) (hr : e.ready = i :: rest)
    {before after : List Nat} (hsplit : g.dependents i = before ++ after) :
    g.Releasing e i before.reverse (g.amidTurn e i rest before) := by
  have hsub : before.Sublist (g.dependents i) := hsplit ▸ List.sublist_append_left before after
  have h := releasing_foldl wf hs hr (fun k hk => hsub.subset hk)
    (hsub.nodup (wf.dependents_nodup i)) (fun _ _ => List.not_mem_nil) (releasing_start hs hr)
  rwa [List.append_nil] at h

theorem missing_pos (hi : i ∈ g.dependencies k) (hnew : i ∉ e.emitted) :
    0 < g.missing e.emitted k :=
  List.countP_pos_iff.2 ⟨i, hi, decide_eq_true hnew⟩

theorem Releasing.not_mem_emitted (wf : g.WellFormed) (hs : e.Sound g) (hr : e.ready = i :: rest)
    {released : List Nat} (h : g.Releasing e i released e') (hk : k ∈ e'.ready) :
    k < g.fileCount ∧ k ∉ e'.emitted := by
  have hi := hs.isReady_head hr
  rw [h.emitted, List.mem_cons, not_or]
  rcases (h.mem_ready k).1 hk with ⟨hready, hne⟩ | ⟨hreleased, -⟩
  · -- it was ready before the turn and is not the file of the turn
    obtain ⟨hlt, hnew, -⟩ := (hs.mem_ready k).1 hready
    exact ⟨hlt, hne, hnew⟩
  · -- it depends on the file of the turn, so its turn has not come
    have hik : i ∈ g.dependencies k := h.mem_dependencies k hreleased
    refine ⟨wf.source_lt hik, wf.ne_of_mem k i hik, fun hemitted => ?_⟩
    exact hi.2.1 (hs.settled.mem_of_mem_dependencies hemitted hik)

theorem Emission.Sound.safeTurn (wf : g.WellFormed) (hs : e.Sound g) (hr : e.ready = i :: rest) :
    g.SafeTurn e i rest where
  chosen := ⟨(hs.isReady_head hr).1, (hs.isReady_head hr).2.1⟩
  dependents_lt := fun _ hk => wf.lt_of_mem_dependents hk
  positive := by
    intro before k after hsplit
    have hk : k ∈ g.dependents i := by simp [hsplit]
    have hlt : k < g.fileCount := wf.lt_of_mem_dependents hk
    have hpos : 0 < g.missing e.emitted k :=
      missing_pos ((wf.mem_dependents k i).1 hk) (hs.isReady_head hr).2.1
    have hnodup : (before ++ k :: after).Nodup := hsplit ▸ wf.dependents_nodup i
    have hfresh : k ∉ before := fun hmem =>
      (List.nodup_append.1 hnodup).2.2 k hmem k List.mem_cons_self rfl
    -- not released before this point, released behind it
    have hbefore := (releasing_amidTurn wf hs hr hsplit).remaining k hlt
    have hsplit' : g.dependents i = (before ++ [k]) ++ after := by rw [hsplit]; simp
    have hbehind := (releasing_amidTurn wf hs hr hsplit').remaining k hlt
    rw [if_neg (by simpa using hfresh)] at hbefore
    rw [if_pos (by simp)] at hbehind
    refine ⟨g.missing e.emitted k - 1, ?_, hbehind⟩
    rw [hbefore]
    congr 1
    omega
  ready_new := fun _ _ hsplit _ hk =>
    (releasing_amidTurn wf hs hr hsplit).not_mem_emitted wf hs hr hk

/-! ## All turns -/

/-- When nothing is ready, what is left waits for something that is left. -/
theorem Emission.Sound.exists_left (hs : e.Sound g) (hr : e.ready = []) (hi : i < g.fileCount)
    (hleft : i ∉ e.emitted) : ∃ j ∈ g.dependencies i, j ∉ e.emitted := by
  by_contra hnone
  have hready : i ∈ e.ready := by
    apply (hs.mem_ready i).2
    exact ⟨hi, hleft, fun j hj => by_contra fun hj' => hnone ⟨j, hj, hj'⟩⟩
  rw [hr] at hready
  cases hready

/-- **The counters of the emission.** In every graph each file has its rows, and
    before each turn the counters are exact and the ready files are the files at zero that
    are left; the turn itself takes down positive counters only, and no emitted
    file becomes ready. A state is come to in as many turns as files have been
    emitted, so in no more than there are. The emission does end, with no file
    ready; then every file that is left has a dependency that is left. -/
theorem emission_counts (steps : List Step) :
    let g := ofSteps steps
    g.dependencyRows.size = g.fileCount ∧ g.dependentRows.size = g.fileCount ∧
    (∀ n e, g.Reaches n e →
      n = e.emitted.length ∧ n ≤ g.fileCount ∧ e.Counts g ∧
      (∀ i rest, e.ready = i :: rest → g.SafeTurn e i rest) ∧
      (e.ready = [] → ∀ i, i < g.fileCount → i ∉ e.emitted →
        ∃ j ∈ g.dependencies i, j ∉ e.emitted)) ∧
    ∃ n, n ≤ g.fileCount ∧ g.Reaches n (g.emit g.fileCount g.emissionStart) ∧
      g.emitNext (g.emit g.fileCount g.emissionStart) = none := by
  intro g
  have wf : g.WellFormed := wellFormed_ofSteps steps
  refine ⟨wf.dependencyRows_size, wf.dependentRows_size, ?_, ?_⟩
  · intro n e h
    obtain ⟨hs, hlen⟩ := h.sound wf
    have hle : n ≤ g.fileCount := hlen ▸ hs.settled.length_le
    exact ⟨hlen.symm, hle, hs.counts, fun i rest hr => hs.safeTurn wf hr,
      fun hr i hi hleft => hs.exists_left hr hi hleft⟩
  · obtain ⟨n, hn, hreach⟩ := exists_reaches_emit (Reaches.start (g := g)) g.fileCount
    refine ⟨n, by omega, hreach, ?_⟩
    apply emitNext_eq_none_iff.2
    exact ready_emissionEnd wf

end FileGraph

end CrossRef
