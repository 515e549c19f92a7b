/-
  CrossRef.Proofs.Ordering.Isolated

  A graph with one more file that nothing depends on and that depends on
  nothing. Taking the file out of an order of the larger graph gives the order
  of the smaller one, and a cycle is the same in both (`order_eq`).

  For the emission this is not followed step by step. The file may come
  anywhere in an order with dependencies first, so what is least for one graph
  is least for the other once the file is put in, or taken out, at the place
  where the emission of the larger graph has it (`lexLE_of_insert`).
-/
import CrossRef.Proofs.Ordering.Agreement

namespace CrossRef

namespace FileGraph

/-! ## Orders with a file put in or taken out -/

theorem Precedes.filter {order : List String} {a b f : String} (h : Precedes order a b)
    (ha : a ≠ f) (hb : b ≠ f) : Precedes (order.filter (· != f)) a b := by
  obtain ⟨xs, ys, rfl, hmem⟩ := h
  refine ⟨xs.filter (· != f), ys.filter (· != f), ?_, List.mem_filter.2 ⟨hmem, bne_iff_ne.2 ha⟩⟩
  have hkeep : (b != f) = true := bne_iff_ne.2 hb
  rw [List.filter_append, List.filter_cons, if_pos hkeep]

theorem Precedes.insert {us vs : List String} {a b : String} (h : Precedes (us ++ vs) a b)
    (f : String) : Precedes (us ++ f :: vs) a b := by
  obtain ⟨xs, ys, heq, hmem⟩ := h
  rcases List.append_eq_append_iff.1 heq with ⟨ws, rfl, rfl⟩ | ⟨ws, rfl, hws⟩
  · -- both stand behind the place, or `a` in front of it
    refine ⟨us ++ f :: ws, ys, by rw [List.append_assoc, List.cons_append], ?_⟩
    rcases List.mem_append.1 hmem with hmem | hmem
    · exact List.mem_append_left _ hmem
    · exact List.mem_append_right _ (List.mem_cons_of_mem f hmem)
  · cases ws with
    | nil =>
      rw [List.nil_append] at hws
      refine ⟨xs ++ [f], ys, ?_, List.mem_append_left _ hmem⟩
      rw [← hws, List.append_nil, List.append_assoc]
      rfl
    | cons w ws =>
      obtain ⟨rfl, rfl⟩ := List.cons.inj hws
      exact ⟨xs, ws ++ f :: vs, by rw [List.append_assoc, List.cons_append], hmem⟩

/-- The same file at the same place does not decide which order is smaller. -/
theorem lexLE_of_insert {xs ys us vs : List String} {f : String} (hlen : xs.length = us.length)
    (h : LexLE (xs ++ f :: ys) (us ++ f :: vs)) : LexLE (xs ++ ys) (us ++ vs) := by
  induction xs generalizing us with
  | nil =>
    cases us with
    | cons u us => cases hlen
    | nil =>
      rcases h with heq | hlex
      · exact .inl (List.cons.inj heq).2
      · rcases hlex with _ | hlt | hlex
        · exact absurd hlt (String.lt_irrefl f)
        · exact .inr hlex
  | cons x xs ih =>
    cases us with
    | nil => cases hlen
    | cons u us =>
      have htail : xs.length = us.length := Nat.succ.inj hlen
      rcases h with heq | hlex
      · obtain ⟨hhead, heq⟩ := List.cons.inj heq
        rw [hhead]
        exact (ih htail (.inl heq)).cons u
      · rcases hlex with _ | hlt | hlex
        · exact .inr (.rel hlt)
        · exact (ih htail (.inr hlex)).cons x

/-! ## Graphs -/

/-- The second graph is the first with one more file, which has no edges. -/
structure AddsIsolated (g h : FileGraph) (f : String) : Prop where
  hasFile : h.HasFile f
  files : h.files.toList.filter (· != f) = g.files.toList
  dependsOn : g.DependsOn = h.DependsOn

namespace AddsIsolated

variable {g h : FileGraph} {f : String} (adds : g.AddsIsolated h f)
variable (wfg : g.WellFormed) (wfh : h.WellFormed)

include adds

theorem not_mem : f ∉ g.files.toList := by
  rw [← adds.files, List.mem_filter]
  rintro ⟨-, hne⟩
  exact bne_iff_ne.1 hne rfl

theorem cyclic_iff : g.Cyclic ↔ h.Cyclic := by
  rw [Cyclic, Cyclic, adds.dependsOn]

include wfg in
/-- The new file is at no end of an edge. -/
theorem ne_of_dependsOn {a b : String} (hab : h.DependsOn a b) : a ≠ f ∧ b ≠ f := by
  rw [← adds.dependsOn] at hab
  obtain ⟨i, j, hij, rfl, rfl⟩ := wfg.hasEdge_iff.1 hab
  constructor
  · rintro rfl
    exact adds.not_mem (hasFile_file (wfg.source_lt hij))
  · rintro rfl
    exact adds.not_mem (hasFile_file (wfg.lt_of_mem i j hij))

include wfh in
theorem files_perm : h.files.toList.Perm (f :: g.files.toList) := by
  have hperm := List.perm_cons_erase adds.hasFile
  rwa [wfh.files_nodup.erase_eq_filter, adds.files] at hperm

include wfg in
/-- Without the new file an order for the larger graph is one for the smaller. -/
theorem isTopological_filter {order : List String} (ho : h.IsTopological order) :
    g.IsTopological (order.filter (· != f)) where
  perm := adds.files ▸ ho.perm.filter _
  precedes := by
    intro a b hab
    rw [adds.dependsOn] at hab
    obtain ⟨ha, hb⟩ := adds.ne_of_dependsOn wfg hab
    exact (ho.precedes a b hab).filter hb ha

include wfh in
/-- The new file may come anywhere. -/
theorem isTopological_insert {us vs : List String} (ho : g.IsTopological (us ++ vs)) :
    h.IsTopological (us ++ f :: vs) where
  perm := List.perm_middle.trans ((ho.perm.cons f).trans (adds.files_perm wfh).symm)
  precedes := by
    intro a b hab
    rw [← adds.dependsOn] at hab
    exact (ho.precedes a b hab).insert f

include wfg wfh

/-- Both graphs emit the old files in the same order. -/
theorem filter_emittedFiles (hg : g.emissionEnd.emitted.length = g.fileCount)
    (hh : h.emissionEnd.emitted.length = h.fileCount) :
    h.emittedFiles.filter (· != f) = g.emittedFiles := by
  have htop := isTopological_emittedFiles wfg hg
  have htop' := isTopological_emittedFiles wfh hh
  have hsmall := adds.isTopological_filter wfg htop'
  refine LexLE.antisymm ?_ (lexLE_emittedFiles wfg hsmall)
  obtain ⟨xs, ys, heq⟩ := List.append_of_mem (htop'.perm.mem_iff.2 adds.hasFile)
  have hnodup := htop'.nodup wfh
  have hfilter : h.emittedFiles.filter (· != f) = xs ++ ys := by
    rw [← hnodup.erase_eq_filter, heq]
    rw [heq] at hnodup
    have hxs : f ∉ xs := fun hmem =>
      (List.nodup_append.1 hnodup).2.2 f hmem f List.mem_cons_self rfl
    rw [List.erase_append_right _ hxs, List.erase_cons_head]
  rw [hfilter] at hsmall ⊢
  -- the file goes into the order of the smaller graph where the larger graph has it
  have hlen : (xs ++ ys).length = g.emittedFiles.length :=
    (hsmall.perm.trans htop.perm.symm).length_eq
  rw [← List.take_append_drop xs.length g.emittedFiles] at htop
  have hle := lexLE_emittedFiles wfh (adds.isTopological_insert wfh htop)
  rw [heq] at hle
  rw [← List.take_append_drop xs.length g.emittedFiles]
  refine lexLE_of_insert ?_ hle
  rw [List.length_take, ← hlen, List.length_append]
  omega

theorem filter_sortedFiles : h.sortedFiles.filter (· != f) = g.sortedFiles := by
  obtain ⟨hperm, hascending⟩ := sortedFiles_spec wfg
  obtain ⟨hperm', hascending'⟩ := sortedFiles_spec wfh
  have hfiltered : Keyed.Ascending id (h.sortedFiles.filter (· != f)) := hascending'.filter _
  refine hfiltered.ext hascending fun a => ?_
  rw [(hperm'.filter _).mem_iff, adds.files, hperm.mem_iff]

/-- In every mode both graphs present the old files in the same order, follow
    the same mode, and show the same cycle. -/
theorem order_eq (mode : OrderMode) :
    (h.order mode).1.files.filter (· != f) = (g.order mode).1.files ∧
      (h.order mode).1.requested = (g.order mode).1.requested ∧
      (h.order mode).1.applied = (g.order mode).1.applied ∧
      (h.order mode).2 = (g.order mode).2 := by
  by_cases huse : mode.usesGraph = true
  · rcases order_cases wfg huse with ⟨hacyclic, hlen, hg⟩ | ⟨walk, hcyclic, -, rfl, hg⟩
    · rcases order_cases wfh huse with ⟨-, hlen', hh⟩ | ⟨walk', hcyclic', -⟩
      · rw [hg, hh]
        refine ⟨?_, rfl, rfl, rfl⟩
        have hfilter := adds.filter_emittedFiles wfg wfh hlen hlen'
        simp only
        split
        · rw [List.filter_reverse, hfilter]
        · exact hfilter
      · exact absurd (adds.cyclic_iff.2 hcyclic') hacyclic
    · rcases order_cases wfh huse with ⟨hacyclic', -⟩ | ⟨walk', -, -, rfl, hh⟩
      · exact absurd (adds.cyclic_iff.1 hcyclic) hacyclic'
      · rw [hg, hh, map_findCycle_eq adds.dependsOn wfg wfh]
        exact ⟨adds.filter_sortedFiles wfg wfh, rfl, rfl, rfl⟩
  · cases mode with
    | none => exact ⟨adds.files, rfl, rfl, rfl⟩
    | lexicographic => exact ⟨adds.filter_sortedFiles wfg wfh, rfl, rfl, rfl⟩
    | dependency | dependencyRev => exact absurd rfl huse

end AddsIsolated

end FileGraph

end CrossRef
