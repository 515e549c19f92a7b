/-
  CrossRef.Proofs.Linking.Outcomes

  Usages paired with what they turn out to mean. The links of a corpus are the
  outcomes that name a declaration, and the counts are those of the outcomes,
  so the number of links is a count (`length_filterMap_link?`). Which links
  leave their file can be read off the outcome as well as off the link
  (`tells_resolve`). Where other files do not count, the outcomes are those
  with other files, less what these add (`resolve_alone`). What is reported of
  a corpus is which of its usages are ambiguous (`mem_diagnostics_ofFiles`).
-/
import CrossRef.Proofs.Linking.Resolution

namespace CrossRef

namespace Linking

/-! ## Counting outcomes -/

/-- The link that an outcome makes, if it names a declaration. -/
def link? (o : Usage × Resolution) : Option Link := o.2.declaration?.map (Link.mk o.1)

/-- Counting one more outcome. -/
theorem LinkStats.counts_cons (r : Resolution) (rs : List Resolution) :
    counts (r :: rs) = (counts rs).add r := by
  cases r <;> simp [counts, add]

/-- Every usage comes out in exactly one way. -/
theorem LinkStats.total_counts (rs : List Resolution) :
    (counts rs).total =
      (counts rs).resolved + (counts rs).ambiguous + (counts rs).unresolved := by
  induction rs with
  | nil => rfl
  | cons r rs ih =>
    rw [counts_cons]
    cases r <;> simp only [add, resolved] at ih ⊢ <;> omega

/-- There are as many links as outcomes that name a declaration. -/
theorem length_filterMap_link? (os : List (Usage × Resolution)) :
    (os.filterMap link?).length = (LinkStats.counts (os.map (·.2))).resolved := by
  induction os with
  | nil => rfl
  | cons o os ih =>
    obtain ⟨u, r⟩ := o
    rw [List.map_cons, LinkStats.counts_cons]
    cases r <;>
      simp only [link?, Resolution.declaration?, LinkStats.add, LinkStats.resolved,
        List.filterMap_cons, Option.map_some, Option.map_none, List.length_cons] at ih ⊢ <;>
      omega

/-- An outcome tells whether its link leaves the file. -/
def Tells (o : Usage × Resolution) : Prop :=
  ∀ l ∈ link? o, l.isCrossFile = (o.2 matches .crossFile _)

/-- Where outcomes tell, the links that leave their file are counted as such. -/
theorem countP_filterMap_link? {os : List (Usage × Resolution)} (h : ∀ o ∈ os, Tells o) :
    (os.filterMap link?).countP (·.isCrossFile) =
      (LinkStats.counts (os.map (·.2))).crossFile := by
  induction os with
  | nil => rfl
  | cons o os ih =>
    have ho := h o (List.mem_cons_self ..)
    have ih := ih fun o' ho' => h o' (List.mem_cons_of_mem _ ho')
    obtain ⟨u, r⟩ := o
    rw [List.map_cons, LinkStats.counts_cons]
    cases r with
    | sameFile d =>
      have hlink : link? (u, .sameFile d) = some ⟨u, d⟩ := rfl
      rw [List.filterMap_cons_some hlink, List.countP_cons, ih, ho _ hlink]
      rfl
    | crossFile d =>
      have hlink : link? (u, .crossFile d) = some ⟨u, d⟩ := rfl
      rw [List.filterMap_cons_some hlink, List.countP_cons, ih, ho _ hlink]
      rfl
    | ambiguous | unresolved =>
      rw [List.filterMap_cons_none rfl, ih]
      rfl

/-! ## Outcomes without other files -/

namespace Resolution

/-- What remains of a resolution when other files do not count. -/
def alone : Resolution → Resolution
  | sameFile d => sameFile d
  | crossFile _ | ambiguous _ | unresolved => unresolved

/-- Candidates are offered by other files. -/
theorem alone_ofCandidates (cs : List Candidate) : (ofCandidates cs).alone = unresolved := by
  unfold ofCandidates
  split <;> rfl

end Resolution

/-- Without other files a usage means what is left of its meaning with them. -/
theorem resolve_alone (index : List Exports) (f : AnalyzedFile) (u : Usage) :
    resolve index false f u = (resolve index true f u).alone := by
  unfold resolve
  split
  · rfl
  · exact (Resolution.alone_ofCandidates _).symm

namespace LinkStats

/-- The counts when other files do not count. -/
def alone (s : LinkStats) : LinkStats :=
  ⟨s.total, s.sameFile, 0, 0, s.unresolved + s.ambiguous + s.crossFile⟩

theorem counts_alone (rs : List Resolution) :
    counts (rs.map Resolution.alone) = (counts rs).alone := by
  induction rs with
  | nil => rfl
  | cons r rs ih =>
    rw [List.map_cons, counts_cons, counts_cons, ih]
    cases r <;> simp only [add, alone, Resolution.alone, LinkStats.mk.injEq, true_and] <;> omega

end LinkStats

/-- An outcome that tells makes a link without other files exactly if it makes
    one that stays in its file. -/
theorem link?_alone {o : Usage × Resolution} (h : Tells o) :
    link? (o.1, o.2.alone) = (link? o).filter fun l => !l.isCrossFile := by
  obtain ⟨u, r⟩ := o
  cases r with
  | sameFile d =>
    have hstays : (Link.mk u d).isCrossFile = false := h _ rfl
    exact (Option.filter_some_pos (by rw [hstays]; rfl)).symm
  | crossFile d =>
    have hleaves : (Link.mk u d).isCrossFile = true := h _ rfl
    exact (Option.filter_some_neg (by rw [hleaves]; rfl)).symm
  | ambiguous | unresolved => rfl

/-- Where outcomes tell, those without other files make the links that stay in their file. -/
theorem filterMap_link?_alone {os : List (Usage × Resolution)} (h : ∀ o ∈ os, Tells o) :
    (os.map fun o => (o.1, o.2.alone)).filterMap link? =
      (os.filterMap link?).filter fun l => !l.isCrossFile := by
  rw [List.filterMap_map, List.filter_filterMap]
  exact List.filterMap_congr fun o ho => link?_alone (h o ho)

/-! ## Outcomes of a corpus -/

variable {files : List AnalyzedFile} {acrossFiles : Bool} {f : AnalyzedFile} {u : Usage}

/-- A link leaves its file exactly if the scopes of the file do not bind the name. -/
theorem tells_resolve (hids : (files.map (·.file)).Nodup)
    (htables : ∀ g ∈ files, g.analysis.LastWins) (howned : ∀ g ∈ files, g.analysis.OwnedBy g.file)
    (hf : f ∈ files) (hu : u ∈ f.analysis.usages) :
    Tells (u, resolve (exports files) acrossFiles f u) := by
  have hmeans : Means files acrossFiles f u (resolve (exports files) acrossFiles f u) :=
    means_resolve hids htables hf u
  have husage : u.file = f.file := (howned f hf).usage u hu
  generalize resolve (exports files) acrossFiles f u = r at hmeans
  intro l hl
  cases hmeans with
  | sameFile _ hi =>
    have hd := (howned f hf).declaration _ (Array.mem_of_getElem? hi)
    cases hl
    rw [Link.isCrossFile, husage, hd]
    exact bne_self_eq_false f.file
  | crossFile _ _ hg hdeclaring _ hlast =>
    obtain ⟨i, -, hi⟩ := hlast
    have hd := (howned _ hg).declaration _ (Array.mem_of_getElem? hi)
    -- the declaring files do not include the file of the usage
    have hmem : _ ∈ declaring files u.identifier f.file := hdeclaring ▸ Set.mem_singleton _
    cases hl
    rw [Link.isCrossFile, husage, hd]
    exact bne_iff_ne.2 (Ne.symm hmem.1)
  | alone | ambiguous | unresolved => cases hl

/-- The usages of all files with what they turn out to mean. -/
def outcomes (files : List AnalyzedFile) (acrossFiles : Bool) : List (Usage × Resolution) :=
  files.flatMap fun f => f.analysis.usages.map fun u => (u, resolve (exports files) acrossFiles f u)

theorem map_snd_outcomes (files : List AnalyzedFile) (acrossFiles : Bool) :
    (outcomes files acrossFiles).map (·.2) = resolutions files acrossFiles := by
  rw [outcomes, resolutions, List.map_flatMap]
  simp only [List.map_map, Function.comp_def]

theorem tells_of_mem_outcomes (hids : (files.map (·.file)).Nodup)
    (htables : ∀ g ∈ files, g.analysis.LastWins) (howned : ∀ g ∈ files, g.analysis.OwnedBy g.file)
    {o : Usage × Resolution} (ho : o ∈ outcomes files acrossFiles) : Tells o := by
  obtain ⟨f, hf, ho⟩ := List.mem_flatMap.1 ho
  obtain ⟨u, hu, rfl⟩ := List.mem_map.1 ho
  exact tells_resolve hids htables howned hf hu

/-! ## Ambiguous names -/

theorem Resolution.ofCandidates_eq_ambiguous {xs cs : List Candidate}
    (h : ofCandidates xs = .ambiguous cs) : xs = cs ∧ 2 ≤ xs.length := by
  unfold ofCandidates at h
  split at h
  · cases h
  · cases h
  · cases h
  · rename_i hdeclared hnil hpassedOn
    cases h
    match xs with
    | [] => exact absurd rfl hnil
    | [.declared d] => exact absurd rfl (hdeclared d)
    | [.passedOn b] => exact absurd rfl (hpassedOn b)
    | _ :: _ :: _ => exact ⟨rfl, by simp⟩

/-- A usage is ambiguous if several other files offer its name, and these are shown. -/
theorem resolve_eq_ambiguous {index : List Exports} {cs : List Candidate}
    (h : resolve index acrossFiles f u = .ambiguous cs) :
    acrossFiles = true ∧ candidates index u.identifier f.file = cs ∧ 2 ≤ cs.length := by
  unfold resolve at h
  split at h
  · cases h
  · split at h
    · obtain ⟨rfl, hlen⟩ := Resolution.ofCandidates_eq_ambiguous h
      exact ⟨‹_›, rfl, hlen⟩
    · cases h

/-- Where a name is ambiguous in one way only, it is shown with its candidates. -/
theorem LinkedFile.mem_ambiguities {e : LinkedFile} (offered : String → List Candidate)
    (h : ∀ u cs, (u, .ambiguous cs) ∈ e.outcomes → offered u.identifier = cs) {name : String}
    {cs : List Candidate} :
    (name, cs) ∈ e.ambiguities ↔ ∃ u, u.identifier = name ∧ (u, .ambiguous cs) ∈ e.outcomes := by
  obtain ⟨as, has, hmem⟩ : ∃ as : List (String × List Candidate),
      e.ambiguities = Keyed.firsts (·.1) as ∧
        ∀ p, p ∈ as ↔ ∃ u, u.identifier = p.1 ∧ (u, .ambiguous p.2) ∈ e.outcomes := by
    refine ⟨_, rfl, ?_⟩
    rintro ⟨name, cs⟩
    rw [List.mem_filterMap]
    constructor
    · rintro ⟨⟨u, r⟩, ho, hr⟩
      cases r with
      | ambiguous cs' =>
        cases hr
        exact ⟨u, rfl, ho⟩
      | sameFile | crossFile | unresolved => cases hr
    · rintro ⟨u, rfl, ho⟩
      exact ⟨_, ho, rfl⟩
  rw [has]
  constructor
  · exact fun hp => (hmem _).1 (Keyed.firsts_subset _ _ hp)
  · rintro ⟨u, rfl, ho⟩
    -- what is shown under the name has the same candidates
    obtain ⟨⟨name', cs'⟩, hfirst, hname⟩ := Keyed.exists_mem_firsts (·.1)
      ((hmem (u.identifier, cs)).2 ⟨u, rfl, ho⟩)
    obtain ⟨u', hu', ho'⟩ := (hmem _).1 (Keyed.firsts_subset _ _ hfirst)
    have hcs : cs = cs' := by
      rw [← h u cs ho, ← h u' cs' ho', hu', hname]
    obtain rfl : name' = u.identifier := hname
    rwa [hcs]

/-- What is reported of a corpus is which of its usages are ambiguous. -/
theorem mem_diagnostics_ofFiles {d : Diagnostic} :
    d ∈ (LinkSet.ofFiles files acrossFiles).diagnostics ↔
      ∃ f ∈ files, ∃ u ∈ f.analysis.usages, ∃ cs : List Candidate,
        resolve (exports files) acrossFiles f u = .ambiguous cs ∧
          d = .ambiguousReference f.file u.identifier (cs.map (·.label)) := by
  rw [LinkSet.diagnostics, LinkSet.ofFiles, List.mem_flatMap]
  simp only [List.mem_map, Keyed.mem_sort, exists_exists_and_eq_and]
  refine exists_congr fun f => and_congr_right fun _ => ?_
  have houtcomes : ∀ u r, (u, r) ∈ f.analysis.usages.map
      (fun u => (u, resolve (exports files) acrossFiles f u)) ↔
        u ∈ f.analysis.usages ∧ resolve (exports files) acrossFiles f u = r := by
    intro u r
    rw [List.mem_map]
    constructor
    · rintro ⟨u, hu, heq⟩
      cases heq
      exact ⟨hu, rfl⟩
    · rintro ⟨hu, rfl⟩
      exact ⟨u, hu, rfl⟩
  have hambiguities : ∀ name cs, (name, cs) ∈ (LinkedFile.mk f.file (f.analysis.usages.map
      fun u => (u, resolve (exports files) acrossFiles f u))).ambiguities ↔
        ∃ u, u.identifier = name ∧ u ∈ f.analysis.usages ∧
          resolve (exports files) acrossFiles f u = .ambiguous cs := by
    intro name cs
    rw [LinkedFile.mem_ambiguities fun name => candidates (exports files) name f.file]
    · simp only [houtcomes]
    · exact fun u cs ho => (resolve_eq_ambiguous ((houtcomes _ _).1 ho).2).2.1
  rw [LinkedFile.diagnostics, List.mem_map]
  constructor
  · rintro ⟨⟨name, cs⟩, hp, rfl⟩
    obtain ⟨u, rfl, hu, hr⟩ := (hambiguities _ _).1 hp
    exact ⟨u, hu, cs, hr, rfl⟩
  · rintro ⟨u, hu, cs, hr, rfl⟩
    exact ⟨_, (hambiguities _ _).2 ⟨u, rfl, hu, hr⟩, rfl⟩

end Linking

end CrossRef
