/-
  CrossRef.Proofs.Linking.Unread

  A corpus with one more file, which nothing reads and no import can mean. The
  imports among the other files lead where they did, so the files pass on the
  same names and offer the same candidates, in the same order, and every usage
  means what it did (`resolve_eq`). The new file has no usages itself, so it
  adds no link, no diagnostic and no count.
-/
import CrossRef.Proofs.Linking.ModulePath
import CrossRef.Proofs.Linking.Resolution

namespace CrossRef

namespace Linking

/-- The second corpus is the first with one more file, wherever it stands.
    Nothing is known of the file but that it is there. -/
structure AddsUnread (files files' : List AnalyzedFile) (e : AnalyzedFile) : Prop where
  ids : (files'.map (·.file)).Nodup
  mem : e ∈ files'
  others : files'.filter (·.file != e.file) = files
  analysis : e.analysis = .empty
  unmeant : ∀ f ∈ files', ∀ w ∈ f.analysis.scopes.wildcards, ¬ LeadsTo f.file w e.file

/-- What gives nothing may be left out. -/
theorem flatMap_filter_of_nil {α β : Type} {p : α → Bool} {g : α → List β} {as : List α}
    (h : ∀ a ∈ as, p a = false → g a = []) : (as.filter p).flatMap g = as.flatMap g := by
  induction as with
  | nil => rfl
  | cons a as ih =>
    obtain ⟨ha, has⟩ := List.forall_mem_cons.1 h
    cases hp : p a with
    | true => rw [List.filter_cons_of_pos hp, List.flatMap_cons, List.flatMap_cons, ih has]
    | false =>
      rw [List.filter_cons_of_neg (Bool.eq_false_iff.1 hp), List.flatMap_cons, ha hp, ih has,
        List.nil_append]

namespace AddsUnread

variable {files files' : List AnalyzedFile} {e f : AnalyzedFile} {name : String}
variable (adds : AddsUnread files files' e)
include adds

/-! ## Files -/

theorem mem_iff : f ∈ files ↔ f ∈ files' ∧ f.file ≠ e.file := by
  rw [← adds.others, List.mem_filter, bne_iff_ne]

theorem mem_of_mem (hf : f ∈ files) : f ∈ files' := (adds.mem_iff.1 hf).1

theorem eq_or_mem (hf : f ∈ files') : f = e ∨ f ∈ files := by
  by_cases hfile : f.file = e.file
  · exact .inl (Keyed.eq_of_key_eq adds.ids hf adds.mem hfile)
  · exact .inr (adds.mem_iff.2 ⟨hf, hfile⟩)

theorem nodup_ids : (files.map (·.file)).Nodup := by
  rw [← adds.others]
  exact (List.filter_sublist.map fun g : AnalyzedFile => g.file).nodup adds.ids

theorem map_file : (files'.map (·.file)).filter (· != e.file) = files.map (·.file) := by
  rw [← adds.others, List.filter_map]
  rfl

theorem fileIds_eq : (fileIds files').filter (· != e.file) = fileIds files := by
  have hasc : Keyed.Ascending id ((fileIds files').filter (· != e.file)) :=
    (Keyed.ascending_sort (by rw [List.map_id]; exact adds.ids)).filter _
  have hasc' : Keyed.Ascending id (fileIds files) :=
    Keyed.ascending_sort (by rw [List.map_id]; exact adds.nodup_ids)
  refine hasc.ext hasc' fun a => ?_
  rw [fileIds, fileIds, Keyed.mem_sort, ← adds.map_file, List.mem_filter, List.mem_filter,
    Keyed.mem_sort]

theorem corpus_eq : (corpus files').filter (·.file != e.file) = corpus files := by
  have hasc : Keyed.Ascending (·.file) ((corpus files').filter (·.file != e.file)) :=
    (Keyed.ascending_sort adds.ids).filter _
  refine hasc.ext (Keyed.ascending_sort adds.nodup_ids) fun a => ?_
  rw [corpus, corpus, Keyed.mem_sort, ← adds.others, List.mem_filter, List.mem_filter,
    Keyed.mem_sort]

/-- What the new file gives nothing for is the same in both, file by file. -/
theorem flatMap_eq {β : Type} {g g' : AnalyzedFile → List β} {as as' : List AnalyzedFile}
    (has' : ∀ f ∈ as', f ∈ files') (has : as'.filter (·.file != e.file) = as)
    (hnil : g' e = []) (hg : ∀ f ∈ files, g' f = g f) : as'.flatMap g' = as.flatMap g := by
  have hnew : ∀ f ∈ as', (f.file != e.file) = false → g' f = [] := by
    intro f hf hfile
    rw [Keyed.eq_of_key_eq adds.ids (has' f hf) adds.mem (bne_eq_false_iff_eq.1 hfile), hnil]
  rw [← flatMap_filter_of_nil hnew, has]
  refine List.flatMap_congr fun f hf => hg f ?_
  rw [← has, List.mem_filter] at hf
  exact adds.mem_iff.2 ⟨has' f hf.1, bne_iff_ne.1 hf.2⟩

/-! ## Imports -/

/-- The imports lead to the same files. -/
theorem importsAll_iff {a b : String} : ImportsAll files' a b ↔ ImportsAll files a b := by
  have hresolve : ∀ g ∈ files', ∀ w ∈ g.analysis.scopes.wildcards,
      resolveModule? g.file w (fileIds files') = resolveModule? g.file w (fileIds files) := by
    intro g hg w hw
    rw [← adds.fileIds_eq, resolveModule?_filter (adds.unmeant g hg w hw)]
  constructor
  · rintro ⟨g, hg, rfl, hne, w, hw, hb⟩
    rw [hresolve g hg w hw] at hb
    rcases adds.eq_or_mem hg with rfl | hg
    · -- the new file imports nothing itself
      rw [adds.analysis] at hw
      exact absurd hw (Array.not_mem_empty w)
    · exact ⟨g, hg, rfl, hne, w, hw, hb⟩
  · rintro ⟨g, hg, rfl, hne, w, hw, hb⟩
    have hg' := adds.mem_of_mem hg
    exact ⟨g, hg', rfl, hne, w, hw, (hresolve g hg' w hw).trans hb⟩

theorem importsAll_eq : ImportsAll files' = ImportsAll files := by
  funext a b
  exact propext adds.importsAll_iff

theorem not_declares : ¬ e.analysis.Declares name := by
  rw [adds.analysis]
  rintro ⟨d, hd, -⟩
  exact absurd hd (Array.not_mem_empty d)

/-- The files pass on the same names. -/
theorem passesOn_iff {a : String} : PassesOn files' name a ↔ PassesOn files name a := by
  rw [PassesOn, PassesOn, adds.importsAll_eq]
  constructor
  · rintro ⟨⟨f, hf, rfl, hnot⟩, g, hg, hdeclares, htrans⟩
    refine ⟨⟨f, ?_, rfl, hnot⟩, g, ?_, hdeclares, htrans⟩
    · -- the first import is one of a file of the smaller corpus
      obtain ⟨b, ⟨f', hf', hfile, -⟩, -⟩ := Relation.TransGen.head'_iff.1 htrans
      exact adds.mem_iff.2 ⟨hf, hfile ▸ (adds.mem_iff.1 hf').2⟩
    · rcases adds.eq_or_mem hg with rfl | hg
      · exact absurd hdeclares adds.not_declares
      · exact hg
  · rintro ⟨⟨f, hf, rfl, hnot⟩, g, hg, hdeclares, htrans⟩
    exact ⟨⟨f, adds.mem_of_mem hf, rfl, hnot⟩, g, adds.mem_of_mem hg, hdeclares, htrans⟩

/-! ## Resolution -/

variable (htables : ∀ f ∈ files', f.analysis.LastWins)
include htables

theorem candidates_offer_new : (offer files' e).candidates name = [] := by
  have hdeclared : (offer files' e).declaration? name = none := by
    rw [Option.eq_none_iff_forall_ne_some]
    intro d hd
    have hlast := (declaration?_offer (htables e adds.mem)).1 hd
    exact adds.not_declares (Analysis.declares_iff.2 ⟨d, hlast⟩)
  have hpassed : (offer files' e).passesOn name = false := by
    rw [Bool.eq_false_iff]
    intro hpasses
    obtain ⟨⟨f, hf, hfile, -⟩, -⟩ :=
      adds.passesOn_iff.1 ((passesOn_offer adds.ids htables adds.mem).1 hpasses)
    exact (adds.mem_iff.1 hf).2 hfile
  rw [Exports.candidates, hdeclared, hpassed]
  rfl

theorem candidates_offer (hf : f ∈ files) :
    (offer files' f).candidates name = (offer files f).candidates name := by
  have htables' : ∀ f ∈ files, f.analysis.LastWins := fun f hf => htables f (adds.mem_of_mem hf)
  have hpassed : (offer files' f).passesOn name = (offer files f).passesOn name := by
    rw [Bool.eq_iff_iff, passesOn_offer adds.ids htables (adds.mem_of_mem hf),
      passesOn_offer adds.nodup_ids htables' hf, adds.passesOn_iff]
  have hdeclared : (offer files' f).declaration? name = (offer files f).declaration? name := by
    simp only [Exports.declaration?, offer]
  rw [Exports.candidates, Exports.candidates, hpassed, hdeclared]
  simp only [offer]

/-- The same files offer a name, in the same order. -/
theorem candidates_eq (name file : String) :
    candidates (exports files') name file = candidates (exports files) name file := by
  rw [candidates_exports adds.ids, candidates_exports adds.nodup_ids]
  refine adds.flatMap_eq (fun f hf => Keyed.mem_sort.1 (List.mem_filter.1 hf).1) ?_
    (adds.candidates_offer_new htables) fun f hf => adds.candidates_offer htables hf
  rw [List.filter_comm, adds.corpus_eq]

/-- Every usage means what it did. -/
theorem resolve_eq (acrossFiles : Bool) (f : AnalyzedFile) (u : Usage) :
    resolve (exports files') acrossFiles f u = resolve (exports files) acrossFiles f u := by
  rw [resolve, resolve, adds.candidates_eq htables]

/-! ## Links -/

omit htables in
theorem usages_eq : e.analysis.usages = [] := by
  rw [adds.analysis]
  rfl

theorem linksOf_eq (acrossFiles : Bool) (hf : f ∈ files) :
    (LinkSet.ofFiles files' acrossFiles).linksOf f.file =
      (LinkSet.ofFiles files acrossFiles).linksOf f.file := by
  rw [linksOf_ofFiles adds.ids (adds.mem_of_mem hf), linksOf_ofFiles adds.nodup_ids hf]
  exact List.filterMap_congr fun u _ => by rw [adds.resolve_eq htables]

omit htables in
theorem linksOf_new (acrossFiles : Bool) :
    (LinkSet.ofFiles files' acrossFiles).linksOf e.file = [] := by
  rw [linksOf_ofFiles adds.ids adds.mem, adds.usages_eq]
  rfl

theorem mem_allLinks_iff (acrossFiles : Bool) {l : Link} :
    l ∈ (LinkSet.ofFiles files' acrossFiles).allLinks ↔
      l ∈ (LinkSet.ofFiles files acrossFiles).allLinks := by
  rw [mem_allLinks_ofFiles adds.ids, mem_allLinks_ofFiles adds.nodup_ids]
  constructor
  · rintro ⟨f, hf, hl⟩
    rcases adds.eq_or_mem hf with rfl | hf
    · rw [adds.linksOf_new] at hl
      cases hl
    · exact ⟨f, hf, adds.linksOf_eq htables acrossFiles hf ▸ hl⟩
  · rintro ⟨f, hf, hl⟩
    exact ⟨f, adds.mem_of_mem hf, (adds.linksOf_eq htables acrossFiles hf).symm ▸ hl⟩

theorem stats_eq (acrossFiles : Bool) :
    (LinkSet.ofFiles files' acrossFiles).stats = (LinkSet.ofFiles files acrossFiles).stats := by
  rw [stats_ofFiles, stats_ofFiles, resolutions, resolutions]
  congr 1
  refine adds.flatMap_eq (fun f hf => hf) adds.others (by rw [adds.usages_eq]; rfl) fun f _ => ?_
  exact List.map_congr_left fun u _ => adds.resolve_eq htables acrossFiles f u

theorem diagnostics_eq (acrossFiles : Bool) :
    (LinkSet.ofFiles files' acrossFiles).diagnostics =
      (LinkSet.ofFiles files acrossFiles).diagnostics := by
  rw [LinkSet.diagnostics, LinkSet.diagnostics, LinkSet.ofFiles, LinkSet.ofFiles,
    List.flatMap_map, List.flatMap_map]
  refine adds.flatMap_eq (fun f hf => Keyed.mem_sort.1 hf) adds.corpus_eq
    (by rw [adds.usages_eq]; rfl) fun f _ => ?_
  have houtcomes : (f.analysis.usages.map fun u =>
      (u, resolve (exports files') acrossFiles f u)) =
        f.analysis.usages.map fun u => (u, resolve (exports files) acrossFiles f u) :=
    List.map_congr_left fun u _ => by rw [adds.resolve_eq htables]
  rw [houtcomes]

end AddsUnread

end Linking

end CrossRef
