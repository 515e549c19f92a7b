/-
  CrossRef.Proofs.Job.Growth

  A corpus and the same corpus with more files. A new file may declare a name,
  pass it on, or take the place of the file that a wildcard import led to, so
  the candidates for a name may become more or fewer. But a usage that had a
  link was bound in its own file, or one other file declared its name; that
  file still declares it, so it is still a candidate
  (`declaration?_resolve_of_subset`).
-/
import CrossRef.Proofs.Job.Alone

namespace CrossRef

open CrossRef.Linking

/-! ## Reports -/

namespace Report

/-- The report links a usage to the declaration `d` and to no other. -/
def LinksTo (r : Report) (u : Usage) (d : Declaration) : Prop := ∀ e, ⟨u, e⟩ ∈ r.links ↔ e = d

/-- The report has no link for a usage, and shows several files that offer its name. -/
def LeavesOpen (r : Report) (u : Usage) : Prop :=
  (∀ e, ⟨u, e⟩ ∉ r.links) ∧ ∃ candidates : List String,
    2 ≤ candidates.length ∧ .ambiguousReference u.file u.identifier candidates ∈ r.diagnostics

/-- What the report says of its files is still said of them in a larger one.
    Every file has its declarations and the links that stay in it, and every
    link leads to the same declaration, if its usage has not become ambiguous. -/
structure GrowsTo (small large : Report) : Prop where
  files : ∀ f ∈ small.files, ∃ g ∈ large.files, g.alone = f.alone
  links : ∀ l ∈ small.links, large.LinksTo l.usage l.declaration ∨ large.LeavesOpen l.usage

end Report

/-! ## Usages in a larger corpus -/

namespace Linking

variable {files files' : List AnalyzedFile} {f : AnalyzedFile} {u : Usage} {d : Declaration}

/-- What a usage means without other files does not depend on them. -/
theorem resolve_false (index index' : List Exports) (f : AnalyzedFile) (u : Usage) :
    resolve index false f u = resolve index' false f u := by
  unfold resolve
  split
  · rfl
  · rfl

/-- A usage that names a declaration of a corpus names it in a larger corpus
    too, or is ambiguous there. -/
theorem declaration?_resolve_of_subset (hids : (files.map (·.file)).Nodup)
    (hids' : (files'.map (·.file)).Nodup) (htables : ∀ g ∈ files', g.analysis.LastWins)
    (hsub : ∀ g ∈ files, g ∈ files') (hf : f ∈ files)
    (hd : (resolve (exports files) true f u).declaration? = some d) :
    (resolve (exports files') true f u).declaration? = some d ∨
      ∃ cs, resolve (exports files') true f u = .ambiguous cs := by
  have hmeans : Means files true f u (resolve (exports files) true f u) :=
    means_resolve hids (fun g hg => htables g (hsub g hg)) hf u
  have hmeans' : Means files' true f u (resolve (exports files') true f u) :=
    means_resolve hids' htables (hsub f hf) u
  generalize resolve (exports files) true f u = r at hmeans hd
  generalize resolve (exports files') true f u = r' at hmeans' ⊢
  cases hmeans with
  | sameFile hi hdecl =>
    cases hd
    -- the scopes of the file are the same, and so they bind the name again
    cases hmeans' with
    | sameFile hi' hdecl' =>
      rw [hi] at hi'
      cases hi'
      rw [hdecl] at hdecl'
      exact .inl hdecl'.symm
    | alone hnone | ambiguous hnone | crossFile hnone | unresolved hnone =>
      exact absurd (hnone.symm.trans hi) (Option.some_ne_none _).symm
  | @crossFile g _ hnone _ hg hdeclaring _ hlast =>
    cases hd
    have hmem : g.file ∈ declaring files u.identifier f.file :=
      hdeclaring ▸ Set.mem_singleton _
    have hmem' : g.file ∈ declaring files' u.identifier f.file :=
      ⟨hmem.1, g, hsub g hg, rfl, Analysis.declares_iff.2 ⟨_, hlast⟩⟩
    cases hmeans' with
    | sameFile hi' => exact absurd (hnone.symm.trans hi') (Option.some_ne_none _).symm
    | alone _ hfalse => exact absurd hfalse Bool.noConfusion
    | ambiguous => exact .inr ⟨_, rfl⟩
    | unresolved _ _ hempty => exact absurd (hempty ▸ hmem') (Set.notMem_empty _)
    | crossFile _ _ hg' hdeclaring' _ hlast' =>
      -- the one file that declares the name is the same
      rw [hdeclaring', Set.mem_singleton_iff] at hmem'
      cases Keyed.eq_of_key_eq hids' (hsub g hg) hg' hmem'
      rw [hlast.unique hlast']
      exact .inl rfl
  | alone | ambiguous | unresolved => cases hd

end Linking

namespace Job

section

variable {files files' : List AnalyzedFile} {f : AnalyzedFile} {u : Usage}

/-- The links of a report are those of the usages that name a declaration. -/
theorem mem_links_reportOn_iff (hids : (files.map (·.file)).Nodup)
    (howned : ∀ f ∈ files, f.analysis.OwnedBy f.file) (options : JobOptions) (hf : f ∈ files)
    (hu : u ∈ f.analysis.usages) {d : Declaration} :
    ⟨u, d⟩ ∈ (reportOn files options).links ↔
      (resolve (exports files) options.crossFile f u).declaration? = some d := by
  rw [mem_links_reportOn hids, mem_allLinks_ofFiles hids]
  constructor
  · rintro ⟨g, hg, hl⟩
    rw [linksOf_ofFiles hids hg, List.mem_filterMap] at hl
    obtain ⟨v, hv, hl⟩ := hl
    obtain ⟨e, he, heq⟩ := Option.map_eq_some_iff.1 hl
    cases heq
    -- a usage belongs to one file
    have hfile : g.file = f.file := ((howned g hg).usage u hv).symm.trans ((howned f hf).usage u hu)
    cases Keyed.eq_of_key_eq hids hg hf hfile
    exact he
  · intro hd
    refine ⟨f, hf, ?_⟩
    rw [linksOf_ofFiles hids hf, List.mem_filterMap]
    exact ⟨u, hu, Option.map_eq_some_iff.2 ⟨d, hd, rfl⟩⟩

/-- A report leaves open what is ambiguous. -/
theorem leavesOpen_reportOn (hids : (files.map (·.file)).Nodup)
    (howned : ∀ f ∈ files, f.analysis.OwnedBy f.file) (options : JobOptions) (hf : f ∈ files)
    (hu : u ∈ f.analysis.usages) {cs : List Candidate}
    (hr : resolve (exports files) options.crossFile f u = .ambiguous cs) :
    (reportOn files options).LeavesOpen u := by
  refine ⟨fun e he => ?_, cs.map (·.label), ?_, ?_⟩
  · rw [mem_links_reportOn_iff hids howned options hf hu, hr] at he
    cases he
  · rw [List.length_map]
    exact (resolve_eq_ambiguous hr).2.2
  · rw [diagnostics_reportOn, (howned f hf).usage u hu]
    exact List.mem_append_left _ (mem_diagnostics_ofFiles.2 ⟨f, hf, u, hu, cs, hr, rfl⟩)

/-- Without the links that leave it, the report on a file does not depend on others. -/
theorem alone_reportOf_of_subset (hids : (files.map (·.file)).Nodup)
    (hids' : (files'.map (·.file)).Nodup) (htables : ∀ g ∈ files', g.analysis.LastWins)
    (howned : ∀ g ∈ files', g.analysis.OwnedBy g.file) (hsub : ∀ g ∈ files, g ∈ files')
    (hf : f ∈ files) :
    (reportOf (LinkSet.ofFiles files' true) f).alone =
      (reportOf (LinkSet.ofFiles files true) f).alone := by
  have hlinks : (LinkSet.ofFiles files' false).linksOf f.file =
      (LinkSet.ofFiles files false).linksOf f.file := by
    rw [linksOf_ofFiles hids' (hsub f hf), linksOf_ofFiles hids hf]
    exact List.filterMap_congr fun u _ => by rw [resolve_false]
  rw [linksOf_alone hids' htables howned (hsub f hf),
    linksOf_alone hids (fun g hg => htables g (hsub g hg)) (fun g hg => howned g (hsub g hg)) hf]
    at hlinks
  exact congrArg (FileReport.mk f.file f.analysis.declarations.toList) hlinks

theorem growsTo_reportOn (hids : (files.map (·.file)).Nodup)
    (hids' : (files'.map (·.file)).Nodup) (htables : ∀ g ∈ files', g.analysis.LastWins)
    (howned : ∀ g ∈ files', g.analysis.OwnedBy g.file) (hsub : ∀ g ∈ files, g ∈ files')
    (order : OrderMode) :
    (reportOn files ⟨true, order⟩).GrowsTo (reportOn files' ⟨true, order⟩) where
  files := by
    intro r hr
    obtain ⟨f, hf, rfl⟩ := List.mem_map.1 ((perm_files_reportOn hids _).mem_iff.1 hr)
    exact ⟨_, (perm_files_reportOn hids' _).mem_iff.2 (List.mem_map_of_mem (hsub f hf)),
      alone_reportOf_of_subset hids hids' htables howned hsub hf⟩
  links := by
    rintro ⟨u, d⟩ hl
    obtain ⟨f, hf, hlf⟩ := (mem_allLinks_ofFiles hids).1 ((mem_links_reportOn hids _).1 hl)
    rw [linksOf_ofFiles hids hf, List.mem_filterMap] at hlf
    obtain ⟨v, hu, hd⟩ := hlf
    obtain ⟨e, he, heq⟩ := Option.map_eq_some_iff.1 hd
    cases heq
    -- the usage means what it did, or there are several candidates now
    rcases declaration?_resolve_of_subset hids hids' htables hsub hf he with hd' | ⟨cs, hcs⟩
    · refine .inl fun e => ?_
      rw [mem_links_reportOn_iff hids' howned _ (hsub f hf) hu]
      show (resolve _ true f u).declaration? = some e ↔ e = d
      rw [hd', Option.some.injEq, eq_comm]
    · exact .inr (leavesOpen_reportOn hids' howned _ (hsub f hf) hu hcs)

end

/-! ## Jobs -/

/-- **Growing a corpus retargets no link.** One more source, wherever it comes,
    leaves every file with its declarations and the links that stay in it, and
    every link with its declaration, if its usage does not become ambiguous. -/
theorem run_growsTo (registry : Registry) (order : OrderMode) {before after : List SourceFile}
    {s : SourceFile} (hids : ((before ++ s :: after).map (·.id)).Nodup) :
    (run registry ⟨true, order⟩ (before ++ after)).GrowsTo
      (run registry ⟨true, order⟩ (before ++ s :: after)) := by
  have hsublist : (before ++ after).Sublist (before ++ s :: after) :=
    (List.sublist_cons_self s after).append_left before
  refine growsTo_reportOn (nodup_analyzeAll _ _) (nodup_analyzeAll _ _)
    (fun _ hf => lastWins_of_mem_analyzeAll hf) (fun _ hf => ownedBy_of_mem_analyzeAll hf)
    (fun f hf => ?_) order
  rw [analyzeAll_eq ((hsublist.map _).nodup hids)] at hf
  rw [analyzeAll_eq hids]
  exact (hsublist.map _).subset hf

/-- A module that imports everything from `util`, one that does not, and a `util`. -/
def importingSources : List SourceFile :=
  [⟨"a.py", "from util import *\nrun()\n"⟩, ⟨"b.py", "run()\n"⟩,
    ⟨"pkg/util.py", "def run():\n    pass\n"⟩]

/-- Another `util`, which comes before the first. -/
def otherUtil : SourceFile := ⟨"lib/util.py", "def walk():\n    pass\n"⟩

/-- The import leads to the other `util` instead. The link of `a.py` stays, and
    `b.py` gets one, because `a.py` no longer passes the name on. -/
theorem run_growsTo_otherUtil :
    let small := run .standard ⟨true, .none⟩ importingSources
    let large := run .standard ⟨true, .none⟩ (importingSources ++ [otherUtil])
    ((importingSources ++ [otherUtil]).map (·.id)).Nodup ∧ small.GrowsTo large ∧
      (small.stats.crossFileLinks, small.stats.ambiguous) = (1, 1) ∧
      (large.stats.crossFileLinks, large.stats.ambiguous) = (2, 0) := by
  have hids : ((importingSources ++ [otherUtil]).map (·.id)).Nodup := by decide
  have hgrows := run_growsTo .standard .none hids
  rw [List.append_nil] at hgrows
  exact ⟨hids, hgrows, by decide +kernel, by decide +kernel⟩

end Job

end CrossRef
