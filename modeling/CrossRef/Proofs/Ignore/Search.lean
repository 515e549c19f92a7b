/-
  CrossRef.Proofs.Ignore.Search

  Which files a search finds (`discovers_kept_files`). Ignore files are obeyed on
  the way down to a file, and the rules for the root are applied to what is left.
  The ignore files in the root are read both times. Whatever they ignore is
  ignored the first time, too, unless another ignore file takes it back in; then
  the second time it is left out all the same.
-/
import CrossRef.Proofs.Ignore.Walk
import CrossRef.Proofs.Keyed

namespace CrossRef

open Ignore

/-! ## The order of files -/

namespace FoundFile

theorem le_iff {f g : FoundFile} :
    f.le g = true ↔
      f.id < g.id ∨ f.id = g.id ∧ OsPath.ranks f.path ≤ OsPath.ranks g.path := by
  rw [le, Bool.or_eq_true, Bool.and_eq_true, Bool.not_eq_true', decide_eq_true_eq,
    decide_eq_false_iff_not, beq_iff_eq, not_lt]

theorem le_or_le (f g : FoundFile) : (f.le g || g.le f) = true := by
  rw [Bool.or_eq_true, le_iff, le_iff]
  rcases lt_trichotomy f.id g.id with h | h | h
  · exact .inl (.inl h)
  · exact (le_total (OsPath.ranks f.path) (OsPath.ranks g.path)).imp (fun hle => .inr ⟨h, hle⟩)
      fun hle => .inr ⟨h.symm, hle⟩
  · exact .inr (.inl h)

theorem le_of_le_of_le (f g h : FoundFile) (hfg : f.le g = true) (hgh : g.le h = true) :
    f.le h = true := by
  rw [le_iff] at *
  rcases hfg with hfg | ⟨hfg, hpaths⟩
  · rcases hgh with hgh | ⟨hgh, -⟩
    · exact .inl (hfg.trans hgh)
    · exact .inl (hgh ▸ hfg)
  · rcases hgh with hgh | ⟨hgh, hpaths'⟩
    · exact .inl (hfg ▸ hgh)
    · exact .inr ⟨hfg.trans hgh, hpaths.trans hpaths'⟩

theorem le_id {f g : FoundFile} (h : f.le g = true) : f.id ≤ g.id := by
  rcases le_iff.1 h with h | ⟨h, -⟩
  · exact h.le
  · exact h.le

/-- The file that names lead to below a searched directory. -/
def below (root : OsString) (names : List OsString) : FoundFile :=
  ⟨"/".intercalate (names.map OsString.lossy), names.foldl OsPath.join root⟩

end FoundFile

/-! ## Ignore files in a root -/

namespace FileTree

variable {t : FileTree} {meaning : LineMeaning} {root name : OsString}
  {base below q : List OsString} {e : Entry} {isDirectory : Bool}

/-- The lines of the ignore files that are read by the path of a root. -/
def rootLines (t : FileTree) (root : OsString) : List (List Char) :=
  (IgnoreFilter.files root).flatMap fun file => withoutMarks (t.linesAt file)

/-- Something between a directory and a file below it, or the file itself, is
    ignored by the ignore files in the directory and kept by others. -/
def TakenBack (t : FileTree) (meaning : LineMeaning) (root : OsString)
    (base below : List OsString) : Prop :=
  ∃ q ∈ trail below,
    verdictOfLines meaning (t.rootLines root) q (q != below) = some .ignored ∧
      t.ignoreVerdict? meaning (base ++ q) (q != below) = some .kept

instance (t : FileTree) (meaning : LineMeaning) (root : OsString) (base below : List OsString) :
    Decidable (t.TakenBack meaning root base below) :=
  inferInstanceAs (Decidable (∃ _ ∈ _, _))

/-- If a file in a directory can be read by its path, it is the one read by name. -/
theorem linesAt_join (hname : OsString.slash ∉ name.bytes) (hfind : t.find? root = some (base, e)) :
    t.linesAt (OsPath.join root name) = [] ∨
      t.linesAt (OsPath.join root name) = t.linesIn base [name] := by
  have hroot := ne_empty_of_find? hfind
  cases hplace : t.locate (OsPath.join root name) with
  | error _ => exact .inl (by rw [linesAt, hplace]; rfl)
  | ok place =>
    have hway := way_of_locate hplace
    have hbase := way_of_locate (locate_of_find? hfind)
    -- the way of the longer path goes through the directory
    obtain ⟨front, hjoin, hpieces⟩ := OsPath.pieces_join hroot hname
    have hstart : OsPath.isAbsolute (OsPath.join root name) = OsPath.isAbsolute root := by
      have hfirst : root.bytes ≠ [] := fun h => hroot (congrArg OsString.mk h)
      rw [OsPath.isAbsolute, OsPath.isAbsolute, OsPath.bytes_join hname, List.append_assoc,
        List.head?_append_of_ne_nil _ hfirst]
    have hfront : Way t linkLimit (if OsPath.isAbsolute root then [] else t.current) front
        (.found base e) := by
      rcases hpieces with hpieces | hpieces
      · rwa [hpieces] at hbase
      · rw [hpieces] at hbase
        have hdrops := Drops.append_left front (.drop (p := .empty) (.inl rfl) .nil)
        rw [List.append_nil] at hdrops
        exact hbase.drop hdrops
    rw [hstart, hjoin] at hway
    obtain ⟨left, hleft, hlast⟩ := hfront.behind hway
    right
    rw [linesAt, hplace, linesIn, follow_of_way (hlast.mono hleft)]

/-- The lines that are read by the path of a root are those of the directory's
    own ignore files. -/
theorem exists_kind_of_mem_rootLines (hfind : t.find? root = some (base, e)) {line : List Char}
    (hline : line ∈ t.rootLines root) : ∃ kind ∈ fileKinds, line ∈ t.ignoreLines base kind := by
  obtain ⟨file, hfile, hline⟩ := List.mem_flatMap.1 hline
  have hsame (name : OsString) (hslash : OsString.slash ∉ name.bytes)
      (hline : line ∈ withoutMarks (t.linesAt (OsPath.join root name))) :
      line ∈ t.ignoreLines base [name] := by
    rcases linesAt_join hslash hfind with hnil | hlines
    · rw [hnil] at hline
      cases hline
    · rwa [ignoreLines, ← hlines]
  rcases List.mem_pair.1 hfile with rfl | rfl
  · exact ⟨[".gitignore"], by decide, hsame _ (by decide) hline⟩
  · exact ⟨[".ignore"], by decide, hsame _ (by decide) hline⟩

/-- Where a line of the root applies, the ignore files of the tree have one that does. -/
theorem ignoreVerdict?_ne_none (hfind : t.find? root = some (base, e)) (hq : q ≠ []) {v : Verdict}
    (h : verdictOfLines meaning (t.rootLines root) q isDirectory = some v) :
    t.ignoreVerdict? meaning (base ++ q) isDirectory ≠ none := by
  intro hnone
  have hlength : base.length < (base ++ q).length := by
    rw [List.length_append]
    exact Nat.lt_add_of_pos_right (List.length_pos_iff.2 hq)
  have hsilent : verdictOfLines meaning (t.rootLines root) q isDirectory = none := by
    refine verdictOfLines_eq_none_iff.2 fun line hline => ?_
    obtain ⟨kind, hkind, hline⟩ := exists_kind_of_mem_rootLines hfind hline
    have hlines := List.findSome?_eq_none_iff.1 (List.findSome?_eq_none_iff.1 hnone kind hkind)
      base.length (List.mem_reverse.2 (List.mem_range.2 hlength))
    rw [List.take_left, List.drop_left] at hlines
    exact verdictOfLines_eq_none_iff.1 hlines line hline
  rw [hsilent] at h
  cases h

end FileTree

/-! ## Searching a root -/

namespace Selection

variable {patterns : PatternLibrary} {s : Selection patterns} {lib : IgnoreLibrary}
  {meaning : LineMeaning} {user : List OsString → Bool → Option Verdict} {t : FileTree}
  {root : OsString} {base below : List OsString} {found : List FoundFile}

/-- The lines of the rules for a root that do not come from ignore files. -/
def furtherLines (s : Selection patterns) : List (List Char) :=
  (IgnoreFilter.made ++ s.excluded).map String.toList

/-- No pattern for what tools make and none that excludes files applies to a
    file below a directory, or to a directory between them. -/
def Spares (s : Selection patterns) (meaning : LineMeaning) (below : List OsString) : Prop :=
  ∀ q ∈ trail below, ∀ line ∈ s.furtherLines, meaning line q (q != below) = none

instance (s : Selection patterns) (meaning : LineMeaning) (below : List OsString) :
    Decidable (s.Spares meaning below) :=
  inferInstanceAs (Decidable (∀ _ ∈ _, ∀ _ ∈ _, _))

/-- A file is left out if that is what the lines for the root say of it. -/
theorem ignores_below_iff (hfilters : lib.Filters meaning t root) (hbelow : below ≠ [])
    (hnames : ∀ n ∈ below, EntryName n) :
    (IgnoreFilter.ofRoot lib t root s.excluded).ignores (below.foldl OsPath.join root) false =
        true ↔
      verdictBelow? meaning (t.rootLines root ++ s.furtherLines) below = some .ignored := by
  obtain ⟨rules, hbuild, hmatched⟩ :=
    hfilters.matched (IgnoreFilter.files root) (IgnoreFilter.made ++ s.excluded)
  have hrules : (IgnoreFilter.ofRoot lib t root s.excluded).rules = rules := by
    rw [IgnoreFilter.ofRoot, hbuild]
    rfl
  rw [IgnoreFilter.ignores, hrules, hmatched below hbelow hnames, beq_iff_eq]
  rfl

/-- What the lines for a root leave out although none of the further ones applies
    is taken back by an ignore file, or they leave out the root itself. -/
theorem takenBack_of_ignored {e : Entry} (hfind : t.find? root = some (base, e))
    (hkeeps : t.Keeps meaning base below) (hspares : s.Spares meaning below)
    (hroot : verdictOfLines meaning (t.rootLines root ++ s.furtherLines) [] true ≠ some .ignored)
    (h : verdictBelow? meaning (t.rootLines root ++ s.furtherLines) below = some .ignored) :
    t.TakenBack meaning root base below := by
  rcases Option.or_eq_some_iff.1 h with h | ⟨-, h⟩
  · obtain ⟨q, hq, hverdict⟩ := List.exists_of_findSome?_eq_some h
    rw [List.mem_reverse] at hq
    rw [verdictOfLines_append, verdictOfLines_eq_none_iff.2 (hspares q hq), Option.none_or]
      at hverdict
    refine ⟨q, hq, hverdict, ?_⟩
    -- the ignore files of the tree say something there, and not that it is ignored
    have hsome := FileTree.ignoreVerdict?_ne_none hfind (mem_trail.1 hq).1 hverdict
    have hkept := hkeeps q hq
    cases hv : t.ignoreVerdict? meaning (base ++ q) (q != below) with
    | none => exact absurd hv hsome
    | some v =>
      cases v with
      | ignored => exact absurd hv hkept
      | kept => rfl
  · exact absurd h hroot

/-! ## What is found -/

/-- A search finds what the walk comes to as far as it takes part. -/
theorem mem_discover_iff (hfound : s.discover lib t root = .ok found) {f : FoundFile} :
    f ∈ found ↔ some ⟨f.path, some .file⟩ ∈ lib.walk t root ∧
      (IgnoreFilter.ofRoot lib t root s.excluded).ignores f.path false = false ∧
      (∃ steps, OsPath.relativeTo? root f.path = some steps ∧ OsPath.identifier steps = f.id) ∧
      s.includes f.id = true := by
  rw [mem_of_discover hfound]
  constructor
  · rintro ⟨⟨path, kind⟩, hentry, htakes⟩
    obtain ⟨rfl, rfl, hrest⟩ := found?_eq_some_iff.1 htakes
    exact ⟨hentry, hrest⟩
  · rintro ⟨hentry, htakes⟩
    exact ⟨_, hentry, found?_eq_some_iff.2 ⟨rfl, rfl, htakes⟩⟩

/-- A search whose walk does not fail finds files in order. -/
theorem exists_discover (hwalk : none ∉ lib.walk t root) :
    ∃ found, s.discover lib t root = .ok found ∧ found.Pairwise (·.le ·) := by
  refine ⟨_, (s.discover_eq lib t root).trans (if_neg hwalk), ?_⟩
  exact Keyed.pairwise_sortBy FoundFile.le_or_le FoundFile.le_of_le_of_le _

/-- A walk comes to the paths of files that it calls files. -/
theorem mem_filesOf_iff {path : OsString} :
    path ∈ IgnoreLibrary.filesOf (lib.walk t root) ↔
      some ⟨path, some .file⟩ ∈ lib.walk t root := by
  rw [IgnoreLibrary.filesOf, List.mem_map]
  constructor
  · rintro ⟨⟨_, kind⟩, hentry, rfl⟩
    obtain ⟨hentry, hkind⟩ := List.mem_filter.1 hentry
    obtain rfl : kind = some .file := of_decide_eq_true hkind
    exact List.reduceOption_mem_iff.1 hentry
  · intro hentry
    exact ⟨_, List.mem_filter.2 ⟨List.reduceOption_mem_iff.2 hentry, decide_eq_true rfl⟩, rfl⟩

/-- What is found at the path of a file is the file by its names. -/
theorem eq_below {names : List OsString} (hroot : root ≠ .empty)
    (hnames : ∀ n ∈ names, EntryName n) {f : FoundFile}
    (hpath : names.foldl OsPath.join root = f.path) :
    (∃ steps, OsPath.relativeTo? root f.path = some steps ∧ OsPath.identifier steps = f.id) ↔
      f = .below root names := by
  have hsteps := OsPath.relativeTo?_foldl_join hroot fun n hn => (hnames n hn).plain
  obtain ⟨id, path⟩ := f
  obtain rfl : names.foldl OsPath.join root = path := hpath
  rw [hsteps, FoundFile.below]
  simp only [Option.some.injEq, exists_eq_left', OsPath.identifier_names, FoundFile.mk.injEq,
    and_true]
  exact eq_comm

/-- A walk as documented comes to files below the directory only. -/
theorem exists_below_of_walked (hsound : t.root.Sound) (hroot : root ≠ .empty)
    (hwalks : lib.Walks meaning user t root base) {f : FoundFile}
    (hwalked : some ⟨f.path, some .file⟩ ∈ lib.walk t root)
    (hsteps : ∃ steps, OsPath.relativeTo? root f.path = some steps ∧
      OsPath.identifier steps = f.id) :
    ∃ below content, t.root.get? (base ++ below) = some (.file content) ∧
      f = .below root below := by
  obtain ⟨below, content, hpath, hfile, -⟩ := (hwalks.files _).1 (mem_filesOf_iff.2 hwalked)
  have hnamed : ∀ n ∈ below, EntryName n := fun n hn =>
    (hsound.get? hfile).1 n (List.mem_append_right _ hn)
  exact ⟨below, content, hfile, (eq_below hroot hnamed hpath).1 hsteps⟩

/-- A walk as documented comes to a file below the directory unless it is ignored. -/
theorem walked_below_iff (hsound : t.root.Sound) (hroot : root ≠ .empty)
    (hwalks : lib.Walks meaning user t root base) {content : Content}
    (hfile : t.root.get? (base ++ below) = some (.file content)) :
    some ⟨below.foldl OsPath.join root, some .file⟩ ∈ lib.walk t root ↔
      t.Keeps meaning base below ∧ ¬ t.IgnoredByUser meaning user base below := by
  have hplain {names : List OsString} {content : Content}
      (hfile : t.root.get? (base ++ names) = some (.file content)) :
      ∀ n ∈ names, OsPath.IsPlain n :=
    fun n hn => ((hsound.get? hfile).1 n (List.mem_append_right _ hn)).plain
  rw [← mem_filesOf_iff, hwalks.files]
  constructor
  · rintro ⟨names, content', hpath, hfile', hkept⟩
    exact OsPath.eq_of_foldl_join_eq hroot (hplain hfile') (hplain hfile) hpath ▸ hkept
  · intro hkept
    exact ⟨below, content, rfl, hfile, hkept⟩

/-- What is found are files below the directory, if the walk is as documented. -/
theorem exists_below_of_mem (hsound : t.root.Sound) (hroot : root ≠ .empty)
    (hwalks : lib.Walks meaning user t root base) (hfound : s.discover lib t root = .ok found)
    {f : FoundFile} (hf : f ∈ found) :
    ∃ below content, t.root.get? (base ++ below) = some (.file content) ∧
      f = .below root below := by
  obtain ⟨hwalked, -, hsteps, -⟩ := (mem_discover_iff hfound).1 hf
  exact exists_below_of_walked hsound hroot hwalks hwalked hsteps

/-- Which of the files below the directory are found, if the walk is as documented. -/
theorem below_mem_iff (hsound : t.root.Sound) (hroot : root ≠ .empty)
    (hwalks : lib.Walks meaning user t root base) (hfound : s.discover lib t root = .ok found)
    {content : Content} (hfile : t.root.get? (base ++ below) = some (.file content)) :
    FoundFile.below root below ∈ found ↔ t.Keeps meaning base below ∧
      ¬ t.IgnoredByUser meaning user base below ∧
      (IgnoreFilter.ofRoot lib t root s.excluded).ignores (below.foldl OsPath.join root) false =
        false ∧
      s.includes (FoundFile.below root below).id = true := by
  have hnames : ∀ n ∈ below, EntryName n := fun n hn =>
    (hsound.get? hfile).1 n (List.mem_append_right _ hn)
  have hsteps := (eq_below (f := .below root below) hroot hnames rfl).2 rfl
  have hwalked := walked_below_iff hsound hroot hwalks hfile
  rw [mem_discover_iff hfound, ← and_assoc (a := t.Keeps meaning base below), ← hwalked]
  exact and_congr_right fun _ => and_congr_right fun _ => and_iff_right hsteps

/-- Nothing is found at the path of a file twice if the walk comes to it once. -/
theorem nodup_paths (hwalks : lib.Walks meaning user t root base)
    (hfound : s.discover lib t root = .ok found) : (found.map (·.path)).Nodup := by
  have hsublist (filter : IgnoreFilter lib) (entries : List WalkEntry) :
      ((entries.filterMap (s.found? filter root)).map (·.path)).Sublist
        ((entries.filter (·.kind = some .file)).map (·.path)) := by
    induction entries with
    | nil => exact .slnil
    | cons entry entries ih =>
      cases htakes : s.found? filter root entry with
      | none =>
        rw [List.filterMap_cons_none htakes, List.filter_cons]
        split
        · exact ih.cons _
        · exact ih
      | some f =>
        obtain ⟨hkind, hpath, -⟩ := found?_eq_some_iff.1 htakes
        rw [List.filterMap_cons_some htakes, List.filter_cons, if_pos (decide_eq_true hkind),
          List.map_cons, List.map_cons, hpath]
        exact ih.cons_cons _
  rw [discover_eq, if_neg hwalks.faultless] at hfound
  cases hfound
  -- sorting moves paths around and adds none
  exact ((Keyed.sortBy_perm _ _).map _).nodup_iff.2 (hwalks.once.sublist (hsublist _ _))

/-- Files whose names are texts have different identifiers below a directory. -/
theorem eq_of_id_eq {below more : List OsString} (hbelow : below ≠ []) (hmore : more ≠ [])
    (hnamed : ∀ n ∈ below ++ more, EntryName n ∧ n.IsText)
    (hid : (FoundFile.below root below).id = (FoundFile.below root more).id) : below = more := by
  have hunslashed {names : List OsString} (hsub : names ⊆ below ++ more) :
      Path.Unslashed (names.map OsString.lossy) := by
    intro text htext
    obtain ⟨n, hn, rfl⟩ := List.mem_map.1 htext
    obtain ⟨hname, htext⟩ := hnamed n (hsub hn)
    exact htext.slash_not_mem hname.unslashed
  have hleft : below ⊆ below ++ more := List.subset_append_left ..
  have hright : more ⊆ below ++ more := List.subset_append_right ..
  have hshown : below.map OsString.lossy = more.map OsString.lossy :=
    Path.eq_of_intercalate_eq (mt List.map_eq_nil_iff.1 hbelow) (mt List.map_eq_nil_iff.1 hmore)
      (hunslashed hleft) (hunslashed hright) hid
  exact OsString.eq_of_map_lossy (fun n hn => (hnamed n (hleft hn)).2)
    (fun n hn => (hnamed n (hright hn)).2) hshown

/-- If all names are texts, the identifiers of found files ascend. -/
theorem ascending_ids {children : List (OsString × Entry)} (hsound : t.root.Sound)
    (hbase : t.root.get? base = some (.directory children))
    (htexts : ∀ below content, t.root.get? (base ++ below) = some (.file content) →
      ∀ n ∈ below, n.IsText)
    (hordered : found.Pairwise (·.le ·)) (hdistinct : (found.map (·.path)).Nodup)
    (hfound : ∀ f ∈ found, ∃ below content, t.root.get? (base ++ below) = some (.file content) ∧
      f = .below root below) : Keyed.Ascending (·.id) found := by
  have hfilled {below : List OsString} {content : Content}
      (hfile : t.root.get? (base ++ below) = some (.file content)) :
      below ≠ [] ∧ ∀ n ∈ below, EntryName n ∧ n.IsText := by
    refine ⟨?_, fun n hn => ⟨(hsound.get? hfile).1 n (List.mem_append_right _ hn),
      htexts below content hfile n hn⟩⟩
    rintro rfl
    rw [List.append_nil, hbase] at hfile
    cases hfile
  have hpaths : found.Pairwise fun f g => f.path ≠ g.path := List.pairwise_map.1 hdistinct
  refine (hordered.and hpaths).imp_of_mem fun {f g} hf hg ⟨hle, hne⟩ => ?_
  -- one identifier would mean one row of names, and so one path
  refine lt_of_le_of_ne (FoundFile.le_id hle) fun hid => hne ?_
  obtain ⟨below, content, hfile, rfl⟩ := hfound f hf
  obtain ⟨more, content', hfile', rfl⟩ := hfound g hg
  obtain ⟨hbelow, hnamed⟩ := hfilled hfile
  obtain ⟨hmore, hnamed'⟩ := hfilled hfile'
  rw [eq_of_id_eq hbelow hmore (List.forall_mem_append.2 ⟨hnamed, hnamed'⟩) hid]

/-- A search fails if the walk does, and otherwise finds the files that the walk
    comes to, that the rules for the root do not leave out and that a pattern
    includes, in the order of their identifiers. If ignore files are obeyed as
    documented on the walk from a directory, these are the files below it that
    neither the ignore files of the tree nor the user's own ignore, and their
    identifiers differ if their names are texts. If the rules for the root are
    applied as documented, they are asked about the file, the directories above
    it and the root. Then, if no pattern that excludes files applies, a file that
    is kept and included is found unless an ignore file takes back what those in
    the root ignore, or a rule applies to the root itself. -/
theorem discovers_kept_files {patterns : PatternLibrary} (s : Selection patterns)
    (lib : IgnoreLibrary) (t : FileTree) (root : OsString) :
    let filter := IgnoreFilter.ofRoot lib t root s.excluded
    (none ∈ lib.walk t root → s.discover lib t root = .error .walk) ∧
    (none ∉ lib.walk t root → ∃ found, s.discover lib t root = .ok found ∧
      found.Pairwise (·.le ·) ∧
      ∀ f, f ∈ found ↔ some ⟨f.path, some .file⟩ ∈ lib.walk t root ∧
        filter.ignores f.path false = false ∧
        (∃ steps, OsPath.relativeTo? root f.path = some steps ∧ OsPath.identifier steps = f.id) ∧
        s.includes f.id = true) ∧
    ∀ meaning user base children, t.root.Sound → t.find? root = some (base, .directory children) →
      lib.Walks meaning user t root base →
      ∃ found, s.discover lib t root = .ok found ∧ (found.map (·.path)).Nodup ∧
        (∀ f ∈ found, ∃ below content, t.root.get? (base ++ below) = some (.file content) ∧
          f = .below root below) ∧
        ((∀ below content, t.root.get? (base ++ below) = some (.file content) →
          ∀ n ∈ below, n.IsText) → Keyed.Ascending (·.id) found) ∧
        ∀ below content, t.root.get? (base ++ below) = some (.file content) →
          let f := FoundFile.below root below
          let lines := t.rootLines root ++ s.furtherLines
          (f ∈ found ↔ t.Keeps meaning base below ∧ ¬ t.IgnoredByUser meaning user base below ∧
            filter.ignores f.path false = false ∧ s.includes f.id = true) ∧
          (lib.Filters meaning t root →
            (filter.ignores f.path false = true ↔
              verdictBelow? meaning lines below = some .ignored) ∧
            (t.Keeps meaning base below → ¬ t.IgnoredByUser meaning user base below →
              s.includes f.id = true → s.Spares meaning below →
              ¬ t.TakenBack meaning root base below →
              verdictOfLines meaning lines [] true ≠ some .ignored → f ∈ found)) := by
  intro filter
  refine ⟨fun hwalk => ?_, fun hwalk => ?_, ?_⟩
  · rw [discover_eq, if_pos hwalk]
  · obtain ⟨found, hfound, hordered⟩ := exists_discover (s := s) hwalk
    exact ⟨found, hfound, hordered, fun f => mem_discover_iff hfound⟩
  -- from here on the walk does what is documented
  intro meaning user base children hsound hfind hwalks
  have hroot := FileTree.ne_empty_of_find? hfind
  have hbase := (FileTree.way_of_locate (FileTree.locate_of_find? hfind)).get?_found
  obtain ⟨found, hfound, hordered⟩ := exists_discover (s := s) hwalks.faultless
  have hdistinct := nodup_paths hwalks hfound
  have hbelow := fun f (hf : f ∈ found) => exists_below_of_mem hsound hroot hwalks hfound hf
  refine ⟨found, hfound, hdistinct, hbelow,
    fun htexts => ascending_ids hsound hbase htexts hordered hdistinct hbelow, ?_⟩
  intro below content hfile f lines
  have hmember := below_mem_iff hsound hroot hwalks hfound hfile
  refine ⟨hmember, fun hfilters => ?_⟩
  have hbelow : below ≠ [] := by
    -- the directory itself is no file
    rintro rfl
    rw [List.append_nil, hbase] at hfile
    cases hfile
  have hignores : filter.ignores f.path false = true ↔
      verdictBelow? meaning lines below = some .ignored :=
    ignores_below_iff hfilters hbelow fun n hn =>
      (hsound.get? hfile).1 n (List.mem_append_right _ hn)
  refine ⟨hignores, fun hkeeps huser hincludes hspares htaken hspared => ?_⟩
  refine hmember.2 ⟨hkeeps, huser, Bool.eq_false_iff.2 fun hleft => ?_, hincludes⟩
  exact htaken (takenBack_of_ignored hfind hkeeps hspares hspared (hignores.1 hleft))

/-! ## A package with ignore files -/

/-- A module in a package, with ignore files next to the package and in it. -/
def package (outer inner : String) : FileTree :=
  (((FileTree.empty ["w"]).withText ["w", ".gitignore"] outer).withText
    ["w", "pkg", ".gitignore"] inner).withText ["w", "pkg", "keep.py"] "x = 1\n"

theorem sound_package (outer inner : String) : (package outer inner).root.Sound := by
  have hempty : (FileTree.empty ["w"]).root.Sound := FileTree.sound_empty (by decide +kernel)
  have houter : ((FileTree.empty ["w"]).withText ["w", ".gitignore"] outer).root.Sound :=
    FileTree.sound_withText hempty (by decide +kernel) _
  have hinner : (((FileTree.empty ["w"]).withText ["w", ".gitignore"] outer).withText
      ["w", "pkg", ".gitignore"] inner).root.Sound :=
    FileTree.sound_withText houter (by decide +kernel) _
  exact FileTree.sound_withText hinner (by decide +kernel) _

/-- Rules that ignore other files and a package that keeps its module. -/
theorem discovers_kept_files_otherRules :
    let t := package "gen/\n" "*.py\n!keep.py\n"
    t.root.Sound ∧ t.Searches "." ["w"] ∧ t.Keeps lineVerdict? ["w"] ["pkg", "keep.py"] ∧
      ∃ found, pythonFiles.discover .standard t "." = .ok found ∧
        FoundFile.below "." ["pkg", "keep.py"] ∈ found := by
  intro t
  have hsound : t.root.Sound := sound_package _ _
  have hsearches : t.Searches "." ["w"] := by decide +kernel
  have hkeeps : t.Keeps lineVerdict? ["w"] ["pkg", "keep.py"] := by decide +kernel
  obtain ⟨children, hfind⟩ := hsearches.directory
  have hwalks := IgnoreLibrary.walks_standard hsound hsearches
  have hfilters := IgnoreLibrary.filters_standard t "." (by decide +kernel) (by decide +kernel)
  obtain ⟨-, -, hdirectory⟩ := discovers_kept_files pythonFiles .standard t "."
  obtain ⟨found, hdiscover, -, -, -, hmember⟩ :=
    hdirectory lineVerdict? (fun _ _ => none) ["w"] children hsound hfind hwalks
  have hfile : t.root.get? (["w"] ++ ["pkg", "keep.py"]) = some (.file (.text "x = 1\n")) := by rfl
  obtain ⟨-, hkept⟩ := (hmember ["pkg", "keep.py"] _ hfile).2 hfilters
  have hmem := hkept hkeeps (by decide +kernel) (by decide +kernel) (by decide +kernel)
    (by decide +kernel) (by decide +kernel)
  exact ⟨hsound, hsearches, hkeeps, found, hdiscover, hmem⟩

/-- A module that its package keeps is not found, because a rule next to the
    package ignores modules. -/
theorem discovers_kept_files_takenBack :
    let t := package "*.py\n" "!keep.py\n"
    parse .standard [] [] = .ok pythonFiles ∧ t.root.Sound ∧ t.Searches "." ["w"] ∧
      PlainRoot "." ∧ t.root.get? ["w", "pkg", "keep.py"] = some (.file (.text "x = 1\n")) ∧
      t.Keeps lineVerdict? ["w"] ["pkg", "keep.py"] ∧
      pythonFiles.includes "pkg/keep.py" = true ∧
      pythonFiles.Spares lineVerdict? ["pkg", "keep.py"] ∧
      pythonFiles.discover .standard t "." = .ok [] := by
  refine ⟨parse_nil, sound_package _ _, by decide +kernel, by decide +kernel, rfl,
    by decide +kernel, by decide +kernel, by decide +kernel, ?_⟩
  exact eq_ok_of_toOption (by decide +kernel)

/-- A rule that applies to no file may apply to the root, and then nothing is found. -/
example :
    (package "/\n" "").Keeps lineVerdict? ["w"] ["pkg", "keep.py"] ∧
      (pythonFiles.discover .standard (package "/\n" "") ".").toOption = some [] := by
  decide +kernel

end Selection

end CrossRef
