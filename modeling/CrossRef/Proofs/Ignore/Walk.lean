/-
  CrossRef.Proofs.Ignore.Walk

  The walk of this library does what is documented of walks, for a user without
  an ignore file (`walks_standard`), unless it ends at once or fails: the root is
  no single hyphen, and the ignore files above it can be read.
-/
import CrossRef.Proofs.Discovery
import CrossRef.Proofs.Ignore.Exclusion

namespace CrossRef

open Ignore

/-! ## Ignore files above an entry -/

namespace FileTree

theorem above_concat (t : FileTree) (names : List OsString) (name : OsString) :
    Level.above t (names ++ [name]) = Level.ofTree t names :: Level.above t names := by
  rw [Level.above, List.length_append, List.length_singleton, List.range_succ, List.reverse_concat,
    List.map_cons, List.take_left]
  refine congrArg _ (List.map_congr_left fun depth hdepth => ?_)
  have hshort : depth < names.length := List.mem_range.1 (List.mem_reverse.1 hdepth)
  rw [List.take_append_of_le_length hshort.le]

/-- What the ignore file of one kind says at a level is what its lines say. -/
theorem verdict?_ofTree (t : FileTree) {directory : List OsString} {kind : Nat}
    (hkind : kind < fileKinds.length) (names : List OsString) (isDirectory : Bool) :
    (Level.ofTree t directory).verdict? kind names isDirectory =
      verdictOfLines lineVerdict? (t.ignoreLines directory fileKinds[kind])
        (names.drop directory.length) isDirectory := by
  have hrules : (Level.ofTree t directory).rules.getD kind [] =
      rulesOf (t.ignoreLines directory fileKinds[kind]) := by
    have hread : (fileKinds.map fun kind => withoutMarks (t.linesIn directory kind))[kind]? =
        some (t.ignoreLines directory fileKinds[kind]) := by
      rw [List.getElem?_map, List.getElem?_eq_getElem hkind]
      rfl
    rw [Level.ofTree, List.getD_eq_getElem?_getD, List.getElem?_map, hread]
    rfl
  rw [Level.verdict?, hrules, verdictOfLines_lineVerdict?]
  rfl

/-- The levels above an entry say of it what the ignore files there say. -/
theorem verdictOf?_above (t : FileTree) (names : List OsString) (isDirectory : Bool) :
    Level.verdictOf? (Level.above t names) names isDirectory =
      t.ignoreVerdict? lineVerdict? names isDirectory := by
  -- levels keep their rules by the numbers of the kinds
  have hkinds : fileKinds = (List.range fileKinds.length).map fun kind =>
      fileKinds[kind]?.getD [] := by rfl
  rw [ignoreVerdict?, hkinds, List.findSome?_map]
  refine findSome?_congr fun kind hkind => ?_
  have hkind : kind < fileKinds.length := List.mem_range.1 hkind
  rw [Level.above, List.findSome?_map, Function.comp_apply, List.getElem?_eq_getElem hkind]
  refine findSome?_congr fun depth hdepth => ?_
  have hshort : depth < names.length := List.mem_range.1 (List.mem_reverse.1 hdepth)
  rw [Function.comp_apply, verdict?_ofTree t hkind, List.length_take_of_le hshort.le]
  rfl

end FileTree

/-! ## The walk -/

section Walk

variable {t : FileTree} {levels : List Level} {names below : List OsString}
  {found : List OsString × EntryKind}

/-- What a walk says an entry is. -/
def kindOf : Entry → EntryKind
  | .file _ => .file
  | .link _ => .link
  | .directory _ => .directory

theorem exists_of_kindOf {e : Entry} (h : kindOf e = .file) : ∃ content, e = .file content := by
  cases e with
  | file content => exact ⟨content, rfl⟩
  | link _ | directory _ => cases h

mutual

/-- The walk comes to what the tree has. -/
theorem get?_of_mem_entriesAt (levels : List Level) (names : List OsString) (e : Entry)
    (hsound : e.Sound) (h : found ∈ entriesAt t levels names e) :
    ∃ below f, found = (names ++ below, kindOf f) ∧ e.get? below = some f := by
  match e with
  | .file _ | .link _ =>
    rw [entriesAt, List.mem_singleton] at h
    exact ⟨[], _, by rw [h, List.append_nil]; rfl, rfl⟩
  | .directory children =>
    rw [entriesAt, List.mem_cons] at h
    rcases h with rfl | h
    · exact ⟨[], _, by rw [List.append_nil]; rfl, rfl⟩
    · cases hsound with
      | directory hdistinct _ hbelow =>
        obtain ⟨c, hc, below, f, rfl, hget⟩ := get?_of_mem_entriesAmong _ names children hbelow h
        refine ⟨c.1 :: below, f, by rw [List.append_assoc]; rfl, ?_⟩
        rw [Entry.get?_cons, Entry.lookup_of_mem hdistinct hc, Option.bind_some, hget]

theorem get?_of_mem_entriesAmong (levels : List Level) (names : List OsString)
    (children : List (OsString × Entry)) (hsound : ∀ c ∈ children, c.2.Sound)
    (h : found ∈ entriesAmong t levels names children) :
    ∃ c ∈ children, ∃ below f,
      found = (names ++ [c.1] ++ below, kindOf f) ∧ c.2.get? below = some f := by
  match children with
  | [] =>
    rw [entriesAmong] at h
    cases h
  | (name, e) :: rest =>
    obtain ⟨he, hrest⟩ := List.forall_mem_cons.1 hsound
    rw [entriesAmong, List.mem_append] at h
    rcases h with h | h
    · split at h
      · cases h
      · exact ⟨_, List.mem_cons_self, get?_of_mem_entriesAt levels _ e he h⟩
    · obtain ⟨c, hc, hfound⟩ := get?_of_mem_entriesAmong levels names rest hrest h
      exact ⟨c, List.mem_cons_of_mem _ hc, hfound⟩

end

theorem mem_entriesAmong_iff {children : List (OsString × Entry)} :
    found ∈ entriesAmong t levels names children ↔
      ∃ c ∈ children,
        Level.verdictOf? levels (names ++ [c.1]) c.2.isDirectory ≠ some .ignored ∧
          found ∈ entriesAt t levels (names ++ [c.1]) c.2 := by
  induction children with
  | nil => simp [entriesAmong]
  | cons c rest ih =>
    simp only [entriesAmong, List.mem_append, ih, List.mem_cons, exists_eq_or_imp]
    refine or_congr_left ?_
    split
    · next hignored => simp [hignored]
    · next hkept => simp [hkept]

/-- What is found behind a child has the name of the child behind the names so far. -/
theorem name_eq_of_append_eq {name other : OsString} {more : List OsString}
    (h : names ++ [name] ++ below = names ++ other :: more) : name = other := by
  rw [List.append_assoc, List.singleton_append] at h
  exact (List.cons.inj (List.append_cancel_left h)).1

/-- The walk comes to what is below a child through the child, if that is kept. -/
theorem mem_entriesAt_child {children : List (OsString × Entry)} {name : OsString} {child : Entry}
    {kind : EntryKind} (hsound : (Entry.directory children).Sound)
    (hchild : children.lookup name = some child) :
    (names ++ name :: below, kind) ∈
        entriesAt t (Level.above t names) names (.directory children) ↔
      t.ignoreVerdict? lineVerdict? (names ++ [name]) child.isDirectory ≠ some .ignored ∧
        (names ++ [name] ++ below, kind) ∈
          entriesAt t (Level.above t (names ++ [name])) (names ++ [name]) child := by
  have hpath : names ++ [name] ++ below = names ++ name :: below := by
    rw [List.append_assoc, List.singleton_append]
  have hself : (names ++ name :: below, kind) ≠ (names, .directory) := by
    intro h
    have hnames := congrArg List.length (congrArg Prod.fst h)
    simp only [List.length_append, List.length_cons] at hnames
    omega
  rw [entriesAt, List.mem_cons, or_iff_right hself, mem_entriesAmong_iff,
    ← FileTree.above_concat t names name, hpath, ← FileTree.verdictOf?_above]
  constructor
  · rintro ⟨⟨other, e⟩, hc, hkept, hfound⟩
    cases hsound with
    | directory hdistinct _ hbelow =>
      obtain ⟨_, _, hsame, -⟩ := get?_of_mem_entriesAt _ _ e (hbelow _ hc) hfound
      obtain rfl : other = name := name_eq_of_append_eq (congrArg Prod.fst hsame).symm
      obtain rfl := Option.some.inj (hchild.symm.trans (Entry.lookup_of_mem hdistinct hc))
      exact ⟨hkept, hfound⟩
  · rintro ⟨hkept, hfound⟩
    exact ⟨(name, child), Entry.mem_of_lookup hchild, hkept, hfound⟩

theorem isDirectory_of_get? {e : Entry} {content : Content}
    (h : e.get? below = some (.file content)) : e.isDirectory = (below != []) := by
  cases below with
  | nil =>
    cases h
    rfl
  | cons n ns =>
    obtain ⟨children, -, rfl, -⟩ := Entry.exists_of_get?_cons h
    rfl

/-- The walk comes to the files that are kept. -/
theorem mem_entriesAt_iff {e : Entry} (hsound : e.Sound) :
    (names ++ below, .file) ∈ entriesAt t (Level.above t names) names e ↔
      (∃ content, e.get? below = some (.file content)) ∧ t.Keeps lineVerdict? names below := by
  have hfile (h : (names ++ below, .file) ∈ entriesAt t (Level.above t names) names e) :
      ∃ content, e.get? below = some (.file content) := by
    obtain ⟨_, f, hsame, hget⟩ := get?_of_mem_entriesAt _ names e hsound h
    obtain ⟨content, rfl⟩ := exists_of_kindOf (congrArg Prod.snd hsame).symm
    exact ⟨content, List.append_cancel_left (congrArg Prod.fst hsame) ▸ hget⟩
  rw [← and_iff_right_of_imp hfile]
  refine and_congr_right fun hget => ?_
  obtain ⟨content, hget⟩ := hget
  clear hfile
  -- down the names, one child after the other
  induction below generalizing names e with
  | nil =>
    cases hget
    rw [List.append_nil, entriesAt]
    exact iff_of_true (List.mem_singleton_self _) (List.forall_mem_nil _)
  | cons n ns ih =>
    obtain ⟨children, child, rfl, hchild, hbelow⟩ := Entry.exists_of_get?_cons hget
    have hdirectory := isDirectory_of_get? hbelow
    rw [mem_entriesAt_child hsound hchild, ih (hsound.lookup hchild).2 hbelow, hdirectory,
      FileTree.keeps_cons]

mutual

/-- The walk comes to no place twice. -/
theorem nodup_entriesAt (levels : List Level) (names : List OsString) (e : Entry)
    (hsound : e.Sound) : ((entriesAt t levels names e).map Prod.fst).Nodup := by
  match e with
  | .file _ | .link _ =>
    rw [entriesAt]
    exact List.nodup_singleton _
  | .directory children =>
    rw [entriesAt, List.map_cons, List.nodup_cons]
    cases hsound with
    | directory hdistinct _ hbelow =>
      refine ⟨fun hmem => ?_, nodup_entriesAmong _ names children hdistinct hbelow⟩
      -- what is below the directory has more names than the directory
      obtain ⟨x, hx, hself⟩ := List.mem_map.1 hmem
      obtain ⟨c, -, below, f, rfl, -⟩ := get?_of_mem_entriesAmong _ names children hbelow hx
      have hlength := congrArg List.length hself
      simp only [List.length_append, List.length_singleton] at hlength
      omega

theorem nodup_entriesAmong (levels : List Level) (names : List OsString)
    (children : List (OsString × Entry)) (hdistinct : (children.map Prod.fst).Nodup)
    (hsound : ∀ c ∈ children, c.2.Sound) :
    ((entriesAmong t levels names children).map Prod.fst).Nodup := by
  match children with
  | [] =>
    rw [entriesAmong]
    exact List.nodup_nil
  | (name, e) :: rest =>
    obtain ⟨he, hrest⟩ := List.forall_mem_cons.1 hsound
    obtain ⟨hfresh, hdistinct⟩ := List.nodup_cons.1 hdistinct
    have hbehind := nodup_entriesAmong levels names rest hdistinct hrest
    rw [entriesAmong]
    split
    · exact hbehind
    · rw [List.map_append, List.nodup_append]
      refine ⟨nodup_entriesAt levels _ e he, hbehind, fun x hx y hy => ?_⟩
      obtain ⟨_, hmem, rfl⟩ := List.mem_map.1 hx
      obtain ⟨_, hmem', rfl⟩ := List.mem_map.1 hy
      obtain ⟨below, f, rfl, -⟩ := get?_of_mem_entriesAt _ _ e he hmem
      obtain ⟨c, hc, below', f', rfl, -⟩ := get?_of_mem_entriesAmong _ names rest hrest hmem'
      -- the names of two children differ
      intro hsame
      rw [List.append_assoc names [c.1], List.singleton_append] at hsame
      obtain rfl : name = c.1 := name_eq_of_append_eq hsame
      exact hfresh (List.mem_map.2 ⟨c, hc, rfl⟩)

end

end Walk

/-! ## Searching a root -/

/-- A path leads to a directory that this library's walk can search: it is no
    single hyphen, and the ignore files above the directory can be read. -/
structure FileTree.Searches (t : FileTree) (root : OsString) (base : List OsString) : Prop where
  notHyphen : OsPath.components root ≠ [.name ⟨[OsString.hyphen]⟩]
  directory : ∃ children, t.find? root = some (base, .directory children)
  readable : ∀ l ∈ Level.above t base, l.faulty = false

theorem FileTree.exists_directory_iff {t : FileTree} {root : OsString} {base : List OsString} :
    (t.find? root).map (Prod.map id Entry.isDirectory) = some (base, true) ↔
      ∃ children, t.find? root = some (base, .directory children) := by
  constructor
  · intro h
    obtain ⟨⟨names, e⟩, hfind, heq⟩ := Option.map_eq_some_iff.1 h
    cases e with
    | directory children =>
      obtain rfl : names = base := congrArg Prod.fst heq
      exact ⟨children, hfind⟩
    | file _ | link _ => cases heq
  · rintro ⟨children, hfind⟩
    rw [hfind]
    rfl

instance (t : FileTree) (root : OsString) (base : List OsString) :
    Decidable (t.Searches root base) :=
  decidable_of_iff
    (OsPath.components root ≠ [.name ⟨[OsString.hyphen]⟩] ∧
      (t.find? root).map (Prod.map id Entry.isDirectory) = some (base, true) ∧
      ∀ l ∈ Level.above t base, l.faulty = false)
    ⟨fun ⟨hhyphen, hdirectory, hreadable⟩ =>
      ⟨hhyphen, FileTree.exists_directory_iff.1 hdirectory, hreadable⟩,
      fun h => ⟨h.notHyphen, FileTree.exists_directory_iff.2 h.directory, h.readable⟩⟩

namespace IgnoreLibrary

variable {t : FileTree} {root : OsString} {base : List OsString}

/-- The paths of the files that a walk from a directory comes to. -/
theorem filesOf_below (entries : List (List OsString × EntryKind)) :
    filesOf (entries.map fun found => some (.below root base found)) =
      (entries.filter (·.2 = .file)).map
        fun found => (found.1.drop base.length).foldl OsPath.join root := by
  induction entries with
  | nil => rfl
  | cons x xs ih =>
    rw [filesOf] at ih ⊢
    rw [List.map_cons, List.reduceOption_cons_of_some, List.filter_cons, List.filter_cons]
    obtain ⟨names, kind⟩ := x
    cases kind with
    | file => exact congrArg _ ih
    | directory | link => exact ih

/-- The walk comes to no path twice. -/
theorem nodup_filesOf {children : List (OsString × Entry)} (hroot : root ≠ .empty)
    (hsound : (Entry.directory children).Sound) (levels : List Level) :
    (filesOf ((entriesAt t levels base (.directory children)).map
      fun found => some (.below root base found))).Nodup := by
  have hnamed {below : List OsString} {f : Entry}
      (hget : (Entry.directory children).get? below = some f) : ∀ n ∈ below, OsPath.IsPlain n :=
    fun n hn => ((hsound.get? hget).1 n hn).plain
  have hentries := List.Nodup.of_map _ (nodup_entriesAt (t := t) levels base _ hsound)
  rw [filesOf_below]
  refine (hentries.filter _).map_on fun x hx y hy hsame => ?_
  obtain ⟨hx, hxfile⟩ := List.mem_filter.1 hx
  obtain ⟨hy, hyfile⟩ := List.mem_filter.1 hy
  obtain ⟨below, f, rfl, hget⟩ := get?_of_mem_entriesAt _ base _ hsound hx
  obtain ⟨more, g, rfl, hget'⟩ := get?_of_mem_entriesAt _ base _ hsound hy
  simp only [List.drop_left, decide_eq_true_eq] at hsame hxfile hyfile
  rw [OsPath.eq_of_foldl_join_eq hroot (hnamed hget) (hnamed hget') hsame, hxfile, hyfile]

/-- The walk comes to the paths of the files that are kept. -/
theorem mem_filesOf_iff {children : List (OsString × Entry)} {path : OsString}
    (hsound : (Entry.directory children).Sound) :
    path ∈ filesOf ((entriesAt t (Level.above t base) base (.directory children)).map
        fun found => some (.below root base found)) ↔
      ∃ below content, below.foldl OsPath.join root = path ∧
        (Entry.directory children).get? below = some (.file content) ∧
          t.Keeps lineVerdict? base below := by
  rw [filesOf_below, List.mem_map]
  constructor
  · rintro ⟨⟨names, kind⟩, hmem, rfl⟩
    obtain ⟨hmem, hkind⟩ := List.mem_filter.1 hmem
    obtain rfl : kind = .file := of_decide_eq_true hkind
    obtain ⟨below, f, hnames, -⟩ := get?_of_mem_entriesAt _ base _ hsound hmem
    obtain rfl : names = base ++ below := congrArg Prod.fst hnames
    obtain ⟨⟨content, hget⟩, hkeeps⟩ := (mem_entriesAt_iff hsound).1 hmem
    refine ⟨below, content, ?_, hget, hkeeps⟩
    rw [List.drop_left]
  · rintro ⟨below, content, rfl, hget, hkeeps⟩
    have hmem := (mem_entriesAt_iff hsound).2 ⟨⟨content, hget⟩, hkeeps⟩
    refine ⟨_, List.mem_filter.2 ⟨hmem, decide_eq_true rfl⟩, ?_⟩
    rw [List.drop_left]

/-- The walk of this library does what is documented. -/
theorem walks_standard (hsound : t.root.Sound) (h : t.Searches root base) :
    IgnoreLibrary.standard.Walks lineVerdict? (fun _ _ => none) t root base := by
  obtain ⟨hhyphen, ⟨children, hfind⟩, hreadable⟩ := h
  have hfaultless : (Level.above t base).any (·.faulty) = false :=
    List.any_eq_false.2 fun l hl => by rw [hreadable l hl]; decide
  have hbase := (FileTree.way_of_locate (FileTree.locate_of_find? hfind)).get?_found
  have hdirectory := (hsound.get? hbase).2
  have hwalk : standard.walk t root =
      (entriesAt t (Level.above t base) base (.directory children)).map
        fun found => some (.below root base found) := by
    show Ignore.walk t root = _
    rw [Ignore.walk, if_neg hhyphen, hfind]
    simp only [Entry.isDirectory, if_true, hfaultless, Bool.false_eq_true, if_false,
      List.nil_append]
  have huser (below : List OsString) :
      ¬ t.IgnoredByUser lineVerdict? (fun _ _ => none) base below := by
    rintro ⟨_, -, -, ⟨⟩⟩
  refine ⟨?_, ?_, fun path => ?_⟩
  · rw [hwalk]
    simp
  · rw [hwalk]
    exact nodup_filesOf (FileTree.ne_empty_of_find? hfind) hdirectory _
  · rw [hwalk, mem_filesOf_iff hdirectory]
    simp only [Entry.get?_append, hbase, Option.bind_some, huser, not_false_eq_true, and_true]

end IgnoreLibrary

end CrossRef
