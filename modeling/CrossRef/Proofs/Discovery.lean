/-
  CrossRef.Proofs.Discovery

  Identifiers of loaded files (`load_ids`). An identifier spells the way to its
  file from a base, which is the root for files named by absolute paths, the
  current directory for files named by relative ones, and the directory itself
  for files found below it, whatever walk has found them. So files have
  different identifiers unless their bases are different directories or a name
  is no text, of which an identifier does not show every byte.
-/
import CrossRef.Discovery
import CrossRef.Ignore.Walk
import CrossRef.Proofs.FileTree.Write
import CrossRef.Proofs.Job.Corpus
import Mathlib.Data.List.ReduceOption

namespace CrossRef

open OsString Ignore

/-! ## Ways to what is found -/

namespace FileTree

variable {t : FileTree} {root path : OsString} {base names : List OsString} {e f : Entry}

/-- Where the way of a path starts. -/
def startOf (t : FileTree) (path : OsString) : List OsString :=
  if OsPath.isAbsolute path then [] else t.current

theorem ne_empty_of_find? {place : List OsString × Entry} (h : t.find? path = some place) :
    path ≠ .empty := by
  rintro rfl
  cases h

theorem locate_of_find? (h : t.find? path = some (names, e)) :
    t.locate path = .ok (.found names e) := by
  rw [find?] at h
  split at h
  · next hplace =>
    cases h
    exact hplace
  · cases h

/-- The steps of a path lead where the path does. -/
theorem way_of_find? (h : t.find? path = some (names, e)) :
    Way t linkLimit (t.startOf path) ((OsPath.components path).filterMap OsPath.stepPiece?)
      (.found names e) := by
  rw [OsPath.filterMap_stepPiece?_components]
  exact (way_of_locate (locate_of_find? h)).drop
    (.filter OsPath.counts OsPath.blank_of_counts_eq_false _)

/-- What stands behind a directory in a path leads from the directory where the
    path leads. -/
theorem way_of_relativeTo? {steps : List (Path.Component OsString)}
    (hroot : t.find? root = some (base, e)) (hpath : t.find? path = some (names, f))
    (hsteps : OsPath.relativeTo? root path = some steps) :
    Way t linkLimit base (steps.filterMap OsPath.stepPiece?) (.found names f) ∧ .root ∉ steps := by
  have hfilled := OsPath.components_ne_nil (ne_empty_of_find? hroot)
  rw [OsPath.relativeTo?] at hsteps
  split at hsteps
  · next hprefix =>
    cases hsteps
    obtain ⟨steps, hcomponents⟩ := hprefix
    rw [← hcomponents, List.drop_left]
    obtain ⟨c, cs, hroots⟩ := List.exists_cons_of_ne_nil hfilled
    constructor
    · have hstart : t.startOf path = t.startOf root := by
        have hsame : OsPath.isAbsolute path = OsPath.isAbsolute root := by
          rw [Bool.eq_iff_iff, OsPath.isAbsolute_iff_components, OsPath.isAbsolute_iff_components,
            ← hcomponents, hroots]
          rfl
        rw [startOf, startOf, hsame]
      have hall := way_of_find? hpath
      rw [hstart, ← hcomponents, List.filterMap_append] at hall
      obtain ⟨left, hleft, hway⟩ := (way_of_find? hroot).behind hall
      exact hway.mono hleft
    · intro hmem
      have htail : .root ∈ (OsPath.components path).tail := by
        rw [← hcomponents, hroots]
        exact List.mem_append_right cs hmem
      exact (OsPath.mem_tail_components htail).1 rfl
  · cases hsteps

end FileTree

/-! ## Identifiers -/

/-- What identifiers are relative to: the root, for absolute paths, or a directory. -/
inductive Base where
  | absolute
  | below (directory : List OsString)
deriving DecidableEq, Repr

namespace Base

/-- The names from the root to where the way starts. -/
def start : Base → List OsString
  | absolute => []
  | below directory => directory

/-- The identifier of what a row of names leads to. -/
def idOf : Base → List OsString → String
  | absolute, ps => "/".intercalate ("" :: ps.map lossy)
  | below _, ps => "/".intercalate (ps.map lossy)

end Base

/-- The base of the identifiers of what a path leads to. -/
def FileTree.base? (t : FileTree) (path : OsString) : Option Base :=
  match t.find? path with
  | some (names, .directory _) => some (.below names)
  | some (_, .file _) => some (if OsPath.isAbsolute path then .absolute else .below t.current)
  | _ => none

/-- A loaded file whose identifier spells the way to it from a base. -/
structure LoadedFile.SpelledBy (t : FileTree) (b : Base) (ps : List OsString) (f : LoadedFile) :
    Prop where
  id : f.source.id = b.idOf ps
  pieces : ps ≠ []
  named : ∀ p ∈ ps, p ≠ .empty ∧ slash ∉ p.bytes
  way : FileTree.Way t FileTree.linkLimit b.start ps
    (.found f.location (.file (.text f.source.text)))

/-- The identifier of a file spells the way to it from the base of a path, and
    all names on this way are texts. -/
def LoadedFile.TextNamed (t : FileTree) (path : OsString) (f : LoadedFile) : Prop :=
  ∃ b ps, t.base? path = some b ∧ f.SpelledBy t b ps ∧ ∀ p ∈ ps, p.IsText

namespace LoadedFile.SpelledBy

variable {t : FileTree} {b : Base} {ps qs : List OsString} {f g : LoadedFile}

theorem unslashed (h : f.SpelledBy t b ps) (htext : ∀ p ∈ ps, p.IsText) :
    Path.Unslashed (ps.map lossy) := by
  intro p hp
  obtain ⟨q, hq, rfl⟩ := List.mem_map.1 hp
  exact (htext q hq).slash_not_mem (h.named q hq).2

theorem texts_ne_nil (h : f.SpelledBy t b ps) : ps.map lossy ≠ [] := fun hnil =>
  h.pieces (List.map_eq_nil_iff.1 hnil)

/-- From one base, one identifier leads to one file. -/
theorem unique (hf : f.SpelledBy t b ps) (hg : g.SpelledBy t b qs) (hps : ∀ p ∈ ps, p.IsText)
    (hqs : ∀ q ∈ qs, q.IsText) (hid : f.source.id = g.source.id) : f = g := by
  have hspelling : b.idOf ps = b.idOf qs := by rw [← hf.id, hid, hg.id]
  have hpieces : ps = qs := by
    apply eq_of_map_lossy hps hqs
    cases b with
    | absolute =>
      have hempty : '/' ∉ "".toList := List.not_mem_nil
      have heq := Path.eq_of_intercalate_eq (List.cons_ne_nil _ _) (List.cons_ne_nil _ _)
        (List.forall_mem_cons.2 ⟨hempty, hf.unslashed hps⟩)
        (List.forall_mem_cons.2 ⟨hempty, hg.unslashed hqs⟩) hspelling
      exact (List.cons.inj heq).2
    | below directory =>
      exact Path.eq_of_intercalate_eq hf.texts_ne_nil hg.texts_ne_nil (hf.unslashed hps)
        (hg.unslashed hqs) hspelling
  injection hf.way.unique (hpieces ▸ hg.way) with hlocation hentry
  injection hentry with hcontent
  injection hcontent with htext
  obtain ⟨location, id, text⟩ := f
  obtain ⟨location', id', text'⟩ := g
  obtain rfl : location = location' := hlocation
  obtain rfl : text = text' := htext
  obtain rfl : id = id' := hid
  rfl

/-- Only absolute identifiers begin with a slash. -/
theorem ne_of_absolute {directory : List OsString} (hf : f.SpelledBy t .absolute ps)
    (hg : g.SpelledBy t (.below directory) qs) (hps : ∀ p ∈ ps, p.IsText)
    (hqs : ∀ q ∈ qs, q.IsText) : f.source.id ≠ g.source.id := by
  intro hid
  have hspelling : "/".intercalate ("" :: ps.map lossy) = "/".intercalate (qs.map lossy) := by
    rw [← Base.idOf, ← Base.idOf, ← hf.id, hid, hg.id]
  have hempty : '/' ∉ "".toList := List.not_mem_nil
  have heq := Path.eq_of_intercalate_eq (List.cons_ne_nil _ _) hg.texts_ne_nil
    (List.forall_mem_cons.2 ⟨hempty, hf.unslashed hps⟩) (hg.unslashed hqs) hspelling
  obtain ⟨q, hq, hnothing⟩ := List.mem_map.1 (heq ▸ List.mem_cons_self)
  exact (hqs q hq).lossy_ne_empty (hg.named q hq).1 hnothing

end LoadedFile.SpelledBy

/-! ## Loading -/

theorem LoadedFile.find?_of_read? {t : FileTree} {id : String} {path : OsString} {f : LoadedFile}
    (h : f ∈ LoadedFile.read? t id path) :
    t.find? path = some (f.location, .file (.text f.source.text)) ∧ f.source.id = id := by
  rw [LoadedFile.read?] at h
  split at h
  · next hfind =>
    cases h
    exact ⟨hfind, rfl⟩
  · cases h

namespace Selection

variable {patterns : PatternLibrary} {s : Selection patterns} {lib : IgnoreLibrary} {t : FileTree}
  {path : OsString}

/-- The names of steps count and stand between slashes. -/
theorem named_of_steps {steps : List (Path.Component OsString)}
    (hsteps : ∀ c ∈ steps, c ∈ OsPath.components path) :
    ∀ p ∈ steps.filterMap OsPath.stepPiece?, p ≠ .empty ∧ slash ∉ p.bytes := by
  intro p hp
  obtain ⟨c, hc, hpiece⟩ := List.mem_filterMap.1 hp
  have hmem := List.mem_filterMap.2 ⟨c, hsteps c hc, hpiece⟩
  rw [OsPath.filterMap_stepPiece?_components] at hmem
  obtain ⟨hpieces, hcounts⟩ := List.mem_filter.1 hmem
  refine ⟨?_, OsPath.unslashed_pieces path p hpieces⟩
  rintro rfl
  cases hcounts

/-- No way without names leads from a directory to a file. -/
theorem pieces_ne_nil_of_way {links : Nat} {here ps names : List OsString} {content : Content}
    {children : List (OsString × Entry)} (hhere : t.root.get? here = some (.directory children))
    (hway : FileTree.Way t links here ps (.found names (.file content))) : ps ≠ [] := by
  rintro rfl
  cases hway with
  | stop hfile => cases hfile.symm.trans hhere

/-- A file that is named has its path as its identifier. -/
theorem spelledBy_of_file {f : LoadedFile}
    (hf : f ∈ LoadedFile.read? t (OsPath.identifier (OsPath.components path)) path) :
    f.SpelledBy t (if OsPath.isAbsolute path then .absolute else .below t.current)
      ((OsPath.components path).filterMap OsPath.stepPiece?) := by
  obtain ⟨hfile, hid⟩ := LoadedFile.find?_of_read? hf
  have hway := FileTree.way_of_find? hfile
  obtain ⟨children, hstart⟩ := (FileTree.way_of_locate
    (FileTree.locate_of_find? hfile)).exists_directory (OsPath.pieces_ne_nil path)
  refine ⟨?_, pieces_ne_nil_of_way hstart hway, named_of_steps fun c hc => hc, ?_⟩
  · rw [hid, OsPath.identifier_components]
    split
    all_goals rfl
  · rw [FileTree.startOf] at hway
    split
    · next habsolute =>
      rw [if_pos habsolute] at hway
      exact hway
    · next hrelative =>
      rw [if_neg hrelative] at hway
      exact hway

/-- What a walk comes to if it does not fail. -/
theorem mapM_elim {α : Type} [DecidableEq α] (e : Error) (as : List (Option α)) :
    as.mapM (fun a => a.elim (Except.error e) Except.ok) =
      if none ∈ as then .error e else .ok as.reduceOption := by
  induction as with
  | nil => rfl
  | cons a as ih =>
    rw [List.mapM_cons, ih]
    cases a with
    | none => rfl
    | some a =>
      have hsame : (none ∈ some a :: as) = (none ∈ as) := by simp
      simp only [hsame]
      split
      all_goals rfl

/-- A search fails if the walk does; otherwise it sorts what takes part. -/
theorem discover_eq (s : Selection patterns) (lib : IgnoreLibrary) (t : FileTree)
    (root : OsString) :
    s.discover lib t root =
      if none ∈ lib.walk t root then .error .walk
      else .ok (Keyed.sortBy FoundFile.le ((lib.walk t root).reduceOption.filterMap
        (s.found? (IgnoreFilter.ofRoot lib t root s.excluded) root))) := by
  rw [discover, mapM_elim]
  split
  all_goals rfl

/-- What takes part has the identifier of what stands behind the root in its path. -/
theorem found?_eq_some_iff {filter : IgnoreFilter lib} {root : OsString} {entry : Ignore.WalkEntry}
    {f : FoundFile} :
    s.found? filter root entry = some f ↔
      entry.kind = some .file ∧ entry.path = f.path ∧ filter.ignores f.path false = false ∧
        (∃ steps, OsPath.relativeTo? root f.path = some steps ∧ OsPath.identifier steps = f.id) ∧
        s.includes f.id = true := by
  obtain ⟨path, kind⟩ := entry
  obtain ⟨id, path'⟩ := f
  constructor
  · intro h
    rw [found?] at h
    split at h
    · cases h
    · next hfile =>
      rw [not_or, not_not, Bool.not_eq_true] at hfile
      split at h
      · cases h
      · next steps hsteps =>
        split at h
        · next hincludes =>
          cases h
          exact ⟨hfile.1, rfl, hfile.2, ⟨steps, hsteps, rfl⟩, hincludes⟩
        · cases h
  · rintro ⟨rfl, rfl, hkept, ⟨steps, hsteps, rfl⟩, hincludes⟩
    have hfile : ¬ (some EntryKind.file ≠ some .file ∨ filter.ignores path false = true) := by
      rw [hkept]
      decide
    rw [found?, if_neg hfile, hsteps]
    exact if_pos hincludes

theorem mem_of_discover {root : OsString} {found : List FoundFile}
    (h : s.discover lib t root = .ok found) {f : FoundFile} :
    f ∈ found ↔ ∃ entry, some entry ∈ lib.walk t root ∧
      s.found? (IgnoreFilter.ofRoot lib t root s.excluded) root entry = some f := by
  rw [discover_eq] at h
  split at h
  · cases h
  · cases h
    rw [(Keyed.sortBy_perm _ _).mem_iff, List.mem_filterMap]
    simp only [List.reduceOption_mem_iff]

/-- A file that is found has its names below the directory as its identifier. -/
theorem exists_spelledBy_of_found {root : OsString} {base : List OsString}
    {children : List (OsString × Entry)} (hroot : t.find? root = some (base, .directory children))
    {found : List FoundFile} (hfound : s.discover lib t root = .ok found) {file : FoundFile}
    (hfile : file ∈ found) {f : LoadedFile} (hf : f ∈ LoadedFile.read? t file.id file.path) :
    ∃ ps, f.SpelledBy t (.below base) ps := by
  obtain ⟨entry, -, hentry⟩ := (mem_of_discover hfound).1 hfile
  obtain ⟨-, -, -, ⟨steps, hsteps, hid⟩, -⟩ := found?_eq_some_iff.1 hentry
  obtain ⟨hread, hsame⟩ := LoadedFile.find?_of_read? hf
  obtain ⟨hway, hnone⟩ := FileTree.way_of_relativeTo? hroot hread hsteps
  have hbase := (FileTree.way_of_locate (FileTree.locate_of_find? hroot)).get?_found
  have hbehind : ∀ c ∈ steps, c ∈ OsPath.components file.path := by
    rw [OsPath.relativeTo?] at hsteps
    split at hsteps
    · cases hsteps
      exact fun c hc => List.mem_of_mem_drop hc
    · cases hsteps
  refine ⟨steps.filterMap OsPath.stepPiece?, ?_, pieces_ne_nil_of_way hbase hway,
    named_of_steps hbehind, hway⟩
  rw [hsame, ← hid, OsPath.identifier, OsPath.filterMap_stepText? hnone]
  rfl

/-- A path leads to files whose identifiers are spelled from its base. -/
theorem exists_spelledBy {files : List LoadedFile} (hload : s.loadPath lib t path = .ok files)
    {f : LoadedFile} (hf : f ∈ files) :
    ∃ b ps, t.base? path = some b ∧ f.SpelledBy t b ps := by
  rw [loadPath] at hload
  split at hload
  · next base children hfind =>
    rw [FileTree.base?, hfind]
    cases hfound : s.discover lib t path with
    | error e =>
      rw [hfound] at hload
      cases hload
    | ok found =>
      rw [hfound] at hload
      cases hload
      obtain ⟨file, hfile, hf⟩ := List.mem_filterMap.1 hf
      obtain ⟨ps, hspelled⟩ := exists_spelledBy_of_found hfind hfound hfile hf
      exact ⟨_, ps, rfl, hspelled⟩
  · next names content hfind =>
    rw [FileTree.base?, hfind]
    cases hload
    exact ⟨_, _, rfl, spelledBy_of_file (Option.mem_toList.1 hf)⟩
  · cases hload

/-- A file is among those that a path leads to. -/
def Loads (s : Selection patterns) (lib : IgnoreLibrary) (t : FileTree) (path : OsString)
    (f : LoadedFile) : Prop :=
  ∃ files, s.loadPath lib t path = .ok files ∧ f ∈ files

theorem exists_of_mem_mapM {α β ε : Type} {g : α → Except ε β} {as : List α} {bs : List β}
    (h : as.mapM g = .ok bs) {b : β} (hb : b ∈ bs) : ∃ a ∈ as, g a = .ok b := by
  induction as generalizing bs with
  | nil =>
    cases h
    cases hb
  | cons a as ih =>
    rw [List.mapM_cons] at h
    cases hfirst : g a with
    | error e =>
      rw [hfirst] at h
      cases h
    | ok c =>
      cases hrest : as.mapM g with
      | error e =>
        rw [hfirst, hrest] at h
        cases h
      | ok cs =>
        rw [hfirst, hrest] at h
        cases h
        rcases List.mem_cons.1 hb with rfl | hb
        · exact ⟨a, List.mem_cons_self, hfirst⟩
        · obtain ⟨a', ha', hg⟩ := ih hrest hb
          exact ⟨a', List.mem_cons_of_mem _ ha', hg⟩

/-- Whatever is loaded comes from one of the paths. -/
theorem exists_loads {paths : List OsString} {files : List LoadedFile}
    (hload : s.load lib t paths = .ok files) {f : LoadedFile} (hf : f ∈ files) :
    ∃ path ∈ paths, s.Loads lib t path f := by
  rw [load] at hload
  cases hparts : paths.mapM (s.loadPath lib t) with
  | error e =>
    rw [hparts] at hload
    cases hload
  | ok parts =>
    rw [hparts] at hload
    cases hload
    obtain ⟨part, hpart, hf⟩ := List.mem_flatten.1 hf
    obtain ⟨path, hpath, hpartOf⟩ := exists_of_mem_mapM hparts hpart
    exact ⟨path, hpath, part, hpartOf, hf⟩

end Selection

/-- Whether the identifiers of what two paths lead to are not relative to
    different directories. -/
def FileTree.comparable? (t : FileTree) (p q : OsString) : Bool :=
  match t.base? p, t.base? q with
  | some (.below a), some (.below b) => a == b
  | _, _ => true

/-- Two files have the same names below different directories. -/
def LoadedFile.SameNames (t : FileTree) (p q : OsString) (f g : LoadedFile) : Prop :=
  ∃ a b ps, a ≠ b ∧ t.base? p = some (.below a) ∧ f.SpelledBy t (.below a) ps ∧
    t.base? q = some (.below b) ∧ g.SpelledBy t (.below b) ps

namespace LoadedFile.TextNamed

variable {t : FileTree} {p q : OsString} {f g : LoadedFile}

/-- Two files of one identifier have the same names below different directories,
    if all names are texts. -/
theorem eq_or_sameNames (hf : f.TextNamed t p) (hg : g.TextNamed t q)
    (hid : f.source.id = g.source.id) : f = g ∨ f.SameNames t p q g := by
  obtain ⟨a, ps, ha, hf, hps⟩ := hf
  obtain ⟨b, qs, hb, hg, hqs⟩ := hg
  match a, b with
  | .absolute, .absolute => exact .inl (hf.unique hg hps hqs hid)
  | .absolute, .below _ => exact absurd hid (hf.ne_of_absolute hg hps hqs)
  | .below _, .absolute => exact absurd hid.symm (hg.ne_of_absolute hf hqs hps)
  | .below a, .below b =>
    by_cases hab : a = b
    · subst hab
      exact .inl (hf.unique hg hps hqs hid)
    · have hspelling : (Base.below a).idOf ps = (Base.below b).idOf qs := by
        rw [← hf.id, hid, hg.id]
      obtain rfl : ps = qs := OsString.eq_of_map_lossy hps hqs
        (Path.eq_of_intercalate_eq hf.texts_ne_nil hg.texts_ne_nil (hf.unslashed hps)
          (hg.unslashed hqs) hspelling)
      exact .inr ⟨a, b, ps, hab, ha, hf, hb, hg⟩

/-- Files of comparable paths are one file if their identifiers are the same. -/
theorem eq_of_id_eq (hf : f.TextNamed t p) (hg : g.TextNamed t q)
    (hcomparable : t.comparable? p q = true) (hid : f.source.id = g.source.id) : f = g := by
  obtain heq | ⟨a, b, -, hab, hp, -, hq, -⟩ := hf.eq_or_sameNames hg hid
  · exact heq
  · rw [FileTree.comparable?, hp, hq] at hcomparable
    exact absurd (beq_iff_eq.1 hcomparable) hab

end LoadedFile.TextNamed

/-! ## Reports on loaded files -/

/-- A report shows a file with the declarations of its own text. -/
def Report.Shows (r : Report) (registry : Registry) (f : LoadedFile) : Prop :=
  ∃ report ∈ r.files, report.file = f.source.id ∧
    report.declarations = (registry.analyze f.source.id f.source.text).declarations.toList

namespace Job

variable {registry : Registry} {options : JobOptions} {files : List LoadedFile}

theorem firsts_map_source (files : List LoadedFile) :
    Keyed.firsts (·.id) (files.map (·.source)) =
      (Keyed.firsts (·.source.id) files).map (·.source) := by
  induction files with
  | nil => rfl
  | cons f files ih =>
    rw [List.map_cons, Keyed.firsts, ih, List.filter_map, Keyed.firsts, List.map_cons]
    rfl

/-- A report has the identifier of every loaded file once. -/
theorem perm_files_run (registry : Registry) (options : JobOptions) (files : List LoadedFile) :
    ((run registry options (files.map (·.source))).files.map (·.file)).Perm
      ((Keyed.firsts (·.source.id) files).map (·.source.id)) := by
  have hids := nodup_analyzeAll registry (files.map (·.source))
  have hanalyzed : (analyzeAll registry (files.map (·.source))).map (·.file) =
      (Keyed.firsts (·.source.id) files).map (·.source.id) := by
    rw [analyzeAll, firsts_map_source, List.map_map, List.map_map]
    rfl
  have hperm := files_ordering_reportOn hids options
  rw [← map_file_files_reportOn hids options, hanalyzed] at hperm
  exact hperm

/-- Of the files loaded with one identifier the first is shown. -/
theorem shows_of_mem_firsts {f : LoadedFile} (hf : f ∈ Keyed.firsts (·.source.id) files) :
    (run registry options (files.map (·.source))).Shows registry f := by
  have hids := nodup_analyzeAll registry (files.map (·.source))
  have hanalyzed : ⟨f.source.id, registry.analyze f.source.id f.source.text⟩ ∈
      analyzeAll registry (files.map (·.source)) := by
    rw [analyzeAll, firsts_map_source, List.map_map]
    exact List.mem_map_of_mem hf
  have hreport := (perm_files_reportOn hids options).mem_iff.2 (List.mem_map_of_mem hanalyzed)
  exact ⟨_, hreport, rfl, rfl⟩

end Job

/-- The identifier of a loaded file spells the way to it from the base of the
    path it was loaded from. Different files have different identifiers unless
    they have the same names below different directories, or a name on the way to
    one of them is no text. If no two of the paths have different directories for
    bases and all names are texts, a report shows every loaded file; in any case
    it has every identifier once, for the first file loaded with it. -/
theorem load_ids {patterns : PatternLibrary} {s : Selection patterns} {lib : IgnoreLibrary}
    {t : FileTree} {paths : List OsString} {files : List LoadedFile}
    (hload : s.load lib t paths = .ok files) :
    (∀ f ∈ files, ∃ path ∈ paths, s.Loads lib t path f) ∧
    (∀ path f, s.Loads lib t path f → ∃ b ps, t.base? path = some b ∧ f.SpelledBy t b ps) ∧
    (∀ p q f g, s.Loads lib t p f → s.Loads lib t q g → f.location ≠ g.location →
      f.source.id ≠ g.source.id ∨ f.SameNames t p q g ∨ ¬ f.TextNamed t p ∨ ¬ g.TextNamed t q) ∧
    ∀ (registry : Registry) (options : JobOptions),
      let r := Job.run registry options (files.map (·.source))
      ((∀ p ∈ paths, ∀ q ∈ paths, t.comparable? p q = true) →
        (∀ p ∈ paths, ∀ f, s.Loads lib t p f → f.TextNamed t p) → ∀ f ∈ files, r.Shows registry f) ∧
      (r.files.map (·.file)).Perm ((Keyed.firsts (·.source.id) files).map (·.source.id)) ∧
      ∀ f ∈ Keyed.firsts (·.source.id) files, r.Shows registry f := by
  refine ⟨fun f hf => Selection.exists_loads hload hf, ?_, ?_, fun registry options =>
    ⟨fun hcomparable htexts f hf => ?_, Job.perm_files_run registry options files,
      fun f hf => Job.shows_of_mem_firsts hf⟩⟩
  · rintro path f ⟨loaded, hpath, hf⟩
    exact Selection.exists_spelledBy hpath hf
  · intro p q f g _ _ hlocation
    by_cases hid : f.source.id = g.source.id
    · by_cases htexts : f.TextNamed t p ∧ g.TextNamed t q
      · obtain heq | hsame := htexts.1.eq_or_sameNames htexts.2 hid
        · exact absurd (congrArg (·.location) heq) hlocation
        · exact .inr (.inl hsame)
      · exact .inr (.inr (not_and_or.1 htexts))
    · exact .inl hid
  · obtain ⟨g, hg, hid⟩ := Keyed.exists_mem_firsts (·.source.id) hf
    obtain ⟨p, hp, hfrom⟩ := Selection.exists_loads hload hf
    obtain ⟨q, hq, hgfrom⟩ := Selection.exists_loads hload (Keyed.firsts_subset _ files hg)
    obtain rfl : g = f := (htexts q hq g hgfrom).eq_of_id_eq (htexts p hp f hfrom)
      (hcomparable q hq p hp) hid
    exact Job.shows_of_mem_firsts hg

/-- The selection of a job without patterns. -/
def pythonFiles : Selection .standard where
  included :=
    [FilePattern.mk [.directories, .star, .literal '.', .literal 'p', .literal 'y'],
      FilePattern.mk [.directories, .star, .literal '.', .literal 'p', .literal 'y', .literal 'i']]
  excluded := []

theorem parse_nil : Selection.parse .standard [] [] = .ok pythonFiles := by rfl

/-- Two files of one name in different directories. -/
def sameNames : FileTree :=
  ((FileTree.empty ["w"]).withText ["w", "a", "m.py"] "x = 1\n").withText ["w", "b", "m.py"]
    "y = 2\n"

theorem eq_ok_of_toOption {ε α : Type} {x : Except ε α} {a : α} (h : x.toOption = some a) :
    x = .ok a := by
  cases x with
  | error e => cases h
  | ok b => exact congrArg Except.ok (Option.some.inj h)

theorem LoadedFile.SpelledBy.textNamed {t : FileTree} {path : OsString} {b : Base}
    {texts : List String} {f : LoadedFile} (h : f.SpelledBy t b (texts.map ofText))
    (hbase : t.base? path = some b) : f.TextNamed t path :=
  ⟨b, texts.map ofText, hbase, h, List.forall_mem_map.2 fun text _ => isText_ofText text⟩

/-- The current directory, a file in it and the absolute path of another are
    comparable, so different files have different identifiers and each is shown. -/
theorem load_ids_comparable :
    let a : LoadedFile := ⟨["w", "a", "m.py"], ⟨"a/m.py", "x = 1\n"⟩⟩
    let b : LoadedFile := ⟨["w", "b", "m.py"], ⟨"b/m.py", "y = 2\n"⟩⟩
    let absolute : LoadedFile := ⟨["w", "b", "m.py"], ⟨"/w/b/m.py", "y = 2\n"⟩⟩
    let files := [a, b, a, absolute]
    pythonFiles.load .standard sameNames [".", "./a//m.py", "/w/b/m.py"] = .ok files ∧
      a.source.id ≠ absolute.source.id ∧
      ∀ f ∈ files,
        (Job.run .standard ⟨true, .dependency⟩ (files.map (·.source))).Shows .standard f := by
  intro a b absolute files
  have hload : pythonFiles.load .standard sameNames [".", "./a//m.py", "/w/b/m.py"] = .ok files :=
    eq_ok_of_toOption (by decide +kernel)
  have hhere : pythonFiles.loadPath .standard sameNames "." = .ok [a, b] :=
    eq_ok_of_toOption (by decide +kernel)
  have hfile : pythonFiles.loadPath .standard sameNames "./a//m.py" = .ok [a] :=
    eq_ok_of_toOption (by decide +kernel)
  have habsolute : pythonFiles.loadPath .standard sameNames "/w/b/m.py" = .ok [absolute] :=
    eq_ok_of_toOption (by decide +kernel)
  have hspelledA : a.SpelledBy sameNames (.below ["w"]) (["a", "m.py"].map ofText) :=
    ⟨by decide +kernel, by decide, by decide +kernel, FileTree.way_iff.2 (by rfl)⟩
  have hspelledB : b.SpelledBy sameNames (.below ["w"]) (["b", "m.py"].map ofText) :=
    ⟨by decide +kernel, by decide, by decide +kernel, FileTree.way_iff.2 (by rfl)⟩
  have hspelled : absolute.SpelledBy sameNames .absolute (["w", "b", "m.py"].map ofText) :=
    ⟨by decide +kernel, by decide, by decide +kernel, FileTree.way_iff.2 (by rfl)⟩
  have htexts : ∀ p ∈ [ofText ".", ofText "./a//m.py", ofText "/w/b/m.py"], ∀ f,
      pythonFiles.Loads .standard sameNames p f → f.TextNamed sameNames p := by
    simp only [List.forall_mem_cons]
    refine ⟨?_, ?_, ?_, List.forall_mem_nil _⟩
    all_goals rintro f ⟨loaded, hloaded, hf⟩
    · cases hhere.symm.trans hloaded
      rcases List.mem_pair.1 hf with rfl | rfl
      · exact hspelledA.textNamed (by decide +kernel)
      · exact hspelledB.textNamed (by decide +kernel)
    · cases hfile.symm.trans hloaded
      obtain rfl := List.mem_singleton.1 hf
      exact hspelledA.textNamed (by decide +kernel)
    · cases habsolute.symm.trans hloaded
      obtain rfl := List.mem_singleton.1 hf
      exact hspelled.textNamed (by decide +kernel)
  have hbase : sameNames.base? "/w/b/m.py" = some .absolute := by decide +kernel
  obtain ⟨-, -, hdiffer, hreport⟩ := load_ids hload
  refine ⟨hload, ?_, (hreport .standard ⟨true, .dependency⟩).1 (by decide +kernel) htexts⟩
  refine (hdiffer "./a//m.py" "/w/b/m.py" a absolute ⟨[a], hfile, List.mem_cons_self⟩
    ⟨[absolute], habsolute, List.mem_cons_self⟩ (by decide +kernel)).resolve_right ?_
  rintro (⟨_, _, _, -, -, -, hbelow, -⟩ | htext | htext)
  · cases hbase.symm.trans hbelow
  · exact htext (hspelledA.textNamed (by decide +kernel))
  · exact htext (hspelled.textNamed hbase)

/-- Two files of one directory whose names are no texts. -/
def brokenNames : FileTree :=
  ((FileTree.empty ["w"]).withText ["w", ⟨[0xFF] ++ (ofText ".py").bytes⟩] "x = 1\n").withText
    ["w", ⟨[0xFE] ++ (ofText ".py").bytes⟩] "y = 2\n"

/-- Of several files with one identifier a report shows one at most. -/
theorem not_shows_both {f g : LoadedFile} (hid : f.source.id = g.source.id)
    (hdeclared :
      (Registry.standard.analyze f.source.id f.source.text).declarations.toList ≠
        (Registry.standard.analyze g.source.id g.source.text).declarations.toList) :
    ¬ ∀ h ∈ [f, g],
      (Job.run .standard ⟨true, .dependency⟩ ([f, g].map (·.source))).Shows .standard h := by
  intro hshown
  have hids := Job.perm_files_run .standard ⟨true, .dependency⟩ [f, g]
  have hfirsts : Keyed.firsts (·.source.id) [f, g] = [f] := by
    simp [Keyed.firsts, hid]
  rw [hfirsts] at hids
  generalize Job.run .standard ⟨true, .dependency⟩ ([f, g].map (·.source)) = r at hids hshown
  obtain ⟨report, hreports, -⟩ := List.map_eq_singleton_iff.1 (List.perm_singleton.1 hids)
  obtain ⟨first, hfirst, -, hf⟩ := hshown f List.mem_cons_self
  obtain ⟨second, hsecond, -, hg⟩ := hshown g (List.mem_cons_of_mem _ List.mem_cons_self)
  rw [hreports, List.mem_singleton] at hfirst hsecond
  rw [hfirst] at hf
  rw [hsecond] at hg
  exact hdeclared (hf.symm.trans hg)

/-- Of two files with one name below two directories only one is reported, and so
    of two files in one directory whose names are shown alike. -/
theorem load_ids_sameNames :
    let x : LoadedFile := ⟨["w", "a", "m.py"], ⟨"m.py", "x = 1\n"⟩⟩
    let y : LoadedFile := ⟨["w", "b", "m.py"], ⟨"m.py", "y = 2\n"⟩⟩
    let u : LoadedFile :=
      ⟨["w", ⟨[0xFE] ++ (ofText ".py").bytes⟩], ⟨"\uFFFD.py", "y = 2\n"⟩⟩
    let v : LoadedFile :=
      ⟨["w", ⟨[0xFF] ++ (ofText ".py").bytes⟩], ⟨"\uFFFD.py", "x = 1\n"⟩⟩
    Selection.parse .standard [] [] = .ok pythonFiles ∧
      (pythonFiles.load .standard sameNames ["a", "b"] = .ok [x, y] ∧
        x.location ≠ y.location ∧ x.source.id = y.source.id ∧
        ¬ ∀ f ∈ [x, y],
          (Job.run .standard ⟨true, .dependency⟩ ([x, y].map (·.source))).Shows .standard f) ∧
      pythonFiles.load .standard brokenNames ["."] = .ok [u, v] ∧
        u.location ≠ v.location ∧ u.source.id = v.source.id ∧
        ¬ ∀ f ∈ [u, v],
          (Job.run .standard ⟨true, .dependency⟩ ([u, v].map (·.source))).Shows .standard f := by
  intro x y u v
  refine ⟨parse_nil, ⟨eq_ok_of_toOption (by decide +kernel), by decide +kernel, rfl, ?_⟩,
    eq_ok_of_toOption (by decide +kernel), by decide +kernel, rfl, ?_⟩
  · exact not_shows_both rfl (by decide +kernel)
  · exact not_shows_both rfl (by decide +kernel)

end CrossRef
