/-
  CrossRef.Proofs.OsPath

  Paths of the system and the pieces between their slashes. The steps of a path
  are those pieces that count, behind the root or the current directory
  (`filterMap_stepPiece?_components`). A path below a directory has the steps of
  the directory and then one for each name (`components_foldl_join`), so what
  stands behind a directory can be read off again (`relativeTo?_foldl_join`).
  Upwards a path loses one name at a time (`parent?_concat`).
-/
import CrossRef.OsPath
import CrossRef.Proofs.OsString
import CrossRef.Proofs.Path

namespace CrossRef.OsPath

open OsString
open CrossRef.Path (Component)

variable {path directory name : OsString} {ps names : List OsString}

/-! ## Pieces -/

/-- Names that stand between slashes. -/
def Unslashed (ps : List OsString) : Prop := ∀ p ∈ ps, slash ∉ p.bytes

theorem unslashed_pieces (path : OsString) : Unslashed (pieces path) := by
  intro p hp
  obtain ⟨q, hq, rfl⟩ := List.mem_map.1 hp
  exact Path.not_mem_of_mem_split List.not_mem_nil hq

theorem pieces_ne_nil (path : OsString) : pieces path ≠ [] := fun h =>
  Path.split_ne_nil (List.map_eq_nil_iff.1 h)

theorem pieces_of_unslashed (h : slash ∉ path.bytes) : pieces path = [path] := by
  rw [pieces, Path.split_of_not_mem h]
  rfl

theorem pieces_append_slash (front behind : List UInt8) :
    pieces ⟨front ++ slash :: behind⟩ = pieces ⟨front⟩ ++ pieces ⟨behind⟩ := by
  rw [pieces, Path.split_append_slash, List.map_append]
  rfl

/-- A path is its pieces with slashes between them. -/
theorem ofPieces_pieces (path : OsString) : ofPieces (pieces path) = path := by
  have hmap : (pieces path).map (·.bytes) = Path.split slash path.bytes [] := by
    rw [pieces, List.map_map]
    exact List.map_id _
  rw [ofPieces, hmap, Path.intercalate_split]
  rfl

/-- Pieces without slashes are found again in the path they make up. -/
theorem pieces_ofPieces (hps : ps ≠ []) (h : Unslashed ps) : pieces (ofPieces ps) = ps := by
  have hsplit : Path.split slash (ofPieces ps).bytes [] = ps.map (·.bytes) :=
    Path.split_intercalate (mt List.map_eq_nil_iff.1 hps) (List.forall_mem_map.2 h)
  rw [pieces, hsplit, List.map_map]
  exact List.map_id ps

/-! ## Steps -/

/-- Whether a piece stands for a step. -/
def counts (piece : OsString) : Bool := piece != .empty && piece != .here

theorem blank_of_counts_eq_false (p : OsString) (h : counts p = false) :
    p = .empty ∨ p = .here := by
  simpa only [counts, Bool.and_eq_false_iff, bne_eq_false_iff_eq] using h

theorem not_blank_of_counts {p : OsString} (h : counts p = true) :
    ¬ (p = .empty ∨ p = .here) := by
  simpa only [counts, Bool.and_eq_true, bne_iff_ne, not_or] using h

/-- The piece that makes a step from where a path starts. -/
def stepPiece? : Component OsString → Option OsString
  | .root | .here => none
  | .up => some .up
  | .name n => some n

theorem isAbsolute_iff :
    isAbsolute path = true ↔ ∃ p ps, pieces path = .empty :: p :: ps := by
  have habsolute : isAbsolute path = true ↔ path.bytes.head? = some slash := beq_iff_eq
  have hclean := unslashed_pieces path
  obtain ⟨p, ps, hps⟩ := List.exists_cons_of_ne_nil (pieces_ne_nil path)
  have hp : slash ∉ p.bytes := hclean p (hps ▸ List.mem_cons_self)
  have hjoin : path.bytes = (ofPieces (p :: ps)).bytes := by rw [← hps, ofPieces_pieces]
  rw [habsolute, hjoin, hps]
  cases ps with
  | nil =>
    rw [ofPieces, List.map_singleton, List.intercalate_singleton]
    constructor
    · intro h
      exact absurd (List.mem_of_mem_head? h) hp
    · rintro ⟨q, qs, ⟨⟩⟩
  | cons q qs =>
    rw [ofPieces, List.map_cons, List.map_cons, List.intercalate_cons_cons]
    constructor
    · intro h
      obtain ⟨bytes⟩ := p
      cases bytes with
      | nil => exact ⟨q, qs, rfl⟩
      | cons b bs =>
        cases h
        exact absurd List.mem_cons_self hp
    · rintro ⟨_, _, ⟨⟩⟩
      rfl

/-- The step in front of a path is the root exactly if the path is absolute. -/
theorem frontStep_pieces (path : OsString) :
    Path.frontStep .empty .here (pieces path) =
      if isAbsolute path then [.root]
      else if (pieces path).head? = some .here then [.here] else [] := by
  by_cases habsolute : isAbsolute path = true
  · obtain ⟨p, ps, hps⟩ := isAbsolute_iff.1 habsolute
    rw [if_pos habsolute, hps, Path.frontStep, if_pos ⟨rfl, List.cons_ne_nil p ps⟩]
  · rw [if_neg habsolute]
    cases hps : pieces path with
    | nil => rfl
    | cons p ps =>
      have hfront : ¬ (p = .empty ∧ ps ≠ []) := by
        rintro ⟨rfl, hne⟩
        obtain ⟨q, qs, rfl⟩ := List.exists_cons_of_ne_nil hne
        exact habsolute (isAbsolute_iff.2 ⟨q, qs, hps⟩)
      rw [Path.frontStep, if_neg hfront, List.head?_cons]
      simp only [Option.some.injEq]

theorem ofPiece?_eq (p : OsString) :
    (Component.ofPiece? .empty .here .up p).bind stepPiece? =
      if counts p then some p else none := by
  by_cases hcounts : counts p = true
  · rw [Component.ofPiece?, if_neg (not_blank_of_counts hcounts), if_pos hcounts]
    split
    · next hup =>
      rw [hup]
      rfl
    · rfl
  · have hblank := blank_of_counts_eq_false p (Bool.eq_false_iff.2 hcounts)
    rw [Component.ofPiece?, if_pos hblank, if_neg hcounts]
    rfl

/-- The pieces of a path that count are those of its steps. -/
theorem filterMap_stepPiece?_components (path : OsString) :
    (components path).filterMap stepPiece? = (pieces path).filter counts := by
  have hfront : (Path.frontStep .empty .here (pieces path)).filterMap stepPiece? = [] := by
    rw [frontStep_pieces]
    split
    · rfl
    · split
      all_goals rfl
  rw [components, Path.steps, List.filterMap_append, hfront, List.nil_append,
    List.filterMap_filterMap, ← List.filterMap_eq_filter]
  refine List.filterMap_congr fun p _ => ?_
  rw [ofPiece?_eq]
  rfl

/-- Only in front of all names a step is the root or the current directory. -/
theorem mem_tail_components {c : Component OsString} (h : c ∈ (components path).tail) :
    c ≠ .root ∧ c ≠ .here := by
  have hnames : ∀ d ∈ (pieces path).filterMap (Component.ofPiece? .empty .here .up),
      d ≠ .root ∧ d ≠ .here := by
    intro d hd
    obtain ⟨p, -, hp⟩ := List.mem_filterMap.1 hd
    rw [Component.ofPiece?] at hp
    split at hp
    · cases hp
    · split at hp
      all_goals
        cases hp
        exact ⟨nofun, nofun⟩
  rw [components, Path.steps, frontStep_pieces] at h
  split at h
  · exact hnames c h
  · split at h
    · exact hnames c h
    · exact hnames c (List.mem_of_mem_tail h)

theorem isAbsolute_iff_components :
    isAbsolute path = true ↔ (components path).head? = some .root := by
  rw [components, Path.steps, frontStep_pieces]
  by_cases habsolute : isAbsolute path = true
  · rw [if_pos habsolute]
    exact iff_of_true habsolute rfl
  · rw [if_neg habsolute]
    refine iff_of_false habsolute ?_
    split
    · nofun
    · intro h
      obtain ⟨p, -, hp⟩ := List.mem_filterMap.1 (List.mem_of_mem_head? h)
      rw [Component.ofPiece?] at hp
      split at hp
      · cases hp
      · split at hp
        all_goals cases hp

/-- Only the empty path has no steps. -/
theorem components_ne_nil (h : path ≠ .empty) : components path ≠ [] := by
  intro hnil
  rw [components, Path.steps, List.append_eq_nil_iff, frontStep_pieces] at hnil
  obtain ⟨hfront, hnames⟩ := hnil
  obtain ⟨p, ps, hps⟩ := List.exists_cons_of_ne_nil (pieces_ne_nil path)
  rw [hps] at hfront hnames
  have hp : Component.ofPiece? .empty .here .up p = none := List.filterMap_eq_nil_iff.1 hnames p
    List.mem_cons_self
  rw [Component.ofPiece?] at hp
  split at hp
  · next hblank =>
    split at hfront
    · cases hfront
    · next habsolute =>
      rcases hblank with rfl | rfl
      · -- nothing in front and no slash behind it
        cases ps with
        | nil =>
          apply h
          rw [← ofPieces_pieces path, hps]
          rfl
        | cons q qs => exact habsolute (isAbsolute_iff.2 ⟨q, qs, hps⟩)
      · cases hfront
  · split at hp
    all_goals cases hp

/-! ## Identifiers -/

theorem stepText?_eq {c : Component OsString} (h : c ≠ .root) :
    stepText? c = (stepPiece? c).map lossy := by
  cases c with
  | root => exact absurd rfl h
  | here | name _ => rfl
  | up =>
    have hup : OsString.up.lossy = ".." := by decide +kernel
    rw [stepText?, stepPiece?, Option.map_some, hup]

/-- Behind the root the texts of steps are those of their names. -/
theorem filterMap_stepText? {steps : List (Component OsString)} (h : .root ∉ steps) :
    steps.filterMap stepText? = (steps.filterMap stepPiece?).map lossy := by
  rw [List.map_filterMap]
  exact List.filterMap_congr fun c hc => stepText?_eq fun hroot => h (hroot ▸ hc)

/-- The identifier of a path is made of the texts of its names, behind nothing
    for the root. -/
theorem identifier_components (path : OsString) : identifier (components path) =
    "/".intercalate ((if isAbsolute path then [""] else []) ++
      ((components path).filterMap stepPiece?).map lossy) := by
  have htail : .root ∉ (components path).tail := fun h => (mem_tail_components h).1 rfl
  have habsolute := @isAbsolute_iff_components path
  rw [identifier]
  congr 1
  generalize components path = steps at htail habsolute
  by_cases hroot : steps.head? = some .root
  · rw [if_pos (habsolute.2 hroot)]
    obtain ⟨cs, rfl⟩ := List.head?_eq_some_iff.1 hroot
    exact congrArg ("" :: ·) (filterMap_stepText? htail)
  · rw [if_neg fun h => hroot (habsolute.1 h), List.nil_append]
    refine filterMap_stepText? fun hmem => ?_
    cases steps with
    | nil => cases hmem
    | cons c cs =>
      rcases List.mem_cons.1 hmem with rfl | hmem
      · exact hroot rfl
      · exact htail hmem

/-! ## Paths below a directory -/

/-- Names that count and stand between slashes. -/
structure IsPlain (name : OsString) : Prop where
  counts : counts name = true
  notUp : name ≠ .up
  unslashed : slash ∉ name.bytes

theorem IsPlain.ne_empty (h : IsPlain name) : name ≠ .empty := fun hempty =>
  not_blank_of_counts h.counts (.inl hempty)

theorem unslashed_of_plain (h : ∀ n ∈ names, IsPlain n) : Unslashed names := fun n hn =>
  (h n hn).unslashed

/-- What stands between the path of a directory and a name in it. -/
def gap (directory : OsString) : List UInt8 :=
  if directory.bytes.isEmpty ∨ directory.bytes.getLast? = some slash then [] else [slash]

theorem gap_eq (directory : OsString) : gap directory = [] ∨ gap directory = [slash] :=
  ite_eq_or_eq _ _ _

theorem bytes_join (hname : slash ∉ name.bytes) :
    (join directory name).bytes = directory.bytes ++ gap directory ++ name.bytes := by
  have hrelative : ¬ isAbsolute name = true := fun h =>
    hname (List.mem_of_mem_head? (beq_iff_eq.1 h))
  rw [join, if_neg hrelative, gap]
  split
  · rw [List.append_nil]
  · rw [List.append_assoc]
    rfl

/-- Behind a name there is always a slash. -/
theorem gap_join (hname : IsPlain name) : gap (join directory name) = [slash] := by
  obtain ⟨b, bs, hbytes⟩ : ∃ b bs, name.bytes = b :: bs := by
    obtain ⟨bytes⟩ := name
    cases bytes with
    | nil => exact absurd rfl hname.ne_empty
    | cons b bs => exact ⟨b, bs, rfl⟩
  have hlast : (join directory name).bytes.getLast? = name.bytes.getLast? := by
    rw [bytes_join hname.unslashed, List.getLast?_append_of_ne_nil]
    rw [hbytes]
    exact List.cons_ne_nil b bs
  rw [gap, if_neg]
  rintro (hnil | hslash)
  · rw [List.isEmpty_iff] at hnil
    rw [hnil, hbytes] at hlast
    cases hlast
  · rw [hlast] at hslash
    exact hname.unslashed (List.mem_of_getLast? hslash)

/-- The path to what names lead to from a directory. -/
theorem bytes_foldl_join (hnames : names ≠ []) (hplain : ∀ n ∈ names, IsPlain n) :
    (names.foldl join directory).bytes =
      directory.bytes ++ gap directory ++ (ofPieces names).bytes := by
  induction names generalizing directory with
  | nil => exact absurd rfl hnames
  | cons n ns ih =>
    obtain ⟨hn, hns⟩ := List.forall_mem_cons.1 hplain
    cases ns with
    | nil =>
      rw [ofPieces, List.map_singleton, List.intercalate_singleton]
      exact bytes_join hn.unslashed
    | cons m ms =>
      have hrest : ((m :: ms).foldl join (join directory n)).bytes =
          (join directory n).bytes ++ gap (join directory n) ++ (ofPieces (m :: ms)).bytes :=
        ih (List.cons_ne_nil m ms) hns
      have hpieces : (ofPieces (n :: m :: ms)).bytes =
          n.bytes ++ [slash] ++ (ofPieces (m :: ms)).bytes := by
        rw [ofPieces, List.map_cons, List.map_cons, List.intercalate_cons_cons]
        rfl
      rw [List.foldl_cons, hrest, gap_join hn, bytes_join hn.unslashed, hpieces]
      simp only [List.append_assoc]

/-- The pieces of the path to a name in a directory are those of the directory
    and the name, but for the nothing behind a slash at the end. -/
theorem pieces_join (hdirectory : directory ≠ .empty) (hname : slash ∉ name.bytes) :
    ∃ front, pieces (join directory name) = front ++ [name] ∧
      (pieces directory = front ∨ pieces directory = front ++ [.empty]) := by
  have hbytes := @bytes_join directory name hname
  have hpath : join directory name = ⟨directory.bytes ++ gap directory ++ name.bytes⟩ := by
    rw [← hbytes]
  have hlast : pieces ⟨name.bytes⟩ = [name] := pieces_of_unslashed hname
  by_cases hslash : directory.bytes.getLast? = some slash
  · have hgap : gap directory = [] := if_pos (.inr hslash)
    obtain ⟨front, hfront⟩ := List.getLast?_eq_some_iff.1 hslash
    obtain rfl : directory = ⟨front ++ [slash]⟩ := by rw [← hfront]
    refine ⟨pieces ⟨front⟩, ?_, .inr ?_⟩
    · rw [hpath, hgap, List.append_nil, List.append_assoc, List.singleton_append,
        pieces_append_slash, hlast]
    · rw [pieces_append_slash]
      rfl
  · have hfilled : ¬ directory.bytes.isEmpty = true := by
      rw [List.isEmpty_iff]
      intro hnil
      apply hdirectory
      rw [← OsString.mk.injEq] at hnil
      exact hnil
    have hgap : gap directory = [slash] := if_neg (not_or.2 ⟨hfilled, hslash⟩)
    refine ⟨pieces directory, ?_, .inl rfl⟩
    rw [hpath, hgap, List.append_assoc, List.singleton_append, pieces_append_slash, hlast]

theorem ofPiece?_plain (h : IsPlain name) :
    Component.ofPiece? .empty .here .up name = some (.name name) := by
  rw [Component.ofPiece?, if_neg (not_blank_of_counts h.counts), if_neg h.notUp]

/-- One name further down a path has one step more. -/
theorem components_join (hdirectory : directory ≠ .empty) (hname : IsPlain name) :
    components (join directory name) = components directory ++ [.name name] := by
  obtain ⟨front, hjoin, hpieces⟩ := pieces_join hdirectory hname.unslashed
  have hlast : [name].filterMap (Component.ofPiece? .empty .here .up) = [.name name] := by
    rw [List.filterMap_cons, ofPiece?_plain hname]
    rfl
  have hfront : front ≠ [] := by
    rintro rfl
    rcases hpieces with hpieces | hpieces
    · exact pieces_ne_nil _ hpieces
    · apply hdirectory
      rw [← ofPieces_pieces directory, hpieces]
      rfl
  obtain ⟨p, ps, rfl⟩ := List.exists_cons_of_ne_nil hfront
  have hlonger (more : List OsString) (hmore : ps ++ more ≠ [] ∨ p ≠ .empty) :
      Path.frontStep .empty .here (p :: ps ++ more) =
        if p = .empty then [.root] else if p = .here then [.here] else [] := by
    rw [List.cons_append, Path.frontStep]
    by_cases hp : p = .empty
    · rw [if_pos ⟨hp, hmore.resolve_right (not_not.2 hp)⟩, if_pos hp]
    · rw [if_neg fun h => hp h.1, if_neg hp]
  rw [components, components, Path.steps, Path.steps, hjoin, List.filterMap_append, hlast,
    ← List.append_assoc, hlonger [name] (.inl (by simp))]
  rcases hpieces with hpieces | hpieces
  · -- a single piece with nothing in it would be the empty path
    have hmore : ps ++ [] ≠ [] ∨ p ≠ .empty := by
      by_contra hnone
      rw [not_or, not_not, not_not, List.append_nil] at hnone
      obtain ⟨rfl, rfl⟩ := hnone
      apply hdirectory
      rw [← ofPieces_pieces directory, hpieces]
      rfl
    have hsame := hlonger [] hmore
    rw [List.append_nil] at hsame
    rw [hpieces, hsame]
  · rw [hpieces, hlonger [.empty] (.inl (by simp)), List.filterMap_append]
    simp only [List.filterMap_cons, List.filterMap_nil, Component.ofPiece?, true_or, if_true,
      List.append_nil]

/-- The path to what names lead to has a step for each name. -/
theorem components_foldl_join (hdirectory : directory ≠ .empty)
    (hplain : ∀ n ∈ names, IsPlain n) :
    components (names.foldl join directory) = components directory ++ names.map .name := by
  induction names generalizing directory with
  | nil => exact (List.append_nil _).symm
  | cons n ns ih =>
    obtain ⟨hn, hns⟩ := List.forall_mem_cons.1 hplain
    have hjoin := components_join hdirectory hn
    have hfilled : join directory n ≠ .empty := by
      intro hempty
      have hnone : components .empty = [] := by rfl
      rw [hempty, hnone] at hjoin
      exact List.append_ne_nil_of_right_ne_nil _ (List.cons_ne_nil _ _) hjoin.symm
    rw [List.foldl_cons, ih hfilled hns, hjoin, List.append_assoc]
    rfl

/-- What stands behind a directory is read off the path again. -/
theorem relativeTo?_foldl_join (hdirectory : directory ≠ .empty)
    (hplain : ∀ n ∈ names, IsPlain n) :
    relativeTo? directory (names.foldl join directory) = some (names.map .name) := by
  rw [relativeTo?, components_foldl_join hdirectory hplain, if_pos (List.prefix_append _ _),
    List.drop_left]

/-- Different names below a directory make up different paths. -/
theorem eq_of_foldl_join_eq {more : List OsString} (hdirectory : directory ≠ .empty)
    (hplain : ∀ n ∈ names, IsPlain n) (hmore : ∀ n ∈ more, IsPlain n)
    (h : names.foldl join directory = more.foldl join directory) : names = more := by
  have hsteps := relativeTo?_foldl_join hdirectory hplain
  rw [h, relativeTo?_foldl_join hdirectory hmore, Option.some.injEq] at hsteps
  exact (List.map_injective_iff.2 (fun _ _ hname => by injection hname) hsteps).symm

/-- The identifier behind a directory is made of the texts of the names. -/
theorem identifier_names (names : List OsString) :
    identifier (names.map .name) = "/".intercalate (names.map lossy) := by
  have htexts : (names.map Component.name).filterMap stepText? = names.map lossy := by
    rw [List.filterMap_map]
    exact congrFun List.filterMap_eq_map names
  rw [identifier, htexts]

/-! ## Directories above a path -/

/-- The names below a directory make up a relative path. -/
theorem not_isAbsolute_ofPieces (hnames : names ≠ []) (hplain : ∀ n ∈ names, IsPlain n) :
    isAbsolute (ofPieces names) = false := by
  rw [Bool.eq_false_iff]
  intro habsolute
  obtain ⟨p, ps, hpieces⟩ := isAbsolute_iff.1 habsolute
  rw [pieces_ofPieces hnames (unslashed_of_plain hplain)] at hpieces
  exact (hplain .empty (hpieces ▸ List.mem_cons_self)).ne_empty rfl

/-- There is a slash for every name but one. -/
theorem length_le_ofPieces (names : List OsString) :
    names.length ≤ (ofPieces names).bytes.length + 1 := by
  induction names with
  | nil => exact Nat.zero_le _
  | cons n ns ih =>
    cases ns with
    | nil => exact Nat.le_add_left 1 _
    | cons m ms =>
      have hbytes : (ofPieces (n :: m :: ms)).bytes =
          n.bytes ++ [slash] ++ (ofPieces (m :: ms)).bytes := by
        rw [ofPieces, List.map_cons, List.map_cons, List.intercalate_cons_cons]
        rfl
      rw [hbytes, List.length_append, List.length_append, List.length_singleton, List.length_cons]
      omega

theorem countedPieces_eq (h : ∀ p ∈ ps, counts p = true) : countedPieces ps = ps := by
  rcases List.eq_nil_or_concat ps with rfl | ⟨front, last, rfl⟩
  · rfl
  · have hlast : counts last = true := h last (by simp)
    have hstays : (last == .empty || last == .here) = false := by
      simpa [counts] using hlast
    rw [countedPieces, List.concat_eq_append, List.reverse_append]
    simp only [List.reverse_cons, List.reverse_nil, List.nil_append, List.singleton_append,
      List.dropWhile_cons, hstays, Bool.false_eq_true, if_false]
    simp

theorem parent?_concat (hplain : ∀ n ∈ names ++ [name], IsPlain n) :
    parent? (ofPieces (names ++ [name])) = some (ofPieces names) := by
  have hpieces : pieces (ofPieces (names ++ [name])) = names ++ [name] :=
    pieces_ofPieces (by simp) (unslashed_of_plain hplain)
  rw [parent?, hpieces, countedPieces_eq fun p hp => (hplain p hp).counts]
  have hfront : countedPieces names = names :=
    countedPieces_eq fun p hp => (hplain p (List.mem_append_left _ hp)).counts
  cases names with
  | nil => rfl
  | cons n ns =>
    rw [List.cons_append]
    simp only
    rw [← List.cons_append, List.dropLast_concat, hfront]

/-- Nothing is above the directory itself. -/
theorem parent?_empty : parent? .empty = none := by rfl

end CrossRef.OsPath
