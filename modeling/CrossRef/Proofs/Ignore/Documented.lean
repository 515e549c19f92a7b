/-
  CrossRef.Proofs.Ignore.Documented

  What is documented of ignore files, given what one of their lines says, and of
  a library that reads them. A walk comes to a file unless the file or a
  directory on the way to it is ignored (`IgnoreLibrary.Walks`); rules for a root
  are asked about the names below it, from the file upwards
  (`IgnoreLibrary.Filters`).
-/
import CrossRef.Ignore.Level
import CrossRef.IgnoreFilter
import CrossRef.Proofs.FileTree.Sound
import Mathlib.Data.List.Infix

namespace CrossRef

open Ignore

namespace Ignore

/-! ## Lines -/

/-- What a line of an ignore file says of what has certain names below the
    directory of the file, and of which it is known whether it is a directory. -/
abbrev LineMeaning := List Char → List OsString → Bool → Option Verdict

variable {meaning : LineMeaning} {lines more : List (List Char)} {names below : List OsString}
  {isDirectory : Bool}

/-- What several lines say: the last that says anything decides. -/
def verdictOfLines (meaning : LineMeaning) (lines : List (List Char)) (names : List OsString)
    (isDirectory : Bool) : Option Verdict :=
  lines.reverse.findSome? fun line => meaning line names isDirectory

/-- Lines that are added behind others come first. -/
theorem verdictOfLines_append :
    verdictOfLines meaning (lines ++ more) names isDirectory =
      (verdictOfLines meaning more names isDirectory).or
        (verdictOfLines meaning lines names isDirectory) := by
  rw [verdictOfLines, List.reverse_append, List.findSome?_append]
  rfl

theorem verdictOfLines_eq_none_iff :
    verdictOfLines meaning lines names isDirectory = none ↔
      ∀ line ∈ lines, meaning line names isDirectory = none := by
  simp only [verdictOfLines, List.findSome?_eq_none_iff, List.mem_reverse]

/-! ## The way to a file -/

/-- The names of the directories between a directory and a file below it, from
    the highest on, and of the file. -/
def trail (below : List OsString) : List (List OsString) := below.inits.tail

theorem trail_cons (name : OsString) (names : List OsString) :
    trail (name :: names) = [name] :: (trail names).map (name :: ·) := by
  have hinits : names.inits = [] :: trail names := by
    cases names
    all_goals rfl
  rw [trail, List.inits_cons, List.tail_cons, hinits]
  rfl

theorem trail_concat (names : List OsString) (name : OsString) :
    trail (names ++ [name]) = trail names ++ [names ++ [name]] := by
  cases names with
  | nil => rfl
  | cons n ns =>
    rw [trail, trail, List.inits_append, List.tail_append_of_ne_nil (by simp)]
    rfl

theorem mem_trail {q : List OsString} : q ∈ trail below ↔ q ≠ [] ∧ q <+: below := by
  cases below with
  | nil => simp [trail]
  | cons n ns =>
    rw [trail, List.inits_cons, List.tail_cons, List.mem_map]
    constructor
    · rintro ⟨p, hp, rfl⟩
      exact ⟨List.cons_ne_nil n p, List.cons_prefix_cons.2 ⟨rfl, (List.mem_inits p ns).1 hp⟩⟩
    · rintro ⟨hq, hprefix⟩
      obtain ⟨m, p, rfl⟩ := List.exists_cons_of_ne_nil hq
      obtain ⟨rfl, hp⟩ := List.cons_prefix_cons.1 hprefix
      exact ⟨p, (List.mem_inits p ns).2 hp, rfl⟩

/-- What lines say of a file below their directory: what they say of its names,
    or else of those of the directories above it, the nearest first, or else of
    their directory itself. -/
def verdictBelow? (meaning : LineMeaning) (lines : List (List Char)) (below : List OsString) :
    Option Verdict :=
  ((trail below).reverse.findSome? fun q => verdictOfLines meaning lines q (q != below)).or
    (verdictOfLines meaning lines [] true)

end Ignore

/-! ## Ignore files of a tree -/

namespace FileTree

variable {t : FileTree} {meaning : LineMeaning} {base below names : List OsString}

/-- The lines of the ignore file of one kind in a directory. -/
def ignoreLines (t : FileTree) (directory kind : List OsString) : List (List Char) :=
  withoutMarks (t.linesIn directory kind)

/-- What the ignore files of the directories above an entry say of it. The
    strongest kind that says anything decides, and of one kind the deepest file. -/
def ignoreVerdict? (t : FileTree) (meaning : LineMeaning) (names : List OsString)
    (isDirectory : Bool) : Option Verdict :=
  fileKinds.findSome? fun kind =>
    (List.range names.length).reverse.findSome? fun depth =>
      verdictOfLines meaning (t.ignoreLines (names.take depth) kind) (names.drop depth) isDirectory

/-- The ignore files of the tree ignore neither a file below a directory nor a
    directory between them. -/
def Keeps (t : FileTree) (meaning : LineMeaning) (base below : List OsString) : Prop :=
  ∀ q ∈ trail below, t.ignoreVerdict? meaning (base ++ q) (q != below) ≠ some .ignored

instance (t : FileTree) (meaning : LineMeaning) (base below : List OsString) :
    Decidable (t.Keeps meaning base below) :=
  inferInstanceAs (Decidable (∀ _ ∈ _, _))

/-- Of a file below a directory, or of a directory between them, the tree meaning
    nothing, and the user's own ignore file ignores it. -/
def IgnoredByUser (t : FileTree) (meaning : LineMeaning)
    (user : List OsString → Bool → Option Verdict) (base below : List OsString) : Prop :=
  ∃ q ∈ trail below, t.ignoreVerdict? meaning (base ++ q) (q != below) = none ∧
    user (base ++ q) (q != below) = some .ignored

instance (t : FileTree) (meaning : LineMeaning) (user : List OsString → Bool → Option Verdict)
    (base below : List OsString) : Decidable (t.IgnoredByUser meaning user base below) :=
  inferInstanceAs (Decidable (∃ _ ∈ _, _))

/-- What is kept below a child is kept below the directory, if the child is. -/
theorem keeps_cons (name : OsString) :
    t.Keeps meaning base (name :: names) ↔
      t.ignoreVerdict? meaning (base ++ [name]) (names != []) ≠ some .ignored ∧
        t.Keeps meaning (base ++ [name]) names := by
  have hsame : ∀ q, (name :: q != name :: names) = (q != names) := fun q => by
    rw [Bool.eq_iff_iff, bne_iff_ne, bne_iff_ne, ne_eq, List.cons_inj_right]
  have hself : ([name] != name :: names) = (names != []) := by rw [hsame, bne_comm]
  simp only [Keeps, trail_cons, List.forall_mem_cons, List.forall_mem_map, hself, hsame,
    List.append_assoc, List.singleton_append]

end FileTree

/-! ## Libraries -/

namespace IgnoreLibrary

/-- The paths of the files that a walk comes to. -/
def filesOf (walked : List (Option WalkEntry)) : List OsString :=
  (walked.reduceOption.filter (·.kind = some .file)).map (·.path)

/-- The walk from a root that leads to a directory does not fail, and comes to
    each file below the directory that no ignore file ignores, and to no other,
    once. `meaning` is what a line of an ignore file says, and `user` what the user's
    own ignore file says of names from the root of the tree. -/
structure Walks (lib : IgnoreLibrary) (meaning : LineMeaning)
    (user : List OsString → Bool → Option Verdict) (t : FileTree) (root : OsString)
    (base : List OsString) : Prop where
  faultless : none ∉ lib.walk t root
  once : (filesOf (lib.walk t root)).Nodup
  files : ∀ path, path ∈ filesOf (lib.walk t root) ↔
    ∃ below content, below.foldl OsPath.join root = path ∧
      t.root.get? (base ++ below) = some (.file content) ∧
      t.Keeps meaning base below ∧ ¬ t.IgnoredByUser meaning user base below

/-- Rules for a root that are put together from files and further lines can be
    used, and say of a file below the root what all these lines say of its names. -/
structure Filters (lib : IgnoreLibrary) (meaning : LineMeaning) (t : FileTree) (root : OsString) :
    Prop where
  matched : ∀ (files : List OsString) (lines : List String), ∃ rules,
    lib.build? (lines.foldl (fun b line => lib.addLine line b)
      (files.foldl (fun b file => lib.addFile t file b) (lib.builder root))) = some rules ∧
    ∀ below, below ≠ [] → (∀ n ∈ below, EntryName n) →
      lib.matchedOrAbove rules (below.foldl OsPath.join root) false =
        verdictBelow? meaning
          (files.flatMap (fun file => withoutMarks (t.linesAt file)) ++ lines.map String.toList)
          below

end IgnoreLibrary

end CrossRef
