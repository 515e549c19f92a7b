/-
  CrossRef.Discovery

  Finding the files of a job. Directories are searched to the bottom, with
  ignore files obeyed and links left alone, and their files stand in the order
  of their identifiers; files that are named keep their places.
-/
import CrossRef.FilePattern
import CrossRef.IgnoreFilter
import CrossRef.Job

namespace CrossRef

open CrossRef.Ignore

/-! ## Selections -/

/-- Which of the files below a directory take part. -/
structure Selection (patterns : PatternLibrary) where
  included : List patterns.Pattern
  excluded : List String

namespace Selection

/-- The patterns that hold where none are given. -/
def standard : List String := ["**/*.py", "**/*.pyi"]

variable {patterns : PatternLibrary}

/-- A selection from the texts of its patterns. -/
def parse (patterns : PatternLibrary) (included excluded : List String) :
    Except Error (Selection patterns) := do
  let included ← (if included.isEmpty then standard else included).mapM fun text =>
    (patterns.parse text).mapError .invalidPattern
  return ⟨included, excluded⟩

def includes (s : Selection patterns) (id : String) : Bool :=
  s.included.any fun p => patterns.selects p id

end Selection

/-! ## Searching directories -/

/-- A file below a searched directory: its identifier, and a path to it. -/
structure FoundFile where
  id : String
  path : OsString
deriving DecidableEq, Repr

namespace FoundFile

/-- Whether a file stands before another or at its place: by the identifiers, and
    for one identifier by the paths. -/
def le (f g : FoundFile) : Bool :=
  decide (f.id < g.id) || (f.id == g.id && !decide (OsPath.ranks g.path < OsPath.ranks f.path))

end FoundFile

namespace Selection

variable {patterns : PatternLibrary}

/-- The file that a walk from a root comes to, if it is one that takes part. -/
def found? (s : Selection patterns) {lib : IgnoreLibrary} (filter : IgnoreFilter lib)
    (root : OsString) (entry : WalkEntry) : Option FoundFile :=
  if entry.kind ≠ some .file ∨ filter.ignores entry.path false then none
  else
    match OsPath.relativeTo? root entry.path with
    | none => none
    | some steps =>
      if s.includes (OsPath.identifier steps) then some ⟨OsPath.identifier steps, entry.path⟩
      else none

/-- The selected files below the directory at a path, in their order. -/
def discover (s : Selection patterns) (lib : IgnoreLibrary) (t : FileTree) (root : OsString) :
    Except Error (List FoundFile) := do
  let filter := IgnoreFilter.ofRoot lib t root s.excluded
  let entries ← (lib.walk t root).mapM fun entry => entry.elim (.error .walk) .ok
  return Keyed.sortBy FoundFile.le (entries.filterMap (s.found? filter root))

end Selection

/-! ## Loading -/

/-- A source with the names that lead from the root to the file it was read from. -/
structure LoadedFile where
  location : List OsString
  source : SourceFile
deriving DecidableEq, Repr

/-- The source in the file at a path, if it can be read. -/
def LoadedFile.read? (t : FileTree) (id : String) (path : OsString) : Option LoadedFile :=
  match t.find? path with
  | some (names, .file (.text s)) => some ⟨names, ⟨id, s⟩⟩
  | _ => none

namespace Selection

variable {patterns : PatternLibrary}

/-- The sources a path leads to. -/
def loadPath (s : Selection patterns) (lib : IgnoreLibrary) (t : FileTree) (path : OsString) :
    Except Error (List LoadedFile) :=
  match t.find? path with
  | some (_, .directory _) => do
    return (← s.discover lib t path).filterMap fun f => LoadedFile.read? t f.id f.path
  | some (_, .file _) =>
    .ok (LoadedFile.read? t (OsPath.identifier (OsPath.components path)) path).toList
  | _ => .error (.io (.pathMissing path.lossy))

/-- The sources several paths lead to, in the order of the paths. -/
def load (s : Selection patterns) (lib : IgnoreLibrary) (t : FileTree) (paths : List OsString) :
    Except Error (List LoadedFile) := do
  return (← paths.mapM (s.loadPath lib t)).flatten

end Selection

end CrossRef
