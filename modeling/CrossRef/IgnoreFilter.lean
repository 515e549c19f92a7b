/-
  CrossRef.IgnoreFilter

  What a project leaves out: what the ignore files in its root ignore, the
  directories and files that tools make, and what the patterns of its settings
  apply to, later rules before earlier ones.
-/
import CrossRef.Ignore.Library

namespace CrossRef

structure IgnoreFilter (lib : IgnoreLibrary) where
  rules : lib.Rules

namespace IgnoreFilter

/-- What tools make, by patterns. -/
def made : List String :=
  [".git/", ".hg/", "__pycache__/", ".venv/", "venv/", ".tox/", ".mypy_cache/",
    ".pytest_cache/", "node_modules/", "target/", "build/", "dist/", "*.egg-info/", "*.pyc",
    "*.pyo"]

/-- The ignore files in a root whose rules hold for everything below it. -/
def files (root : OsString) : List OsString :=
  [OsPath.join root ".gitignore", OsPath.join root ".ignore"]

variable {lib : IgnoreLibrary}

/-- The filter for a root, given the patterns of the settings. -/
def ofRoot (lib : IgnoreLibrary) (t : FileTree) (root : OsString) (patterns : List String) :
    IgnoreFilter lib :=
  let withFiles := (files root).foldl (fun b file => lib.addFile t file b) (lib.builder root)
  let withLines := (made ++ patterns).foldl (fun b line => lib.addLine line b) withFiles
  ⟨(lib.build? withLines).getD lib.empty⟩

/-- Whether a path is left out. -/
def ignores (filter : IgnoreFilter lib) (path : OsString) (isDirectory : Bool) : Bool :=
  lib.matchedOrAbove filter.rules path isDirectory == some .ignored

end IgnoreFilter

end CrossRef
