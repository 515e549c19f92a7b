/-
  CrossRef.Linking.ModulePath

  Which file a wildcard import means. With leading dots the module is looked
  for from the importing file's directory, one directory further up for each
  dot after the first. Without them it is any file whose path ends in the
  module's, the one with the smallest identifier first.
-/
import CrossRef.Path
import CrossRef.Scope.Graph

namespace CrossRef.Linking

/-- A dotted name as a path. -/
def modulePath (module : String) : String := module.map fun c => if c = '.' then '/' else c

/-- The places a module can have below a directory: as a file, or as a
    directory of its own. The empty name means the directory itself. -/
def modulePlaces (module : String) : List String :=
  let path := modulePath module
  if path.isEmpty then ["__init__.py"] else [path ++ ".py", path ++ "/__init__.py"]

/-- The directory that `level` leading dots in a file mean, if there is one. -/
def baseDirectory? (importer : String) (level : Nat) : Option String :=
  let directories := (Path.pieces importer).dropLast
  if level - 1 ≤ directories.length then
    some ("/".intercalate (directories.take (directories.length - (level - 1))))
  else none

/-- A path below a directory. The empty directory adds nothing. -/
def below (directory path : String) : String :=
  if directory.isEmpty then path else directory ++ "/" ++ path

/-- `id` is the path `place`, or ends in it behind a slash. -/
def endsInPlace (id place : String) : Bool :=
  id == place || ('/' :: place.toList).isSuffixOf id.toList

/-- The file among `ids`, which are in ascending order, that an import in the
    file `importer` means. -/
def resolveModule? (importer : String) (w : WildcardImport) (ids : List String) :
    Option String :=
  if w.level > 0 then do
    let directory ← baseDirectory? importer w.level
    (modulePlaces w.module).findSome? fun place => ids.find? (· == below directory place)
  else if w.module.isEmpty then none
  else
    ids.find? fun id => id != importer && (modulePlaces w.module).any (endsInPlace id)

end CrossRef.Linking
