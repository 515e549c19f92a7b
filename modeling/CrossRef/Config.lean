/-
  CrossRef.Config

  The settings a project can write down: whether names are looked up across
  files, the order of files, and which files take part.
-/
import CrossRef.Ordering

namespace CrossRef

/-- Settings; what is absent is left to the defaults. -/
structure Config where
  crossFile : Option Bool
  order : Option OrderMode
  included : List String
  excluded : List String
deriving DecidableEq, Repr, Inhabited

namespace Config

/-- Settings that say nothing. -/
def empty : Config := ⟨none, none, [], []⟩

/-- The settings a new project starts out with. -/
def starter : Config := ⟨some true, some .dependency, ["**/*.py"], []⟩

/-- Where settings are looked for when no place is given. -/
def defaultPath : String := "xrefmap.toml"

end Config

end CrossRef
