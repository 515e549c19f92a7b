/-
  CrossRef.ConfigStore

  Settings in files. What is there already is overwritten only on demand.
-/
import CrossRef.ConfigFile
import CrossRef.FileTree

namespace CrossRef.Config

/-- The settings in the file at a path; none if there is no such file. -/
def load (toml : Toml.Codec) (t : FileTree) (path : OsString) : Except Error (Option Config) :=
  if !t.exists? path then .ok none
  else
    match t.read path with
    | .error fault => .error (.io fault)
    | .ok text =>
      match (toml.read? text).bind ofTable? with
      | some c => .ok (some c)
      | none => .error .malformedConfig

/-- Writes settings to the file at a path: whether that went well, and the tree
    afterwards. -/
def store (toml : Toml.Codec) (c : Config) (t : FileTree) (path : OsString) (force : Bool) :
    Except Error Unit × FileTree :=
  if t.exists? path && !force then (.error (.configExists path.lossy), t)
  else
    match toml.write? c.toTable with
    | none => (.error .unwritableConfig, t)
    | some text => ((t.write path text).1.mapError .io, (t.write path text).2)

end CrossRef.Config
