/-
  CrossRef.Main

  The program: takes what a command line asks about from the disk, runs the
  command on that, and writes what it answers.
-/
import CrossRef.Cli.Command

namespace CrossRef.Main

open CrossRef.Cli

/-- The paths a request may read or write. -/
def pathsOf : Request → List String
  | .analyze job | .order job => job.paths ++ [job.config.getD Config.defaultPath]
  | .init config _ => [config.getD Config.defaultPath]
  | .version | .help => []

/-- The names in a path. -/
def namesOf (path : String) : List String := (Path.pieces path).filter fun p => p != "" && p != "."

/-- The absolute path of a row of names. -/
def pathTo (names : List String) : String := "/" ++ "/".intercalate names

/-- An entry of the disk with everything below it; what cannot be read is left out. -/
partial def entryOf? (e : IO.FS.DirEntry) : IO (Option Entry) := do
  try
    match (← e.path.symlinkMetadata).type with
    | .file => return some (.file (.ofBytes (← IO.FS.readBinFile e.path)))
    | .symlink => return some (.link (.ofText (← IO.FS.realPath e.path).toString))
    | .dir =>
      let mut children := []
      for child in ← e.path.readDir do
        if let some entry ← entryOf? child then
          children := (.ofText child.fileName, entry) :: children
      return some (.directory children.reverse)
    | .other => return none
  catch _ => return none

/-- The root with what stands on the disk at a row of names. -/
def withEntry (root : Entry) (names : List String) : IO Entry := do
  match names.getLast? with
  | none => return (← entryOf? ⟨"/", "."⟩).getD root
  | some name =>
    match ← entryOf? ⟨pathTo names.dropLast, name⟩ with
    | some entry => return entry.put (names.map .ofText) (some root)
    | none => return root

/-- The root with the ignore files of the directories above a row of names. -/
def withIgnoreFiles (root : Entry) (names : List String) : IO Entry := do
  let mut root := root
  for depth in List.range names.length do
    for kind in Ignore.fileKinds do
      root ← withEntry root (names.take depth ++ kind.map (·.lossy))
  return root

/-- The root with the first link that a row of names leads through. -/
def withLink (root : Entry) (names : List String) : IO Entry := do
  for depth in List.range names.length do
    let front := names.take (depth + 1)
    if front.contains ".." then return root
    if let some name := front.getLast? then
      let e : IO.FS.DirEntry := ⟨pathTo front.dropLast, name⟩
      try
        if (← e.path.symlinkMetadata).type == .symlink then return ← withEntry root front
      catch _ => return root
  return root

/-- The root with the directory that a missing file would be in. -/
def withDirectory (root : Entry) (path : String) : IO Entry := do
  try
    let above := ((OsPath.parent? path).getD .here).lossy
    let directory ← IO.FS.realPath (if above.isEmpty then "." else above)
    let names := (namesOf directory.toString).map OsString.ofText
    if (← directory.metadata).type == .dir && (root.get? names).isNone then
      return Entry.put (.directory []) names (some root)
    return root
  catch _ => return root

/-- What the disk holds at several paths. -/
def snapshot (paths : List String) : IO FileTree := do
  let here := namesOf (← IO.currentDir).toString
  let mut root := (FileTree.empty (here.map .ofText)).root
  for path in paths do
    root ← withLink root (if path.startsWith "/" then namesOf path else here ++ namesOf path)
    try
      let names := namesOf (← IO.FS.realPath path).toString
      root ← withIgnoreFiles root names
      root ← withEntry root names
    catch _ =>
      root ← withDirectory root path
  return ⟨root, here.map .ofText⟩

end CrossRef.Main

open CrossRef CrossRef.Main CrossRef.Cli in
/-- Runs the command line on what it asks about, and writes settings to the disk. -/
def main (arguments : List String) : IO UInt32 := do
  let request := (Request.parse arguments).toOption
  let outcome := Cli.run (← snapshot ((request.map pathsOf).getD [])) arguments
  if outcome.code = 0 then
    if let some (.init config _) := request then
      let path := config.getD Config.defaultPath
      if let .ok text := outcome.tree.read path then IO.FS.writeFile path text
  IO.print outcome.output
  IO.eprint outcome.errors
  return outcome.code.toUInt32
