/-
  CrossRef.FileTree

  Directories, files and symbolic links, and how paths lead through them.
  Links are followed wherever they stand in a path, up to a limit.
-/
import CrossRef.Error
import CrossRef.OsPath
import CrossRef.Text.Blank

namespace CrossRef

/-! ## Entries -/

/-- What a file holds: a text, or bytes that are none. Of those only the lines
    before the first that is not text can be read. -/
inductive Content where
  | text (s : String)
  | binary (readable : String)
deriving DecidableEq, Repr, Inhabited

namespace Content

/-- The text the bytes encode, or the readable part of them. -/
def ofBytes (bytes : ByteArray) : Content :=
  match String.fromUTF8? bytes with
  | some s => .text s
  | none => .binary (readable bytes.toList [])
where
  /-- The whole lines in front of the first that is not text. `line` holds the
      bytes of the line read so far, backwards. -/
  readable : List UInt8 → List UInt8 → String
    | [], _ => ""
    | b :: bs, line =>
      if b = 10 then
        match String.fromUTF8? ⟨(b :: line).reverse.toArray⟩ with
        | some s => s ++ readable bs []
        | none => ""
      else readable bs (b :: line)

/-- The lines that can be read. -/
def lines : Content → List (List Char)
  | text s | binary s => Text.lines s.toList

end Content

inductive Entry where
  | file (content : Content)
  | directory (children : List (OsString × Entry))
  | link (target : OsString)
deriving Inhabited

namespace Entry

def isDirectory : Entry → Bool
  | directory _ => true
  | _ => false

/-- The entry a row of names leads to, links not followed. -/
def get? : Entry → List OsString → Option Entry
  | e, [] => some e
  | directory children, name :: names =>
    match children.lookup name with
    | some e => get? e names
    | none => none
  | _, _ :: _ => none

/-- The children of a directory with one of them changed or added. -/
def setChild (name : OsString) (e : Entry) : List (OsString × Entry) → List (OsString × Entry)
  | [] => [(name, e)]
  | c :: cs => if c.1 = name then (name, e) :: cs else c :: setChild name e cs

/-- The children of a directory; no other entry has any. -/
def children : Option Entry → List (OsString × Entry)
  | some (directory cs) => cs
  | _ => []

/-- With another entry where a row of names leads. Directories on the way that
    are missing are made; a file or link on the way gives way to one. -/
def put (new : Entry) : List OsString → Option Entry → Entry
  | [], _ => new
  | name :: names, old =>
    let cs := children old
    .directory (setChild name (put new names (cs.lookup name)) cs)

theorem lookup_setChild (name : OsString) (e : Entry) (cs : List (OsString × Entry)) :
    (setChild name e cs).lookup name = some e := by
  induction cs with
  | nil => simp [setChild]
  | cons c cs ih =>
    by_cases h : c.1 = name
    · simp [setChild, h]
    · have hn : (name == c.1) = false := beq_false_of_ne (Ne.symm h)
      rw [setChild, if_neg h, List.lookup_cons, hn]
      exact ih

/-- What has been put at a row of names is found there. -/
theorem get?_put (new : Entry) (names : List OsString) (old : Option Entry) :
    (put new names old).get? names = some new := by
  induction names generalizing old with
  | nil => simp [put, get?]
  | cons name names ih =>
    simp only [put, get?, lookup_setChild]
    exact ih _

end Entry

/-- A directory with everything below it, and the names that lead from it to
    the directory relative paths start at. -/
structure FileTree where
  root : Entry
  current : List OsString
deriving Inhabited

namespace FileTree

/-- A tree with nothing but the current directory. -/
def empty (current : List OsString) : FileTree :=
  ⟨Entry.put (.directory []) current (some (.directory [])), current⟩

/-! ## Following paths -/

/-- Where a path leads: to an entry, whose names from the root are given, or to
    a name that its directory does not have, with the pieces of the path behind it. -/
inductive Place where
  | found (names : List OsString) (entry : Entry)
  | missing (directory : List OsString) (name : OsString) (rest : List OsString)

/-- How many links one path may lead through. -/
def linkLimit : Nat := 40

/-- Follows the pieces of a path from a directory. At a link `jump` goes on from
    the directory and with the pieces that it leads to. -/
def followPieces (t : FileTree) (jump : List OsString → List OsString → Except IoFault Place)
    (here : List OsString) : List OsString → Except IoFault Place
  | [] =>
    match t.root.get? here with
    | some e => .ok (.found here e)
    | none => .error .notFound
  | p :: ps =>
    match t.root.get? here with
    | some (.directory children) =>
      if p = .empty ∨ p = .here then t.followPieces jump here ps
      else if p = .up then t.followPieces jump here.dropLast ps
      else if p.bytes.length > 255 then .error .nameTooLong
      else
        match children.lookup p with
        | none => .ok (.missing here p ps)
        | some (.link target) =>
          if target.bytes.isEmpty then .error .notFound
          else jump (if OsPath.isAbsolute target then [] else here) (OsPath.pieces target ++ ps)
        | some _ => t.followPieces jump (here ++ [p]) ps
    | some _ => .error .notADirectory
    | none => .error .notFound

/-- Follows the pieces of a path from a directory, through a number of links at most. -/
def follow (t : FileTree) : Nat → List OsString → List OsString → Except IoFault Place
  | 0 => t.followPieces fun _ _ => .error .linkLoop
  | links + 1 => t.followPieces (t.follow links)

/-- Follows a path. -/
def locate (t : FileTree) (path : OsString) : Except IoFault Place :=
  if path.bytes.isEmpty then .error .notFound
  else if path.bytes.contains 0 then .error .nulInName
  else t.follow linkLimit (if OsPath.isAbsolute path then [] else t.current) (OsPath.pieces path)

/-- The entry a path leads to, with its names from the root. -/
def find? (t : FileTree) (path : OsString) : Option (List OsString × Entry) :=
  match t.locate path with
  | .ok (.found names e) => some (names, e)
  | _ => none

def exists? (t : FileTree) (path : OsString) : Bool := (t.find? path).isSome

/-! ## Reading and writing -/

/-- The text of the file at a path. -/
def read (t : FileTree) (path : OsString) : Except IoFault String := do
  match ← t.locate path with
  | .found _ (.file (.text s)) => return s
  | .found _ (.file (.binary _)) => throw .notText
  | .found _ _ => throw .isADirectory
  | .missing .. => throw .notFound

/-- The lines of what a path leads to; none if that is no file. -/
def linesOf : Except IoFault Place → List (List Char)
  | .ok (.found _ (.file c)) => c.lines
  | _ => []

/-- The lines of the file at a path. -/
def linesAt (t : FileTree) (path : OsString) : List (List Char) := linesOf (t.locate path)

/-- The lines of the file that a row of names in a directory leads to. -/
def linesIn (t : FileTree) (directory names : List OsString) : List (List Char) :=
  linesOf (t.follow linkLimit directory names)

/-- The tree with a text in the file with these names from the root. -/
def withText (t : FileTree) (names : List OsString) (text : String) : FileTree :=
  { t with root := Entry.put (.file (.text text)) names (some t.root) }

/-- Writes a text to the file at a path, which is made if it is missing: whether
    that went well, and the tree afterwards. -/
def write (t : FileTree) (path : OsString) (text : String) : Except IoFault Unit × FileTree :=
  match t.locate path with
  | .ok (.found names (.file _)) => (.ok (), t.withText names text)
  | .ok (.found _ _) => (.error .isADirectory, t)
  | .ok (.missing directory name []) => (.ok (), t.withText (directory ++ [name]) text)
  | .ok (.missing _ _ rest) =>
    (.error (if rest.all (· == .empty) then .isADirectory else .notFound), t)
  | .error fault => (.error fault, t)

/-- With an entry at a relative path. Directories on the way that are missing
    are made; where there is no way the tree stays as it is. -/
def place (t : FileTree) (path : OsString) (e : Entry) : FileTree :=
  let pieces := (OsPath.pieces path).filter fun p => p != .empty && p != .here
  let store (names : List OsString) : FileTree := { t with root := e.put names (some t.root) }
  match pieces.getLast?, t.follow linkLimit t.current pieces.dropLast with
  | some name, .ok (.found directory (.directory _)) => store (directory ++ [name])
  | some name, .ok (.missing directory first rest) =>
    store (directory ++ first :: rest ++ [name])
  | _, _ => t

end FileTree

end CrossRef
