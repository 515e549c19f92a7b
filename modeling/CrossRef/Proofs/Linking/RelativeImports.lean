/-
  CrossRef.Proofs.Linking.RelativeImports

  Which file an import with leading dots means. Directories are texts that end
  in a slash here, so the file is the first place of the module behind the
  directory that many steps above the importing file's own
  (`relative_imports_exact`). The root of absolute paths is the exception: it is
  taken for the directory that relative paths start from, and what would be
  above it as well (`LeavesRoot`).
-/
import CrossRef.Linking.ModulePath
import CrossRef.Proofs.Path

namespace CrossRef

/-! ## Directories as texts -/

namespace Path

/-- A path up to its last slash, which is kept; nothing if it has none. -/
def directoryOf (path : String) : String :=
  String.ofList (path.toList.reverse.dropWhile (· != '/')).reverse

/-- A directory without its last name. Nothing is above the root or the
    directory that relative paths start from. -/
def above? (directory : String) : Option String :=
  if directory = "" ∨ directory = "/" then none
  else some (directoryOf (String.ofList directory.toList.dropLast))

/-- The directory of a file, a number of steps further up. -/
def directoryAbove? (path : String) : Nat → Option String
  | 0 => some (directoryOf path)
  | up + 1 => (directoryAbove? path up).bind above?

/-- The pieces of a path in front of the last one. -/
def directoryPieces (path : String) : List String := (pieces path).dropLast

/-- The directory that a row of pieces leads to. -/
def slashed : List String → String
  | [] => ""
  | p :: ps => p ++ "/" ++ slashed ps

variable {ps : List String} {p path : String}

theorem slashed_concat (ps : List String) (p : String) :
    slashed (ps ++ [p]) = slashed ps ++ p ++ "/" := by
  induction ps with
  | nil => simp [slashed]
  | cons q ps ih => simp [slashed, ih, String.append_assoc]

theorem intercalate_concat (ps : List String) (p : String) :
    "/".intercalate (ps ++ [p]) = slashed ps ++ p := by
  induction ps with
  | nil => simp [slashed]
  | cons q ps ih =>
    have hne : ps ++ [p] ≠ [] := List.concat_ne_nil p ps
    rw [List.cons_append, String.intercalate_cons_of_ne_nil hne, ih, slashed]
    simp only [String.append_assoc]

theorem slashed_eq_empty : slashed ps = "" ↔ ps = [] := by
  cases ps with
  | nil => simp [slashed]
  | cons p ps => simp [slashed]

theorem slashed_eq_root : slashed ps = "/" ↔ ps = [""] := by
  cases ps with
  | nil => simp [slashed]
  | cons p ps =>
    constructor
    · intro h
      have hlength := congrArg String.length h
      simp only [slashed, String.length_append] at hlength
      have hone : "/".length = 1 := by decide
      have hp : p = "" := String.length_eq_zero_iff.1 (by omega)
      have hps : slashed ps = "" := String.length_eq_zero_iff.1 (by omega)
      rw [hp, slashed_eq_empty.1 hps]
    · intro h
      rw [h]
      decide

theorem directoryOf_slashed (hp : '/' ∉ p.toList) : directoryOf (slashed ps ++ p) = slashed ps := by
  have hname : ∀ c ∈ p.toList.reverse, (c != '/') = true := by
    intro c hc
    rw [bne_iff_ne]
    rintro rfl
    exact hp (List.mem_reverse.1 hc)
  rw [directoryOf, String.toList_append, List.reverse_append, List.dropWhile_append_of_pos hname]
  -- what stands in front of the name ends in a slash
  have hfront : (slashed ps).toList.reverse.dropWhile (· != '/') = (slashed ps).toList.reverse := by
    rcases List.eq_nil_or_concat ps with rfl | ⟨qs, q, rfl⟩
    · rfl
    · rw [List.concat_eq_append, slashed_concat, String.toList_append, List.reverse_append]
      rfl
  rw [hfront, List.reverse_reverse, String.ofList_toList]

theorem directoryOf_eq (path : String) : directoryOf path = slashed (directoryPieces path) := by
  have hpieces := List.dropLast_concat_getLast (pieces_ne_nil path)
  have hname := unslashed_pieces path _ (List.getLast_mem (pieces_ne_nil path))
  have hpath := intercalate_pieces path
  rw [← hpieces, intercalate_concat] at hpath
  rw [directoryPieces, ← directoryOf_slashed hname, hpath]

theorem above?_slashed (hp : '/' ∉ p.toList) :
    above? (slashed (ps ++ [p])) = if ps ++ [p] = [""] then none else some (slashed ps) := by
  have hne : slashed (ps ++ [p]) ≠ "" := fun h => List.concat_ne_nil p ps (slashed_eq_empty.1 h)
  rw [above?]
  by_cases hroot : ps ++ [p] = [""]
  · rw [if_pos hroot, if_pos (.inr (slashed_eq_root.2 hroot))]
  · rw [if_neg hroot, if_neg (not_or.2 ⟨hne, mt slashed_eq_root.1 hroot⟩), slashed_concat]
    have hdrop : (slashed ps ++ p ++ "/").toList.dropLast = (slashed ps ++ p).toList := by
      rw [String.toList_append (t := "/")]
      exact List.dropLast_concat
    rw [hdrop, String.ofList_toList, directoryOf_slashed hp]

/-- The piece in front of the slash that an absolute path starts with is no name. -/
def rootPieces (ps : List String) : Nat := if ps.head? = some "" then 1 else 0

theorem rootPieces_le_length (ps : List String) : rootPieces ps ≤ ps.length := by
  rw [rootPieces]
  split
  · next h => exact List.length_pos_of_mem (List.mem_of_mem_head? h)
  · exact Nat.zero_le _

theorem take_rootPieces (ps : List String) :
    ps.take (rootPieces ps) = if ps.head? = some "" then [""] else [] := by
  rw [rootPieces]
  split
  · next h =>
    obtain ⟨qs, rfl⟩ := List.head?_eq_some_iff.1 h
    rfl
  · rfl

theorem head?_of_take_eq_root {k : Nat} (h : ps.take k = [""]) :
    ps.head? = some "" ∧ min k ps.length = 1 := by
  have hlength := congrArg List.length h
  rw [List.length_take, List.length_singleton] at hlength
  have hfirst := congrArg List.head? h
  rw [List.head?_take, if_neg (by omega), List.head?_singleton] at hfirst
  exact ⟨hfirst, hlength⟩

/-- The directories above a file are those that the front parts of its pieces lead to. -/
theorem directoryAbove?_eq (path : String) (up : Nat) :
    directoryAbove? path up =
      if up + rootPieces (directoryPieces path) ≤ (directoryPieces path).length then
        some (slashed ((directoryPieces path).take ((directoryPieces path).length - up)))
      else none := by
  have hps : Unslashed (directoryPieces path) := fun q hq =>
    unslashed_pieces path q ((List.dropLast_sublist _).subset hq)
  have hzero := directoryOf_eq path
  induction up with
  | zero =>
    have hle : 0 + rootPieces (directoryPieces path) ≤ (directoryPieces path).length := by
      rw [Nat.zero_add]
      exact rootPieces_le_length _
    rw [if_pos hle, directoryAbove?, hzero, Nat.sub_zero, List.take_length]
  | succ up ih =>
    rw [directoryAbove?, ih]
    generalize directoryPieces path = ps at hps
    by_cases hup : up + 1 + rootPieces ps ≤ ps.length
    · -- one more name can be left out
      have hlt : ps.length - (up + 1) < ps.length := by omega
      have hsucc : ps.length - up = ps.length - (up + 1) + 1 := by omega
      have hne : ps.take (ps.length - up) ≠ [""] := by
        intro h
        obtain ⟨hhead, hone⟩ := head?_of_take_eq_root h
        have hroot : rootPieces ps = 1 := if_pos hhead
        omega
      rw [hsucc, List.take_succ_eq_append_getElem hlt] at hne
      rw [if_pos hup, if_pos (by omega), Option.bind_some, hsucc,
        List.take_succ_eq_append_getElem hlt, above?_slashed (hps _ (List.getElem_mem hlt)),
        if_neg hne]
    · -- only the root or the directory of relative paths is left, and neither is below another
      rw [if_neg hup]
      split
      · next hle =>
        have hroot : ps.length - up = rootPieces ps := by omega
        rw [hroot, take_rootPieces]
        split
        all_goals rfl
      · rfl

end Path

namespace Linking

open CrossRef.Path

/-! ## Imports -/

/-- The file an import means if a directory is the place to look for its module:
    the file of the directory itself if there is no name, otherwise the module as
    a file, or else as a directory of its own. -/
def meantIn? (directory module : String) (ids : List String) : Option String :=
  let own := directory ++ "__init__.py"
  let file := directory ++ modulePath module ++ ".py"
  let inner := directory ++ modulePath module ++ "/__init__.py"
  if module = "" then if own ∈ ids then some own else none
  else if file ∈ ids then some file
  else if inner ∈ ids then some inner
  else none

/-- So many steps lead from a file's directory to the root, or by one step beyond it. -/
def ReachesRoot (importer : String) (up : Nat) : Prop :=
  directoryAbove? importer up = some "/" ∨ (0 < up ∧ directoryAbove? importer (up - 1) = some "/")

instance (importer : String) (up : Nat) : Decidable (ReachesRoot importer up) :=
  inferInstanceAs (Decidable (_ ∨ _))

/-- The directory in which an import that goes up so many steps looks for its module. -/
def importDirectory? (importer : String) (up : Nat) : Option String :=
  if ReachesRoot importer up then some "" else directoryAbove? importer up

variable {importer : String} {up : Nat}

theorem find?_beq_eq (id : String) (ids : List String) :
    ids.find? (· == id) = if id ∈ ids then some id else none := by
  induction ids with
  | nil => rfl
  | cons a ids ih =>
    rw [List.find?_cons, ih]
    by_cases ha : a = id
    · simp [ha]
    · rw [beq_eq_false_iff_ne.2 ha]
      simp [Ne.symm ha]

theorem findSome?_modulePlaces (directory module : String) (ids : List String) :
    ((modulePlaces module).findSome? fun place => ids.find? (· == directory ++ place)) =
      meantIn? directory module ids := by
  have hempty : (modulePath module).isEmpty = true ↔ module = "" := by
    rw [String.isEmpty_iff, ← String.toList_eq_nil_iff, modulePath, String.toList_map,
      List.map_eq_nil_iff, String.toList_eq_nil_iff]
  simp only [find?_beq_eq, modulePlaces, meantIn?, hempty, String.append_assoc]
  by_cases hmodule : module = ""
  · rw [if_pos hmodule, if_pos hmodule]
    by_cases hown : directory ++ "__init__.py" ∈ ids
    · simp [hown]
    · simp [hown]
  · rw [if_neg hmodule, if_neg hmodule]
    by_cases hfile : directory ++ (modulePath module ++ ".py") ∈ ids
    · simp [hfile]
    · by_cases hinner : directory ++ (modulePath module ++ "/__init__.py") ∈ ids
      · simp [hfile, hinner]
      · simp [hfile, hinner]

/-- The root in front of a place is left out, any other directory is not. -/
theorem below_intercalate (qs : List String) (place : String) :
    below ("/".intercalate qs) place = (if qs = [""] then "" else slashed qs) ++ place := by
  rcases List.eq_nil_or_concat qs with rfl | ⟨ps, p, rfl⟩
  · rfl
  · rw [List.concat_eq_append, intercalate_concat, below, slashed_concat]
    have hiff : (slashed ps ++ p).isEmpty = true ↔ ps ++ [p] = [""] := by
      rw [String.isEmpty_iff, String.append_eq_empty_iff, slashed_eq_empty]
      constructor
      · rintro ⟨rfl, rfl⟩
        rfl
      · intro h
        cases ps with
        | nil => exact ⟨rfl, List.singleton_inj.1 h⟩
        | cons q ps => simp at h
    by_cases h : ps ++ [p] = [""]
    · rw [if_pos (hiff.2 h), if_pos h, String.empty_append]
    · rw [if_neg (mt hiff.1 h), if_neg h]

/-- Where the way up ends at the root: at the first piece of an absolute path. -/
theorem directoryAbove?_eq_root_iff :
    directoryAbove? importer up = some "/" ↔
      (directoryPieces importer).head? = some "" ∧ up + 1 = (directoryPieces importer).length := by
  rw [directoryAbove?_eq]
  generalize directoryPieces importer = ps
  constructor
  · intro h
    simp only [Option.ite_none_right_eq_some, Option.some.injEq, slashed_eq_root] at h
    obtain ⟨hle, htake⟩ := h
    obtain ⟨hhead, hone⟩ := head?_of_take_eq_root htake
    exact ⟨hhead, by omega⟩
  · rintro ⟨hhead, hlength⟩
    have hroot : rootPieces ps = 1 := if_pos hhead
    have htake := take_rootPieces ps
    rw [hroot, if_pos hhead] at htake
    rw [if_pos (by omega), show ps.length - up = 1 by omega, htake]
    rfl

theorem reachesRoot_iff : ReachesRoot importer up ↔
    (directoryPieces importer).head? = some "" ∧ up ≤ (directoryPieces importer).length ∧
      (directoryPieces importer).length ≤ up + 1 := by
  rw [ReachesRoot, directoryAbove?_eq_root_iff, directoryAbove?_eq_root_iff]
  generalize directoryPieces importer = ps
  constructor
  · rintro (⟨hhead, h⟩ | ⟨hpos, hhead, h⟩)
    · exact ⟨hhead, by omega, by omega⟩
    · exact ⟨hhead, by omega, by omega⟩
  · rintro ⟨hhead, hle, hge⟩
    have hpos : 0 < ps.length := List.length_pos_of_mem (List.mem_of_mem_head? hhead)
    by_cases h : up + 1 = ps.length
    · exact .inl ⟨hhead, h⟩
    · exact .inr ⟨by omega, hhead, by omega⟩

/-- The directory of an import, by the pieces that lead to it. -/
theorem importDirectory?_eq (importer : String) (up : Nat) :
    importDirectory? importer up =
      let ps := directoryPieces importer
      let qs := ps.take (ps.length - up)
      if up ≤ ps.length then some (if qs = [""] then "" else slashed qs) else none := by
  have hreach := @reachesRoot_iff importer up
  rw [importDirectory?, directoryAbove?_eq]
  generalize directoryPieces importer = ps at hreach ⊢
  dsimp only
  by_cases hroot : ReachesRoot importer up
  · -- no piece is left, or the one in front of the root
    obtain ⟨hhead, hle, hge⟩ := hreach.1 hroot
    obtain ⟨rest, rfl⟩ := List.head?_eq_some_iff.1 hhead
    have hlength : ("" :: rest).length - up = 0 ∨ ("" :: rest).length - up = 1 := by omega
    rw [if_pos hroot, if_pos hle]
    rcases hlength with h | h
    · rw [h]
      rfl
    · rw [h]
      rfl
  · rw [if_neg hroot]
    by_cases hle : up + rootPieces ps ≤ ps.length
    · have hne : ps.take (ps.length - up) ≠ [""] := by
        intro h
        obtain ⟨hhead, hone⟩ := head?_of_take_eq_root h
        exact hroot (hreach.2 ⟨hhead, by omega, by omega⟩)
      rw [if_pos hle, if_pos (by omega), if_neg hne]
    · -- what leaves too few pieces but not too few for the root would reach the root
      have hlt : ¬ up ≤ ps.length := by
        intro hup
        by_cases hhead : ps.head? = some ""
        · have hone : rootPieces ps = 1 := if_pos hhead
          exact hroot (hreach.2 ⟨hhead, hup, by omega⟩)
        · have hzero : rootPieces ps = 0 := if_neg hhead
          omega
      rw [if_neg hle, if_neg hlt]

/-- **An import with dots looks for its module from the directory that they mean.**
    That is the directory of the importing file, or the one as many steps above it
    as there are further dots, and a way that goes up further than there are
    directories leads nowhere; but for the root of absolute paths and what would be
    above it, instead of which the module is looked for where relative paths start. -/
theorem relative_imports_exact (importer module : String) (up line : Nat) (ids : List String) :
    resolveModule? importer ⟨module, up + 1, line⟩ ids =
      (importDirectory? importer up).bind (meantIn? · module ids) := by
  rw [resolveModule?, if_pos (Nat.succ_pos up), baseDirectory?, importDirectory?_eq,
    Nat.add_sub_cancel]
  dsimp only [directoryPieces]
  split
  · rw [Option.bind_some, ← findSome?_modulePlaces]
    simp only [Option.bind_some, below_intercalate, bind]
  · rfl

/-- What a file right below the root imports from next to it, and what one in a
    directory of the root imports from the root, is not found, though it is there.
    One dot too many finds a file of a relative path, though the dots lead nowhere. -/
theorem relative_imports_exact_belowRoot :
    let meant (importer : String) (up : Nat) (ids : List String) : Option String :=
      (directoryAbove? importer up).bind (meantIn? · "core" ids)
    meant "/main.py" 0 ["/core.py", "/main.py"] = some "/core.py" ∧
      resolveModule? "/main.py" ⟨"core", 1, 1⟩ ["/core.py", "/main.py"] = none ∧
    meant "/app/main.py" 1 ["/app/main.py", "/core.py"] = some "/core.py" ∧
      resolveModule? "/app/main.py" ⟨"core", 2, 1⟩ ["/app/main.py", "/core.py"] = none ∧
    meant "/app/main.py" 2 ["/app/main.py", "core.py"] = none ∧
      resolveModule? "/app/main.py" ⟨"core", 3, 1⟩ ["/app/main.py", "core.py"] =
        some "core.py" := by
  decide +kernel

end Linking

end CrossRef
