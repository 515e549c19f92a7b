/-
  CrossRef.Proofs.FileTree.Write

  What has been written to a path is read from it (`read_of_write`). Putting a
  file where there was one, or where a directory had nothing of that name,
  leaves directories and links as they were, so that every way to the place of
  the file leads to it again.
-/
import CrossRef.Proofs.FileTree.Way
import CrossRef.Proofs.OsPath

namespace CrossRef

/-! ## Putting an entry into a directory -/

namespace Entry

theorem lookup_setChild_of_ne {name other : OsString} (h : other ≠ name) (e : Entry)
    (cs : List (OsString × Entry)) : (setChild name e cs).lookup other = cs.lookup other := by
  induction cs with
  | nil => rw [setChild, List.lookup_cons, beq_false_of_ne h]
  | cons c cs ih =>
    rw [setChild]
    split
    · next hc => rw [List.lookup_cons, List.lookup_cons, hc, beq_false_of_ne h]
    · rw [List.lookup_cons, List.lookup_cons, ih]

/-- What becomes of an entry when another is put elsewhere: a directory may
    have other children, anything else stays as it is. -/
inductive Kept : Entry → Entry → Prop where
  | same (e : Entry) : Kept e e
  | directory (before after : List (OsString × Entry)) : Kept (.directory before) (.directory after)

/-- An entry is put in place of no directory and in a directory. Every other
    entry is kept. -/
theorem exists_kept_put (new : Entry) {directory : List OsString} {name : OsString} {e : Entry}
    {children : List (OsString × Entry)}
    (hdirectory : e.get? directory = some (.directory children))
    (hname : ∀ below, children.lookup name ≠ some (.directory below)) {names : List OsString}
    (hne : names ≠ directory ++ [name]) {x : Entry} (hx : e.get? names = some x) :
    ∃ x', (put new (directory ++ [name]) (some e)).get? names = some x' ∧ Kept x x' := by
  induction directory generalizing e names with
  | nil =>
    cases hdirectory
    cases names with
    | nil =>
      cases hx
      exact ⟨_, rfl, .directory _ _⟩
    | cons n ns =>
      by_cases hn : n = name
      · subst hn
        obtain ⟨_, child, heq, hchild, hbelow⟩ := exists_of_get?_cons hx
        cases heq
        cases ns with
        | nil => exact absurd rfl hne
        | cons m ms =>
          obtain ⟨below, -, rfl, -⟩ := exists_of_get?_cons hbelow
          exact absurd hchild (hname below)
      · refine ⟨x, ?_, .same x⟩
        rw [List.nil_append, put, get?_cons, Entry.children, lookup_setChild_of_ne hn, ← hx,
          get?_cons]
  | cons d ds ih =>
    obtain ⟨above, child, rfl, hchild, hbelow⟩ := exists_of_get?_cons hdirectory
    cases names with
    | nil =>
      cases hx
      exact ⟨_, rfl, .directory _ _⟩
    | cons n ns =>
      rw [List.cons_append, put, get?_cons, Entry.children]
      rw [get?_cons] at hx
      by_cases hn : n = d
      · subst hn
        rw [hchild, Option.bind_some] at hx
        rw [lookup_setChild, hchild, Option.bind_some]
        exact ih hbelow (fun h => hne (congrArg (n :: ·) h)) hx
      · exact ⟨x, by rw [lookup_setChild_of_ne hn, hx], .same x⟩

end Entry

namespace FileTree

open Entry

/-! ## Putting a file into a tree -/

/-- Names of a file, or of nothing so far, in a directory. -/
structure Free (t : FileTree) (directory : List OsString) (name : OsString) : Prop where
  above : ∃ children, t.root.get? directory = some (.directory children)
  nothing : ∀ e, t.root.get? (directory ++ [name]) = some e → ∃ content, e = .file content

variable {t : FileTree} {directory : List OsString} {name : OsString}

theorem get?_withText (t : FileTree) (names : List OsString) (text : String) :
    (t.withText names text).root.get? names = some (.file (.text text)) :=
  get?_put _ _ _

theorem exists_kept_withText (h : t.Free directory name) (text : String) {names : List OsString}
    (hne : names ≠ directory ++ [name]) {e : Entry} (he : t.root.get? names = some e) :
    ∃ e', (t.withText (directory ++ [name]) text).root.get? names = some e' ∧ Kept e e' := by
  obtain ⟨children, hchildren⟩ := h.above
  refine exists_kept_put _ hchildren (fun below hbelow => ?_) hne he
  rw [← get?_concat_of_lookup hchildren] at hbelow
  obtain ⟨content, hcontent⟩ := h.nothing _ hbelow
  cases hcontent

theorem exists_directory_withText (h : t.Free directory name) (text : String)
    {names : List OsString} {children : List (OsString × Entry)}
    (hchildren : t.root.get? names = some (.directory children)) :
    ∃ after, (t.withText (directory ++ [name]) text).root.get? names = some (.directory after) := by
  have hne : names ≠ directory ++ [name] := by
    rintro rfl
    obtain ⟨content, hcontent⟩ := h.nothing _ hchildren
    cases hcontent
  obtain ⟨e', he', hkept⟩ := exists_kept_withText h text hne hchildren
  cases hkept
  all_goals exact ⟨_, he'⟩

theorem lookup_link_withText (h : t.Free directory name) (text : String) {here : List OsString}
    {p target : OsString} {before after : List (OsString × Entry)}
    (hbefore : t.root.get? here = some (.directory before))
    (hafter : (t.withText (directory ++ [name]) text).root.get? here = some (.directory after))
    (hlink : before.lookup p = some (.link target)) : after.lookup p = some (.link target) := by
  rw [← get?_concat_of_lookup hbefore] at hlink
  rw [← get?_concat_of_lookup hafter]
  have hne : here ++ [p] ≠ directory ++ [name] := by
    intro heq
    rw [heq] at hlink
    obtain ⟨content, hcontent⟩ := h.nothing _ hlink
    cases hcontent
  obtain ⟨e', he', hkept⟩ := exists_kept_withText h text hne hlink
  cases hkept
  exact he'

theorem lookup_other_withText (h : t.Free directory name) (text : String) {here : List OsString}
    {p : OsString} {e : Entry} {before after : List (OsString × Entry)}
    (hbefore : t.root.get? here = some (.directory before))
    (hafter : (t.withText (directory ++ [name]) text).root.get? here = some (.directory after))
    (he : before.lookup p = some e) (hlink : ∀ target, e ≠ .link target) :
    ∃ e', after.lookup p = some e' ∧ ∀ target, e' ≠ .link target := by
  rw [← get?_concat_of_lookup hbefore] at he
  rw [← get?_concat_of_lookup hafter]
  by_cases hne : here ++ [p] = directory ++ [name]
  · rw [hne]
    exact ⟨_, get?_withText .., fun target hfile => by cases hfile⟩
  · obtain ⟨e', he', hkept⟩ := exists_kept_withText h text hne he
    refine ⟨e', he', fun target htarget => ?_⟩
    cases hkept with
    | same => exact hlink target htarget
    | directory => cases htarget

/-- The place of a file, there or not. -/
def Place.IsAt (directory : List OsString) (name : OsString) : Place → Prop
  | .found names _ => names = directory ++ [name]
  | .missing above absent rest => above = directory ∧ absent = name ∧ rest = []

/-- Every way to the place of a file leads to it when it has been put there. -/
theorem Way.withText (hfree : t.Free directory name) {links : Nat} {here pieces : List OsString}
    {place : Place} (h : Way t links here pieces place) (hplace : place.IsAt directory name)
    (text : String) :
    Way (t.withText (directory ++ [name]) text) links here pieces
      (.found (directory ++ [name]) (.file (.text text))) := by
  have hput := get?_withText t (directory ++ [name]) text
  induction h with
  | stop hhere =>
    obtain rfl : _ = directory ++ [name] := hplace
    exact .stop hput
  | stay hhere hp hrest ih =>
    obtain ⟨after, hafter⟩ := exists_directory_withText hfree text hhere
    exact .stay hafter hp (ih hplace)
  | up hhere hrest ih =>
    obtain ⟨after, hafter⟩ := exists_directory_withText hfree text hhere
    exact .up hafter (ih hplace)
  | absent hhere hp hnone =>
    obtain ⟨rfl, rfl, rfl⟩ := hplace
    obtain ⟨after, hafter⟩ := exists_directory_withText hfree text hhere
    refine .enter hafter hp (e := .file (.text text)) ?_ (fun target hfile => ?_) (.stop hput)
    · rw [← get?_concat_of_lookup hafter, hput]
    · cases hfile
  | jump hhere hp hlink htarget hrest ih =>
    obtain ⟨after, hafter⟩ := exists_directory_withText hfree text hhere
    exact .jump hafter hp (lookup_link_withText hfree text hhere hafter hlink) htarget (ih hplace)
  | enter hhere hp hentry hlink hrest ih =>
    obtain ⟨after, hafter⟩ := exists_directory_withText hfree text hhere
    obtain ⟨e', he', hlink'⟩ := lookup_other_withText hfree text hhere hafter hentry hlink
    exact .enter hafter hp he' hlink' (ih hplace)

/-! ## Writing -/

/-- Whether a path leads to a file, or to a name that an existing directory does not have. -/
def writable? (t : FileTree) (path : OsString) : Bool :=
  match t.locate path with
  | .ok (.found _ (.file _)) | .ok (.missing _ _ []) => true
  | _ => false

theorem locate_of_writable? {path : OsString} (h : t.writable? path = true) :
    (∃ names content, t.locate path = .ok (.found names (.file content))) ∨
      ∃ directory name, t.locate path = .ok (.missing directory name []) := by
  rw [writable?] at h
  split at h
  · next names content hplace => exact .inl ⟨names, content, hplace⟩
  · next directory name hplace => exact .inr ⟨directory, name, hplace⟩
  · cases h

theorem way_of_locate {path : OsString} {place : Place} (h : t.locate path = .ok place) :
    Way t linkLimit (if OsPath.isAbsolute path then [] else t.current) (OsPath.pieces path)
      place := by
  rw [locate] at h
  split at h
  · cases h
  · split at h
    · cases h
    · exact way_of_follow h

/-- A place that is found in one tree as in another is located alike. -/
theorem locate_eq_of_way {t' : FileTree} {path : OsString} {place place' : Place}
    (h : t.locate path = .ok place) (hcurrent : t'.current = t.current)
    (hway : Way t' linkLimit (if OsPath.isAbsolute path then [] else t.current) (OsPath.pieces path)
      place') : t'.locate path = .ok place' := by
  rw [locate] at h ⊢
  split at h
  · cases h
  · next hempty =>
    split at h
    · cases h
    · next hnul => rw [if_neg hempty, if_neg hnul, hcurrent, follow_of_way hway]

/-- A tree with a directory is one. -/
theorem exists_root_directory {names : List OsString} {children : List (OsString × Entry)}
    (h : t.root.get? names = some (.directory children)) :
    ∃ below, t.root = .directory below := by
  cases names with
  | nil => exact ⟨children, Option.some.inj h⟩
  | cons n ns =>
    obtain ⟨below, -, hroot, -⟩ := exists_of_get?_cons h
    exact ⟨below, hroot⟩

/-- What is written to a path is put where the path leads. -/
theorem exists_write {path : OsString} (h : t.writable? path = true) (text : String) :
    ∃ directory name place, t.locate path = .ok place ∧ place.IsAt directory name ∧
      t.Free directory name ∧
      t.write path text = (.ok (), t.withText (directory ++ [name]) text) := by
  obtain ⟨names, content, hplace⟩ | ⟨directory, name, hplace⟩ := locate_of_writable? h
  · have hway := way_of_locate hplace
    have hfile := hway.get?_found
    obtain ⟨children, hhere⟩ := hway.exists_directory (OsPath.pieces_ne_nil path)
    obtain ⟨below, hroot⟩ := exists_root_directory hhere
    obtain rfl | ⟨directory, name, rfl⟩ := List.eq_nil_or_concat names
    · rw [hroot] at hfile
      cases hfile
    · rw [List.concat_eq_append] at hplace hfile
      obtain ⟨children, hchildren, -⟩ := exists_of_get?_concat hfile
      refine ⟨directory, name, _, hplace, rfl, ⟨⟨children, hchildren⟩, fun e he => ?_⟩, ?_⟩
      · exact ⟨content, Option.some.inj (he.symm.trans hfile)⟩
      · rw [write, hplace]
  · obtain ⟨children, hchildren, -, hnone⟩ := (way_of_locate hplace).lookup_missing
    refine ⟨directory, name, _, hplace, ⟨rfl, rfl, rfl⟩, ⟨⟨children, hchildren⟩, fun e he => ?_⟩,
      ?_⟩
    · rw [get?_concat_of_lookup hchildren, hnone] at he
      cases he
    · rw [write, hplace]

/-- Exactly these paths can be written to. -/
theorem writable?_iff {path : OsString} :
    t.writable? path = true ↔ ∀ text, (t.write path text).1 = .ok () := by
  constructor
  · intro h text
    obtain ⟨directory, name, -, -, -, -, hwrite⟩ := exists_write h text
    rw [hwrite]
  · intro h
    have hwrite := h ""
    rw [writable?]
    rw [write] at hwrite
    cases hplace : t.locate path with
    | error fault =>
      rw [hplace] at hwrite
      cases hwrite
    | ok place =>
      rw [hplace] at hwrite
      match place with
      | .found names (.file content) => rfl
      | .missing above name [] => rfl
      | .found names (.directory _) => cases hwrite
      | .found names (.link _) => cases hwrite
      | .missing above name (p :: rest) => cases hwrite

/-- A write that fails leaves the tree as it is. -/
theorem write_of_error {path : OsString} {text : String} {fault : IoFault}
    (h : (t.write path text).1 = .error fault) : (t.write path text).2 = t := by
  rw [write] at h ⊢
  split at h
  · cases h
  · rfl
  · cases h
  · rfl
  · rfl

/-- What has been written to a path is read from it. -/
theorem read_of_write {path : OsString} (h : t.writable? path = true) (text : String) :
    (t.write path text).2.exists? path = true ∧ (t.write path text).2.read path = .ok text := by
  obtain ⟨directory, name, place, hplace, hat, hfree, hwrite⟩ := exists_write h text
  have hway := (way_of_locate hplace).withText hfree hat text
  have hlocate : (t.withText (directory ++ [name]) text).locate path =
      .ok (.found (directory ++ [name]) (.file (.text text))) :=
    locate_eq_of_way hplace rfl hway
  rw [hwrite]
  constructor
  · rw [exists?, find?, hlocate]
    rfl
  · rw [read, hlocate]
    rfl

end FileTree

end CrossRef
