/-
  CrossRef.Proofs.FileTree.Way

  How paths are followed, step by step (`way_iff`): at every piece a path stays
  where it is, goes up, enters what the piece names, or goes on where a link
  points. What is known of a place a path leads to is proved along its way, and
  behind the way to an entry a longer path goes on from there (`Way.behind`).
-/
import CrossRef.FileTree

namespace CrossRef

/-! ## Entries -/

namespace Entry

variable {e : Entry} {names more : List OsString} {name : OsString}

theorem get?_cons {children : List (OsString × Entry)} :
    (directory children).get? (name :: names) =
      (children.lookup name).bind fun below => below.get? names := by
  rw [get?]
  cases children.lookup name
  all_goals rfl

/-- Only directories have anything below them. -/
theorem exists_of_get?_cons {below : Entry} (h : e.get? (name :: names) = some below) :
    ∃ children child, e = directory children ∧ children.lookup name = some child ∧
      child.get? names = some below := by
  cases e with
  | directory children =>
    rw [get?_cons, Option.bind_eq_some_iff] at h
    obtain ⟨child, hchild, hbelow⟩ := h
    exact ⟨children, child, rfl, hchild, hbelow⟩
  | file _ => cases h
  | link _ => cases h

theorem get?_append :
    e.get? (names ++ more) = (e.get? names).bind fun below => below.get? more := by
  induction names generalizing e with
  | nil => rfl
  | cons n ns ih =>
    cases e with
    | directory children =>
      rw [List.cons_append, get?_cons, get?_cons, Option.bind_assoc]
      exact congrArg _ (funext fun below => ih)
    | file _ => rfl
    | link _ => rfl

/-- What a directory has under a name is found behind the way to it. -/
theorem get?_concat_of_lookup {children : List (OsString × Entry)}
    (h : e.get? names = some (.directory children)) :
    e.get? (names ++ [name]) = children.lookup name := by
  rw [get?_append, h, Option.bind_some, get?_cons]
  exact Option.bind_fun_some _

theorem exists_of_get?_concat {below : Entry} (h : e.get? (names ++ [name]) = some below) :
    ∃ children, e.get? names = some (.directory children) ∧ children.lookup name = some below := by
  rw [get?_append, Option.bind_eq_some_iff] at h
  obtain ⟨above, habove, hbelow⟩ := h
  obtain ⟨children, child, rfl, hchild, hend⟩ := exists_of_get?_cons hbelow
  cases hend
  exact ⟨children, habove, hchild⟩

end Entry

namespace FileTree

/-! ## Steps -/

/-- A piece of a path that stands for a name. -/
structure IsName (piece : OsString) : Prop where
  nonempty : piece ≠ .empty
  notHere : piece ≠ .here
  notUp : piece ≠ .up
  short : piece.bytes.length ≤ 255

theorem IsName.not_stay {p : OsString} (hp : IsName p) : ¬ (p = .empty ∨ p = .here) :=
  not_or.2 ⟨hp.nonempty, hp.notHere⟩

/-- Where a path leads from a directory through a number of links at most. -/
inductive Way (t : FileTree) : Nat → List OsString → List OsString → Place → Prop where
  | stop {links : Nat} {here : List OsString} {e : Entry} (hhere : t.root.get? here = some e) :
      Way t links here [] (.found here e)
  | stay {links : Nat} {here pieces : List OsString} {place : Place} {p : OsString}
      {children : List (OsString × Entry)} (hhere : t.root.get? here = some (.directory children))
      (hp : p = .empty ∨ p = .here) (hrest : Way t links here pieces place) :
      Way t links here (p :: pieces) place
  | up {links : Nat} {here pieces : List OsString} {place : Place}
      {children : List (OsString × Entry)} (hhere : t.root.get? here = some (.directory children))
      (hrest : Way t links here.dropLast pieces place) : Way t links here (.up :: pieces) place
  | absent {links : Nat} {here pieces : List OsString} {p : OsString}
      {children : List (OsString × Entry)} (hhere : t.root.get? here = some (.directory children))
      (hp : IsName p) (hnone : children.lookup p = none) :
      Way t links here (p :: pieces) (.missing here p pieces)
  | jump {links : Nat} {here pieces : List OsString} {place : Place} {p target : OsString}
      {children : List (OsString × Entry)} (hhere : t.root.get? here = some (.directory children))
      (hp : IsName p) (hlink : children.lookup p = some (.link target))
      (htarget : target.bytes.isEmpty = false)
      (hrest : Way t links (if OsPath.isAbsolute target then [] else here)
        (OsPath.pieces target ++ pieces) place) :
      Way t (links + 1) here (p :: pieces) place
  | enter {links : Nat} {here pieces : List OsString} {place : Place} {p : OsString} {e : Entry}
      {children : List (OsString × Entry)} (hhere : t.root.get? here = some (.directory children))
      (hp : IsName p) (hentry : children.lookup p = some e) (hlink : ∀ target, e ≠ .link target)
      (hrest : Way t links (here ++ [p]) pieces place) : Way t links here (p :: pieces) place

variable {t : FileTree} {links : Nat} {here pieces : List OsString} {place : Place}

/-- A way is followed step by step, if the ways behind links are. -/
theorem way_of_followPieces {jump : List OsString → List OsString → Except IoFault Place}
    (hjump : ∀ here pieces place, jump here pieces = .ok place →
      ∃ links', links = links' + 1 ∧ Way t links' here pieces place)
    (h : t.followPieces jump here pieces = .ok place) : Way t links here pieces place := by
  induction pieces generalizing here with
  | nil =>
    rw [followPieces] at h
    split at h
    · next e he =>
      cases h
      exact .stop he
    · cases h
  | cons p ps ih =>
    rw [followPieces] at h
    split at h
    · next children hhere =>
      split at h
      · next hp => exact .stay hhere hp (ih h)
      · next hblank =>
        rw [not_or] at hblank
        split at h
        · next hp =>
          subst hp
          exact .up hhere (ih h)
        · next hup =>
          split at h
          · cases h
          · next hshort =>
            have hp : IsName p := ⟨hblank.1, hblank.2, hup, Nat.not_lt.1 hshort⟩
            split at h
            · next hnone =>
              cases h
              exact .absent hhere hp hnone
            · next target hlink =>
              split at h
              · cases h
              · next htarget =>
                obtain ⟨links', rfl, hrest⟩ := hjump _ _ _ h
                exact .jump hhere hp hlink (Bool.eq_false_iff.2 htarget) hrest
            · next e hlink hentry => exact .enter hhere hp hentry hlink (ih h)
    · cases h
    · cases h

theorem exists_follow_eq (t : FileTree) (links : Nat) :
    ∃ jump, t.follow links = t.followPieces jump := by
  cases links
  all_goals exact ⟨_, rfl⟩

theorem follow_of_way (h : Way t links here pieces place) :
    t.follow links here pieces = .ok place := by
  induction h with
  | @stop links here e hhere =>
    obtain ⟨jump, hjump⟩ := t.exists_follow_eq links
    rw [hjump, followPieces, hhere]
  | @stay links here pieces place p children hhere hp hrest ih =>
    obtain ⟨jump, hjump⟩ := t.exists_follow_eq links
    rw [hjump] at ih ⊢
    simp only [followPieces, hhere, if_pos hp, ih]
  | @up links here pieces place children hhere hrest ih =>
    obtain ⟨jump, hjump⟩ := t.exists_follow_eq links
    have hblank : ¬ (OsString.up = .empty ∨ OsString.up = .here) := by decide
    rw [hjump] at ih ⊢
    simp only [followPieces, hhere, if_neg hblank, if_pos, ih]
  | @absent links here pieces p children hhere hp hnone =>
    obtain ⟨jump, hjump⟩ := t.exists_follow_eq links
    rw [hjump]
    simp [followPieces, hhere, hp.nonempty, hp.notHere, hp.notUp, Nat.not_lt.2 hp.short, hnone]
  | @jump links here pieces place p target children hhere hp hlink htarget hrest ih =>
    rw [follow, followPieces, hhere]
    simp only [if_neg hp.not_stay, if_neg hp.notUp, if_neg (Nat.not_lt.2 hp.short), hlink, htarget,
      ih, Bool.false_eq_true, if_false]
  | @enter links here pieces place p e children hhere hp hentry hlink hrest ih =>
    obtain ⟨jump, hjump⟩ := t.exists_follow_eq links
    rw [hjump] at ih ⊢
    simp [followPieces, hhere, hp.nonempty, hp.notHere, hp.notUp, Nat.not_lt.2 hp.short, hentry, ih]

theorem way_of_follow (h : t.follow links here pieces = .ok place) :
    Way t links here pieces place := by
  induction links generalizing here pieces place with
  | zero =>
    refine way_of_followPieces (fun _ _ _ hjump => ?_) h
    cases hjump
  | succ links ih => exact way_of_followPieces (fun _ _ _ hjump => ⟨links, rfl, ih hjump⟩) h

/-- A path is followed exactly along its way. -/
theorem way_iff : Way t links here pieces place ↔ t.follow links here pieces = .ok place :=
  ⟨follow_of_way, way_of_follow⟩

/-! ## Where ways end -/

theorem Way.unique {place' : Place} (h : Way t links here pieces place)
    (h' : Way t links here pieces place') : place = place' :=
  Except.ok.inj ((follow_of_way h).symm.trans (follow_of_way h'))

theorem Way.get?_found {names : List OsString} {e : Entry}
    (h : Way t links here pieces (.found names e)) : t.root.get? names = some e := by
  generalize hplace : Place.found names e = place at h
  induction h with
  | stop hhere =>
    cases hplace
    exact hhere
  | stay _ _ _ ih => exact ih hplace
  | up _ _ ih => exact ih hplace
  | absent => cases hplace
  | jump _ _ _ _ _ ih => exact ih hplace
  | enter _ _ _ _ _ ih => exact ih hplace

theorem Way.lookup_missing {directory rest : List OsString} {name : OsString}
    (h : Way t links here pieces (.missing directory name rest)) :
    ∃ children, t.root.get? directory = some (.directory children) ∧ IsName name ∧
      children.lookup name = none := by
  generalize hplace : Place.missing directory name rest = place at h
  induction h with
  | stop => cases hplace
  | stay _ _ _ ih => exact ih hplace
  | up _ _ ih => exact ih hplace
  | absent hhere hp hnone =>
    cases hplace
    exact ⟨_, hhere, hp, hnone⟩
  | jump _ _ _ _ _ ih => exact ih hplace
  | enter _ _ _ _ _ ih => exact ih hplace

/-- A path with pieces starts in a directory. -/
theorem Way.exists_directory (h : Way t links here pieces place) (hpieces : pieces ≠ []) :
    ∃ children, t.root.get? here = some (.directory children) := by
  cases h with
  | stop => exact absurd rfl hpieces
  | stay hhere | up hhere | absent hhere | jump hhere | enter hhere => exact ⟨_, hhere⟩

/-! ## Parts of ways -/

/-- A way may lead through fewer links than allowed. -/
theorem Way.mono {links' : Nat} (h : Way t links here pieces place) (hlinks : links ≤ links') :
    Way t links' here pieces place := by
  induction h generalizing links' with
  | stop hhere => exact .stop hhere
  | stay hhere hp hrest ih => exact .stay hhere hp (ih hlinks)
  | up hhere hrest ih => exact .up hhere (ih hlinks)
  | absent hhere hp hnone => exact .absent hhere hp hnone
  | jump hhere hp hlink htarget hrest ih =>
    obtain ⟨left, rfl⟩ := Nat.exists_eq_add_one_of_ne_zero (Nat.ne_zero_of_lt hlinks)
    exact .jump hhere hp hlink htarget (ih (Nat.le_of_succ_le_succ hlinks))
  | enter hhere hp hentry hlink hrest ih => exact .enter hhere hp hentry hlink (ih hlinks)

theorem children_unique {before after : List (OsString × Entry)}
    (h : t.root.get? here = some (.directory before))
    (h' : t.root.get? here = some (.directory after)) : before = after :=
  Entry.directory.inj (Option.some.inj (h.symm.trans h'))

/-- Behind the pieces that lead to an entry a path goes on from that entry, with
    the links that are left. -/
theorem Way.behind {names : List OsString} {e : Entry} {more : List OsString}
    (h : Way t links here pieces (.found names e))
    (hall : Way t links here (pieces ++ more) place) :
    ∃ left ≤ links, Way t left names more place := by
  generalize hplace : Place.found names e = found at h
  induction h with
  | stop hhere =>
    cases hplace
    exact ⟨_, Nat.le_refl _, hall⟩
  | stay hhere hp hrest ih =>
    cases hall with
    | stay _ _ hall => exact ih hall hplace
    | up => exact absurd hp (by decide)
    | absent _ hp' | jump _ hp' | enter _ hp' => exact absurd hp hp'.not_stay
  | up hhere hrest ih =>
    cases hall with
    | stay _ hp => exact absurd hp (by decide)
    | up _ hall => exact ih hall hplace
    | absent _ hp | jump _ hp | enter _ hp => exact absurd rfl hp.notUp
  | absent => cases hplace
  | jump hhere hp hlink htarget hrest ih =>
    cases hall with
    | stay _ hp' => exact absurd hp' hp.not_stay
    | up => exact absurd rfl hp.notUp
    | absent hhere' _ hnone =>
      rw [children_unique hhere hhere', hnone] at hlink
      cases hlink
    | jump hhere' _ hlink' _ hall =>
      -- both go on behind the same link
      rw [children_unique hhere hhere', hlink'] at hlink
      cases hlink
      have hjoined := (List.append_assoc ..).symm ▸ hall
      obtain ⟨left, hleft, hway⟩ := ih hjoined hplace
      exact ⟨left, Nat.le_succ_of_le hleft, hway⟩
    | enter hhere' _ hentry hother =>
      rw [children_unique hhere hhere', hentry] at hlink
      exact absurd (Option.some.inj hlink) (hother _)
  | enter hhere hp hentry hlink hrest ih =>
    cases hall with
    | stay _ hp' => exact absurd hp' hp.not_stay
    | up => exact absurd rfl hp.notUp
    | absent hhere' _ hnone =>
      rw [children_unique hhere hhere', hnone] at hentry
      cases hentry
    | jump hhere' _ hother =>
      rw [children_unique hhere hhere', hother] at hentry
      exact absurd (Option.some.inj hentry).symm (hlink _)
    | enter _ _ _ _ hall => exact ih hall hplace

/-! ## Pieces that do not count -/

/-- A row of pieces with some of those left out that stand for nothing. -/
inductive Drops : List OsString → List OsString → Prop where
  | nil : Drops [] []
  | keep (p : OsString) {ps qs : List OsString} (h : Drops ps qs) : Drops (p :: ps) (p :: qs)
  | drop {p : OsString} (hp : p = .empty ∨ p = .here) {ps qs : List OsString} (h : Drops ps qs) :
      Drops (p :: ps) qs

namespace Drops

variable {ps qs : List OsString}

theorem append_left (front : List OsString) (h : Drops ps qs) :
    Drops (front ++ ps) (front ++ qs) := by
  induction front with
  | nil => exact h
  | cons p front ih => exact .keep p ih

theorem filter (counts : OsString → Bool)
    (hcounts : ∀ p, counts p = false → p = .empty ∨ p = .here) (ps : List OsString) :
    Drops ps (ps.filter counts) := by
  induction ps with
  | nil => exact .nil
  | cons p ps ih =>
    cases hp : counts p with
    | true =>
      rw [List.filter_cons_of_pos hp]
      exact .keep p ih
    | false =>
      rw [List.filter_cons_of_neg (by rw [hp]; decide)]
      exact .drop (hcounts p hp) ih

end Drops

/-- A path leads to an entry without the pieces that stand for nothing, too. -/
theorem Way.drop {names : List OsString} {e : Entry}
    (h : Way t links here pieces (.found names e)) {qs : List OsString} (hdrops : Drops pieces qs) :
    Way t links here qs (.found names e) := by
  generalize hplace : Place.found names e = place at h ⊢
  induction h generalizing qs with
  | stop hhere =>
    cases hdrops
    exact .stop hhere
  | stay hhere hp hrest ih =>
    cases hdrops with
    | keep _ hdrops => exact .stay hhere hp (ih hdrops hplace)
    | drop _ hdrops => exact ih hdrops hplace
  | up hhere hrest ih =>
    cases hdrops with
    | keep _ hdrops => exact .up hhere (ih hdrops hplace)
    | drop hp => exact absurd hp (by decide)
  | absent => cases hplace
  | jump hhere hp hlink htarget hrest ih =>
    cases hdrops with
    | keep _ hdrops =>
      exact .jump hhere hp hlink htarget (ih (hdrops.append_left _) hplace)
    | drop hblank => exact absurd hblank hp.not_stay
  | enter hhere hp hentry hlink hrest ih =>
    cases hdrops with
    | keep _ hdrops => exact .enter hhere hp hentry hlink (ih hdrops hplace)
    | drop hblank => exact absurd hblank hp.not_stay

end FileTree

end CrossRef
