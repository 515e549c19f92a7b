/-
  CrossRef.Proofs.FileTree.Sound

  Trees as file systems have them: the names in a directory differ, and each
  can stand in a path (`Entry.Sound`). So it is below every directory of such a
  tree (`Entry.Sound.get?`), and writing to a file leaves it so.
-/
import CrossRef.Proofs.FileTree.Write

namespace CrossRef

/-- A name that a directory can have. -/
structure EntryName (name : OsString) : Prop extends FileTree.IsName name where
  unslashed : OsString.slash ∉ name.bytes

instance (name : OsString) : Decidable (EntryName name) :=
  decidable_of_iff
    ((name ≠ .empty ∧ name ≠ .here ∧ name ≠ .up) ∧ name.bytes.length ≤ 255 ∧
      OsString.slash ∉ name.bytes)
    ⟨fun ⟨⟨hempty, hhere, hup⟩, hshort, hslash⟩ => ⟨⟨hempty, hhere, hup, hshort⟩, hslash⟩,
      fun h => ⟨⟨h.nonempty, h.notHere, h.notUp⟩, h.short, h.unslashed⟩⟩

theorem EntryName.plain {name : OsString} (h : EntryName name) : OsPath.IsPlain name :=
  ⟨by simp [OsPath.counts, h.nonempty, h.notHere], h.notUp, h.unslashed⟩

namespace Entry

/-- An entry whose directories have different names that can stand in paths. -/
inductive Sound : Entry → Prop where
  | file (content : Content) : Sound (.file content)
  | link (target : OsString) : Sound (.link target)
  | directory {children : List (OsString × Entry)} (hdistinct : (children.map Prod.fst).Nodup)
      (hnames : ∀ c ∈ children, EntryName c.1) (hbelow : ∀ c ∈ children, Sound c.2) :
      Sound (.directory children)

variable {name : OsString} {e : Entry} {cs : List (OsString × Entry)}

/-! ## Below a sound entry -/

theorem mem_of_lookup (h : cs.lookup name = some e) : (name, e) ∈ cs := by
  induction cs with
  | nil => cases h
  | cons c cs ih =>
    rw [List.lookup_cons] at h
    split at h
    · next hc =>
      cases h
      rw [beq_iff_eq] at hc
      exact hc ▸ List.mem_cons_self
    · exact List.mem_cons_of_mem _ (ih h)

theorem lookup_of_mem (hdistinct : (cs.map Prod.fst).Nodup) (h : (name, e) ∈ cs) :
    cs.lookup name = some e := by
  induction cs with
  | nil => cases h
  | cons c cs ih =>
    obtain ⟨hfresh, hdistinct⟩ := List.nodup_cons.1 hdistinct
    rcases List.mem_cons.1 h with rfl | h
    · rw [List.lookup_cons, beq_self_eq_true]
    · have hne : name ≠ c.1 := fun hname => hfresh (List.mem_map.2 ⟨_, h, hname⟩)
      rw [List.lookup_cons, beq_false_of_ne hne, ih hdistinct h]

theorem Sound.lookup (h : (Entry.directory cs).Sound) (hname : cs.lookup name = some e) :
    EntryName name ∧ e.Sound := by
  cases h with
  | directory hdistinct hnames hbelow =>
    have hmem := mem_of_lookup hname
    exact ⟨hnames _ hmem, hbelow _ hmem⟩

theorem Sound.get? {names : List OsString} {x : Entry} (h : e.Sound) (hx : e.get? names = some x) :
    (∀ n ∈ names, EntryName n) ∧ x.Sound := by
  induction names generalizing e with
  | nil =>
    cases hx
    exact ⟨List.forall_mem_nil _, h⟩
  | cons n ns ih =>
    obtain ⟨children, child, rfl, hchild, hbelow⟩ := exists_of_get?_cons hx
    obtain ⟨hn, hsound⟩ := h.lookup hchild
    obtain ⟨hns, hx⟩ := ih hsound hbelow
    exact ⟨List.forall_mem_cons.2 ⟨hn, hns⟩, hx⟩

/-! ## Putting entries -/

theorem mem_setChild {c : OsString × Entry} (h : c ∈ setChild name e cs) :
    c = (name, e) ∨ c ∈ cs := by
  induction cs with
  | nil => exact .inl (List.mem_singleton.1 h)
  | cons d cs ih =>
    rw [setChild] at h
    split at h
    · exact (List.mem_cons.1 h).imp_right (List.mem_cons_of_mem _)
    · rcases List.mem_cons.1 h with rfl | h
      · exact .inr List.mem_cons_self
      · exact (ih h).imp_right (List.mem_cons_of_mem _)

theorem nodup_setChild (h : (cs.map Prod.fst).Nodup) :
    ((setChild name e cs).map Prod.fst).Nodup := by
  induction cs with
  | nil => exact List.nodup_cons.2 ⟨List.not_mem_nil, List.nodup_nil⟩
  | cons d cs ih =>
    obtain ⟨hfresh, hcs⟩ := List.nodup_cons.1 h
    rw [setChild]
    split
    · next hd =>
      subst hd
      exact h
    · next hd =>
      refine List.nodup_cons.2 ⟨fun hmem => ?_, ih hcs⟩
      obtain ⟨c, hc, hname⟩ := List.mem_map.1 hmem
      rcases mem_setChild hc with rfl | hc
      · exact hd hname.symm
      · exact hfresh (List.mem_map.2 ⟨c, hc, hname⟩)

theorem Sound.setChild (h : (Entry.directory cs).Sound) (hname : EntryName name) (he : e.Sound) :
    (Entry.directory (setChild name e cs)).Sound := by
  cases h with
  | directory hdistinct hnames hbelow =>
    refine .directory (nodup_setChild hdistinct) (fun c hc => ?_) fun c hc => ?_
    · rcases mem_setChild hc with rfl | hc
      · exact hname
      · exact hnames c hc
    · rcases mem_setChild hc with rfl | hc
      · exact he
      · exact hbelow c hc

/-- A sound entry put where names lead that a directory can have. -/
theorem Sound.put {new : Entry} (hnew : new.Sound) {names : List OsString}
    (hnames : ∀ n ∈ names, EntryName n) {old : Option Entry} (hold : ∀ e ∈ old, e.Sound) :
    (put new names old).Sound := by
  induction names generalizing old with
  | nil => exact hnew
  | cons n ns ih =>
    obtain ⟨hn, hns⟩ := List.forall_mem_cons.1 hnames
    have hchildren : (Entry.directory (children old)).Sound := by
      unfold children
      split
      · exact hold _ rfl
      · exact .directory List.nodup_nil (List.forall_mem_nil _) (List.forall_mem_nil _)
    refine hchildren.setChild hn (ih hns fun below hbelow => ?_)
    exact (hchildren.lookup hbelow).2

end Entry

namespace FileTree

open Entry

variable {t : FileTree} {names : List OsString}

theorem sound_empty {current : List OsString} (hcurrent : ∀ n ∈ current, EntryName n) :
    (empty current).root.Sound := by
  have hnone : Entry.Sound (.directory []) :=
    .directory List.nodup_nil (List.forall_mem_nil _) (List.forall_mem_nil _)
  refine Sound.put hnone hcurrent ?_
  rintro e ⟨⟩
  exact hnone

/-- Writing to a file leaves a sound tree. -/
theorem sound_withText (h : t.root.Sound) (hnames : ∀ n ∈ names, EntryName n) (text : String) :
    (t.withText names text).root.Sound := by
  refine Sound.put (.file _) hnames ?_
  rintro e ⟨⟩
  exact h

end FileTree

end CrossRef
