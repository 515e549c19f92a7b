/-
  CrossRef.Proofs.ConfigStore

  Storing settings (`load_store`). Where a file may be written, what is stored
  is what is loaded afterwards; whenever storing fails, and so where there is a
  file that is not to be overwritten, the whole tree stays as it is.
-/
import CrossRef.ConfigStore
import CrossRef.Proofs.ConfigFile
import CrossRef.Proofs.FileTree.Write

namespace CrossRef.Config

variable {toml : Toml.Codec} {c : Config} {t : FileTree} {path : OsString} {force : Bool}

/-- An existing path is refused before anything is written. -/
theorem store_of_refused (h : t.exists? path = true) :
    c.store toml t path false = (.error (.configExists path.lossy), t) := by
  rw [store, h]
  rfl

/-- Otherwise the text of the settings is written. -/
theorem store_of_write {text : String} (h : t.exists? path = false ∨ force = true)
    (htext : toml.write? c.toTable = some text) :
    c.store toml t path force = ((t.write path text).1.mapError .io, (t.write path text).2) := by
  rw [store, htext, if_neg]
  rcases h with h | h
  all_goals simp [h]

/-- The settings in a file are those whose table its text holds. -/
theorem load_of_read (htoml : toml.Lawful) {text : String}
    (htext : toml.write? c.toTable = some text) (hexists : t.exists? path = true)
    (hread : t.read path = .ok text) : load toml t path = .ok (some c) := by
  obtain ⟨es, hes, hvalues⟩ := htoml.reads_back c.plain_toTable htext
  rw [load, hexists, hread]
  simp only [hes, Option.bind_some, ofTable?_of_values hvalues, Bool.not_true, Bool.false_eq_true,
    if_false]

/-- Whatever goes wrong, nothing is changed. -/
theorem store_of_error {e : Error} {t' : FileTree}
    (h : c.store toml t path force = (.error e, t')) : t' = t := by
  rw [store] at h
  split at h
  · exact (Prod.mk.inj h).2.symm
  · split at h
    · exact (Prod.mk.inj h).2.symm
    · next text _ =>
      obtain ⟨hfailed, rfl⟩ := Prod.mk.inj h
      cases hwrite : (t.write path text).1 with
      | ok _ =>
        rw [hwrite] at hfailed
        cases hfailed
      | error fault => exact FileTree.write_of_error hwrite

/-- Settings that are stored where nothing is or by force are loaded from there
    again. Without force an existing path is refused; whenever storing fails, the
    tree is the one it was. -/
theorem load_store {toml : Toml.Codec} (htoml : toml.Lawful) (c : Config) (t : FileTree)
    (path : OsString) (force : Bool) :
    (t.writable? path = true → t.exists? path = false ∨ force = true →
      ∃ t', c.store toml t path force = (.ok (), t') ∧ load toml t' path = .ok (some c)) ∧
    (t.exists? path = true → force = false →
      c.store toml t path force = (.error (.configExists path.lossy), t)) ∧
    ∀ e t', c.store toml t path force = (.error e, t') → t' = t := by
  refine ⟨fun hwritable hforce => ?_, ?_, fun e t' hstore => store_of_error hstore⟩
  · obtain ⟨text, htext⟩ := htoml.writes c.plain_toTable
    have hwrite := FileTree.writable?_iff.1 hwritable text
    obtain ⟨hexists, hread⟩ := FileTree.read_of_write hwritable text
    refine ⟨(t.write path text).2, ?_, load_of_read htoml htext hexists hread⟩
    rw [store_of_write hforce htext, hwrite]
    rfl
  · rintro hexists rfl
    exact store_of_refused hexists

/-- Patterns with quotes, backslashes and control characters, stored through a
    link that points nowhere, where they stay when others are refused. -/
theorem load_store_dangling :
    let toml := Toml.Codec.standard
    let c : Config :=
      ⟨none, some .dependencyRev, ["a\"\"\"\x27\x27\x27\\", "\n\x00"], ["\x7f\"\n"]⟩
    let t : FileTree := (FileTree.empty ["w"]).place "x.toml" (.link "y.toml")
    let t' := (c.store toml t "x.toml" false).2
    load toml t' "x.toml" = .ok (some c) ∧
      starter.store toml t' "./x.toml" false = (.error (.configExists "./x.toml"), t') := by
  intro toml c t t'
  have hlawful : toml.Lawful := Toml.lawful_standard
  have hwritable : t.writable? "x.toml" = true := by decide +kernel
  have hexists : t.exists? "x.toml" = false := by decide +kernel
  have hthere : t'.exists? "./x.toml" = true := by decide +kernel
  obtain ⟨_, hstore, hload⟩ := (load_store hlawful c t "x.toml" false).1 hwritable (.inl hexists)
  have hrefused := (load_store hlawful starter t' "./x.toml" false).2.1 hthere rfl
  rw [OsString.lossy_ofText] at hrefused
  refine ⟨?_, hrefused⟩
  rw [← hload]
  show load toml (c.store toml t "x.toml" false).2 "x.toml" = _
  rw [hstore]

end CrossRef.Config
