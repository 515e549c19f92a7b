/-
  CrossRef.Proofs.Linking.ModulePath

  Which files a wildcard import can mean. It means no file that it does not
  lead to, so such a file among the others makes no difference
  (`resolveModule?_filter`). And where the name of its module is empty or ends
  in a word, it only leads to modules (`LeadsTo.extension?_eq`).
-/
import CrossRef.Linking.ModulePath
import Mathlib.Data.List.Find

namespace CrossRef

/-! ## Extensions -/

namespace Path

/-- What follows the last slash is the last piece. -/
theorem split_append (cs : List Char) {ds : List Char} (hds : '/' ∉ ds) (acc : List Char) :
    ∃ qs q, split '/' (cs ++ ds) acc = qs ++ [q ++ ds] := by
  induction cs generalizing acc with
  | nil =>
    refine ⟨[], acc.reverse, ?_⟩
    induction ds generalizing acc with
    | nil => rw [List.append_nil, List.append_nil, split, List.nil_append]
    | cons d ds ih =>
      obtain ⟨hd, hds⟩ := List.ne_and_not_mem_of_not_mem_cons hds
      have hsplit := ih hds (d :: acc)
      rw [List.reverse_cons, List.append_assoc] at hsplit
      rw [List.nil_append, split, if_neg (Ne.symm hd)]
      exact hsplit
  | cons c cs ih =>
    rw [List.cons_append, split]
    split
    · obtain ⟨qs, q, hq⟩ := ih []
      exact ⟨acc.reverse :: qs, q, congrArg (acc.reverse :: ·) hq⟩
    · exact ih (c :: acc)

theorem nameExtension?_eq_some {name : String} {front ext : List Char} {c : Char}
    (h : name.toList = front ++ c :: '.' :: ext) (hext : '.' ∉ ext) :
    nameExtension? name = some (String.ofList ext) := by
  have hbackwards : name.toList.reverse = ext.reverse ++ '.' :: c :: front.reverse := by
    rw [h, List.reverse_append, List.reverse_cons, List.reverse_cons]
    simp only [List.append_assoc, List.cons_append, List.nil_append]
  have hdot : ∀ d ∈ ext.reverse, (d != '.') = true := by
    intro d hd
    rw [bne_iff_ne]
    rintro rfl
    exact hext (List.mem_reverse.1 hd)
  rw [nameExtension?, hbackwards]
  simp only [List.dropWhile_append_of_pos hdot, List.takeWhile_append_of_pos hdot]
  simp

/-- A path that ends in a character, a dot and an extension. -/
theorem extension?_eq_some {path : String} {front ext : List Char} {c : Char}
    (h : path.toList = front ++ c :: '.' :: ext) (hc : c ≠ '/' ∧ c ≠ '.')
    (hslash : '/' ∉ ext) (hdot : '.' ∉ ext) : extension? path = some (String.ofList ext) := by
  have hds : '/' ∉ c :: '.' :: ext := by
    simp only [List.mem_cons, not_or]
    exact ⟨Ne.symm hc.1, by decide, hslash⟩
  obtain ⟨qs, q, hsplit⟩ := split_append front hds []
  have hpieces : pieces path =
      qs.map String.ofList ++ [String.ofList (q ++ c :: '.' :: ext)] := by
    rw [pieces, h, hsplit, List.map_append, List.map_singleton]
  -- the last piece has the character, so it is a name
  have hlast : ∀ s : String, (∀ d ∈ s.toList, d = '.') →
      String.ofList (q ++ c :: '.' :: ext) ≠ s := by
    rintro s hs rfl
    rw [String.toList_ofList] at hs
    exact hc.2 (hs c (List.mem_append_right _ List.mem_cons_self))
  have hname : Component.ofPiece? "" "." ".." (String.ofList (q ++ c :: '.' :: ext)) =
      some (.name (String.ofList (q ++ c :: '.' :: ext))) := by
    rw [Component.ofPiece?, if_neg, if_neg]
    · exact hlast ".." (by simp)
    · rintro (hempty | hhere)
      · exact hlast "" (by simp) hempty
      · exact hlast "." (by simp) hhere
  have hfile : fileName? path = some (String.ofList (q ++ c :: '.' :: ext)) := by
    rw [fileName?, components, steps, hpieces, List.filterMap_append, ← List.append_assoc]
    simp only [List.filterMap_cons, List.filterMap_nil, hname, List.getLast?_concat]
  rw [extension?, hfile]
  exact nameExtension?_eq_some (String.toList_ofList) hdot

end Path

namespace Linking

variable {importer id : String} {w : WildcardImport}

/-! ## What an import leads to -/

/-- The file stands where the import looks for its module. -/
def LeadsTo (importer : String) (w : WildcardImport) (id : String) : Prop :=
  if w.level > 0 then
    ∃ directory, baseDirectory? importer w.level = some directory ∧
      ∃ place ∈ modulePlaces w.module, id = below directory place
  else w.module ≠ "" ∧ ∃ place ∈ modulePlaces w.module, endsInPlace id place = true

/-- A search that does not accept `id` passes it over. -/
theorem find?_filter_ne {p : String → Bool} (h : p id = false) (ids : List String) :
    (ids.filter (· != id)).find? p = ids.find? p := by
  rw [List.find?_filter]
  refine List.find?_congr fun a _ => ?_
  by_cases ha : a = id
  · rw [ha, h]
    simp
  · simp [ha]

/-- Files that the import does not lead to are passed over. -/
theorem resolveModule?_filter (h : ¬ LeadsTo importer w id) (ids : List String) :
    resolveModule? importer w (ids.filter (· != id)) = resolveModule? importer w ids := by
  unfold LeadsTo at h
  unfold resolveModule?
  split
  · rename_i hlevel
    rw [if_pos hlevel] at h
    refine Option.bind_congr fun directory hdirectory => ?_
    have hplaces : ∀ place ∈ modulePlaces w.module,
        (ids.filter (· != id)).find? (· == below directory place) =
          ids.find? (· == below directory place) := by
      intro place hplace
      have hne : (id == below directory place) = false :=
        beq_eq_false_iff_ne.2 fun hid => h ⟨directory, hdirectory, place, hplace, hid⟩
      exact find?_filter_ne (p := fun x => x == below directory place) hne ids
    have hmap := congrArg (List.findSome? fun o => o) (List.map_congr_left hplaces)
    rwa [List.findSome?_map, List.findSome?_map] at hmap
  · rename_i hlevel
    rw [if_neg hlevel] at h
    split
    · rfl
    · rename_i hmodule
      refine find?_filter_ne (Bool.and_eq_false_iff.2 (.inr ?_)) ids
      refine Bool.eq_false_iff.2 fun hany => h ⟨fun hempty => hmodule ?_, ?_⟩
      · rw [hempty]
        rfl
      · exact List.any_eq_true.1 hany

/-! ## Modules -/

/-- A file that an import leads to ends as the places of modules do. -/
theorem LeadsTo.exists_place (h : LeadsTo importer w id) :
    ∃ place ∈ modulePlaces w.module, place.toList <:+ id.toList := by
  unfold LeadsTo at h
  split at h
  · -- a directory only stands in front
    obtain ⟨directory, -, place, hplace, rfl⟩ := h
    refine ⟨place, hplace, ?_⟩
    unfold below
    split
    · exact List.suffix_refl _
    · rw [String.toList_append]
      exact List.suffix_append _ _
  · obtain ⟨-, place, hplace, hends⟩ := h
    refine ⟨place, hplace, ?_⟩
    rw [endsInPlace, Bool.or_eq_true, beq_iff_eq, List.isSuffixOf_iff_suffix] at hends
    rcases hends with rfl | hends
    · exact List.suffix_refl _
    · exact (List.suffix_cons _ _).trans hends

/-- The name of the module is empty, or neither a dot nor a slash comes last. -/
def EndsInWord (module : String) : Prop := ∀ c ∈ module.toList.getLast?, c ≠ '/' ∧ c ≠ '.'

theorem endsInWord_empty : EndsInWord "" := fun c hc => by cases hc

theorem toList_modulePath (module : String) :
    (modulePath module).toList = module.toList.map fun c => if c = '.' then '/' else c := by
  rw [modulePath, String.toList_map]

/-- Places of modules end in a word and `.py`. -/
theorem place_of_mem_modulePlaces {module place : String} (h : place ∈ modulePlaces module)
    (hmodule : EndsInWord module) :
    ∃ front c, place.toList = front ++ c :: ".py".toList ∧ c ≠ '/' ∧ c ≠ '.' := by
  have hinit : '_' ≠ '/' ∧ '_' ≠ '.' := by decide
  unfold modulePlaces at h
  simp only at h
  split at h
  · cases List.mem_singleton.1 h
    exact ⟨"__init_".toList, '_', by decide, hinit⟩
  · rename_i hpath
    simp only [List.mem_cons, List.not_mem_nil, or_false] at h
    rcases h with rfl | rfl
    · -- the path ends as the name does
      cases hlast : module.toList.getLast? with
      | none =>
        rw [List.getLast?_eq_none_iff] at hlast
        rw [String.isEmpty_iff, ← String.toList_eq_nil_iff, toList_modulePath, hlast] at hpath
        exact absurd rfl hpath
      | some c =>
        have hc := hmodule c hlast
        obtain ⟨cs, hcs⟩ := List.getLast?_eq_some_iff.1 hlast
        refine ⟨cs.map fun c => if c = '.' then '/' else c, c, ?_, hc⟩
        rw [String.toList_append, toList_modulePath, hcs, List.map_append, List.map_singleton,
          if_neg hc.2, List.append_assoc]
        rfl
    · refine ⟨(modulePath module).toList ++ "/__init_".toList, '_', ?_, hinit⟩
      rw [String.toList_append, List.append_assoc]
      rfl

/-- An import of a name, or of dots alone, only leads to modules. -/
theorem LeadsTo.extension?_eq (h : LeadsTo importer w id) (hmodule : EndsInWord w.module) :
    Path.extension? id = some "py" := by
  obtain ⟨place, hplace, front, hid⟩ := h.exists_place
  obtain ⟨middle, c, hc, hname⟩ := place_of_mem_modulePlaces hplace hmodule
  have hpath : id.toList = (front ++ middle) ++ c :: '.' :: ['p', 'y'] := by
    rw [← hid, hc, List.append_assoc]
    rfl
  exact Path.extension?_eq_some hpath hname (by decide) (by decide)

end Linking

end CrossRef
