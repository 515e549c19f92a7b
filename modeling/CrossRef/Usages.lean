/-
  CrossRef.Usages

  The usages of one file, read off its tree: every name that is neither
  reserved nor the name of a declaration where it stands. Attribute names,
  the names of keyword arguments, plain imports and scope statements use
  nothing; `from` imports use the names they import.
-/
import CrossRef.Extraction

namespace CrossRef.Usages

open CrossRef.Syntax

/-! ## Where names occur -/

/-- The names a `from` import takes out of its module, one part at a time. -/
def importedParts (n : Node) : List Node :=
  (n.children.filter fun c => c.field == some .name).flatMap fun c =>
    let name := if c.kind == .aliasedImport then (c.child? .name).toList else [c]
    name.flatMap (·.namedChildren)

/-- The parts of a construct that can use names, each with the kind its usage
    has when it is a bare name. -/
def parts (n : Node) : List (UsageKind × Node) :=
  let referenced (ns : List Node) := ns.map fun c => (UsageKind.reference, c)
  match n.kind with
  | .member => referenced (n.child? .object).toList
  | .keywordArgument => referenced (n.child? .value).toList
  | .call =>
    (n.child? .function).toList.map (fun c => (UsageKind.call, c))
      ++ referenced (n.child? .arguments).toList
  | .importFromStatement => referenced (importedParts n)
  | .importStatement | .globalStatement | .nonlocalStatement => []
  | kind => if kind.isLiteralText then [] else referenced n.namedChildren

theorem size_lt_of_mem_importedParts {c n : Node} (h : c ∈ importedParts n) : c.size < n.size := by
  simp only [importedParts, List.mem_flatMap, List.mem_filter] at h
  obtain ⟨d, ⟨hd, -⟩, e, he, hc⟩ := h
  have hd := Node.size_lt_of_mem hd
  have hc := Node.size_lt_of_mem_namedChildren hc
  have he : e.size ≤ d.size := by
    split at he
    · exact Nat.le_of_lt (Node.size_lt_of_child? (by simpa using he))
    · simp_all
  omega

theorem size_lt_of_mem_parts {p : UsageKind × Node} {n : Node} (h : p ∈ parts n) :
    p.2.size < n.size := by
  have child {k : UsageKind} {f : Field}
      (h : p ∈ (n.child? f).toList.map fun c => (k, c)) : p.2.size < n.size := by
    obtain ⟨c, hc, rfl⟩ := List.mem_map.1 h
    exact Node.size_lt_of_child? (by simpa using hc)
  unfold parts at h
  split at h
  · exact child h
  · exact child h
  · rcases List.mem_append.1 h with h | h <;> exact child h
  · obtain ⟨c, hc, rfl⟩ := List.mem_map.1 h
    exact size_lt_of_mem_importedParts hc
  · cases h
  · cases h
  · cases h
  · split at h
    · cases h
    · obtain ⟨c, hc, rfl⟩ := List.mem_map.1 h
      exact Node.size_lt_of_mem_namedChildren hc

/-- The names below a node that can be usages, in source order. `kind` is the
    kind of usage the node is if it is itself a name. -/
def occurrences (kind : UsageKind) (n : Node) : List (UsageKind × Node) :=
  if n.kind == .identifier then [(kind, n)]
  else (parts n).attach.flatMap fun p => occurrences p.1.1 p.1.2
termination_by n.size
decreasing_by exact size_lt_of_mem_parts p.2

theorem occurrences_of_identifier {kind : UsageKind} {n : Node} (h : n.kind = .identifier) :
    occurrences kind n = [(kind, n)] := by
  rw [occurrences, if_pos (by simp [h])]

theorem occurrences_of_parts {kind : UsageKind} {n : Node} (h : n.kind ≠ .identifier) :
    occurrences kind n = (parts n).flatMap fun p => occurrences p.1 p.2 := by
  rw [occurrences, if_neg (by simp [h])]
  simp only [List.flatMap_def, List.map_attach_eq_pmap, List.pmap_eq_map]

/-! ## Which of them are usages -/

/-- The usage a name makes where it occurs, unless it is reserved or `declared` there. -/
def usage? (src : Extraction.Source) (declared : Position → String → Bool)
    (occurrence : UsageKind × Node) : Option Usage :=
  let name := src.map.text occurrence.2
  let p := src.map.start occurrence.2
  if name.isEmpty || Reserved.isReserved name || declared p name then none
  else some ⟨name, src.file, p.line, p.column, occurrence.1⟩

/-- A name makes a usage where it has a text which is neither reserved nor declared. -/
theorem usage?_eq_some_iff {src : Extraction.Source} {declared : Position → String → Bool}
    {o : UsageKind × Node} {u : Usage} : usage? src declared o = some u ↔
      (src.map.text o.2 ≠ "" ∧ Reserved.isReserved (src.map.text o.2) = false ∧
        declared (src.map.start o.2) (src.map.text o.2) = false) ∧
      u = ⟨src.map.text o.2, src.file, (src.map.start o.2).line, (src.map.start o.2).column,
        o.1⟩ := by
  have hmakes : (src.map.text o.2 ≠ "" ∧ Reserved.isReserved (src.map.text o.2) = false ∧
      declared (src.map.start o.2) (src.map.text o.2) = false) ↔
      ¬ ((src.map.text o.2).isEmpty || Reserved.isReserved (src.map.text o.2) ||
        declared (src.map.start o.2) (src.map.text o.2)) = true := by
    simp [and_assoc]
  rw [hmakes]
  simp only [usage?]
  split
  · rename_i hnone
    simp [hnone]
  · rename_i hsome
    simp [hsome, eq_comm]

/-- The usages of a file in source order, given its tree and its declarations. -/
def ofTree (src : Extraction.Source) (root : Node) (declarations : Array Declaration) :
    List Usage :=
  let declared (p : Position) (name : String) :=
    declarations.any fun d => d.position == p && d.name == name
  (root.namedChildren.flatMap (occurrences .reference)).filterMap (usage? src declared)

end CrossRef.Usages
