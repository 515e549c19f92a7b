/-
  CrossRef.Proofs.Extraction.Bindings

  Where declarations stand. What a walk declares are names of its tree, each at
  most once (`exists_declared`). So if the names of the tree start where their
  bytes do, declarations stand where their names do in the text, and if no two
  names start at one point, no two declarations stand at one place
  (`namesPlaces_ofTree`).
-/
import CrossRef.Proofs.Extraction.Shares
import CrossRef.Proofs.Syntax.Rows

namespace CrossRef

open CrossRef.Syntax

/-! ## Names that are told apart -/

namespace Syntax

/-- The names of the tree can be told apart: no two of them start at one point,
    each starts at the point of its first byte, and none has a hash sign. -/
structure Node.NamesApart (text : String) (root : Node) : Prop where
  points : (root.names.map (·.span.start)).Nodup
  bytes : ∀ n ∈ root.names, n.StartsAtByte text
  plain : ∀ n ∈ root.names, '#' ∉ ((SourceMap.ofText text).text n).toList

variable {text : String} {root n m : Node}

/-- Nodes at the same position start at the same point. -/
theorem Node.StartsAtByte.start_eq (hn : n.StartsAtByte text) (hm : m.StartsAtByte text)
    (h : (SourceMap.ofText text).start n = (SourceMap.ofText text).start m) :
    n.span.start = m.span.start := by
  obtain ⟨before, after, hsplit, -, hpoint⟩ := hn
  obtain ⟨before', after', hsplit', -, hpoint'⟩ := hm
  rw [SourceMap.start, SourceMap.start, hpoint, hpoint', position_pointAt hsplit,
    position_pointAt hsplit'] at h
  rw [hpoint, hpoint']
  -- with more bytes before them they would be at a later position
  rcases Nat.lt_trichotomy before.utf8ByteSize before'.utf8ByteSize with hlt | heq | hlt
  · exact absurd h (Position.ne_of_lt (positionAt_lt hsplit hsplit' hlt))
  · rw [← byteCount_toList, ← byteCount_toList] at heq
    have htext := congrArg String.toList (hsplit.symm.trans hsplit')
    rw [String.toList_append, String.toList_append] at htext
    rw [pointAt_eq, pointAt_eq, eq_of_byteCount_eq htext heq]
  · exact absurd h.symm (Position.ne_of_lt (positionAt_lt hsplit' hsplit hlt))

theorem Node.NamesApart.starts (h : root.NamesApart text) :
    (root.names.map (SourceMap.ofText text).start).Nodup := by
  refine List.pairwise_map.2 ((List.pairwise_map.1 h.points).imp_of_mem fun hn hm hne heq => ?_)
  exact hne ((h.bytes _ hn).start_eq (h.bytes _ hm) heq)

/-- Names in the tree of a text start where their bytes do. -/
theorem startsAtByte_of_mem_names (h : n ∈ (parse text).children.flatMap Node.names) :
    n.StartsAtByte text := by
  obtain ⟨t, ht, hspan⟩ := List.mem_map.1 ((names_parse text).subset (List.mem_map_of_mem h))
  obtain ⟨before, after, htext, hstart, -, hpoint⟩ :=
    (placedIn_of_mem_words (List.mem_filter.1 ht).1).place
  rw [hspan] at hstart hpoint
  refine ⟨String.ofList before, String.ofList (t.text.toList ++ after), ?_, ?_, ?_⟩
  · rw [← String.ofList_append, ← List.append_assoc, ← htext, String.ofList_toList]
  · rw [hstart, byteCount_eq]
  · rw [hpoint, pointAt_eq, String.toList_ofList]

theorem namesApart_parse (text : String) : (parse text).NamesApart text := by
  have hnames := names_parse_eq text
  constructor
  · rw [hnames]
    have hpositions := List.pairwise_map.1 (pairwise_start_names text)
    refine List.pairwise_map.2 (hpositions.imp fun {n m} hlt heq => ?_)
    exact Position.ne_of_lt hlt (congrArg (SourceMap.ofText text).position heq)
  · rw [hnames]
    exact fun n hn => startsAtByte_of_mem_names hn
  · rw [hnames]
    intro n hn hhash
    obtain ⟨before, name, hcovers⟩ := exists_coversName hn
    rw [hcovers.text, String.toList_ofList] at hhash
    exact absurd (hcovers.rest '#' hhash) (by decide)

theorem everywhere_bindsNames_parse (text : String) :
    (parse text).Everywhere Node.BindsNames := by
  have hfits : (parse text).Everywhere (Node.Fits text.toList) :=
    .mk (.of_kind (by decide)) (everywhere_fits_parse text)
  exact hfits.imp fun n hn => hn.here.bindsNames

end Syntax

/-! ## Declarations of a text -/

/-- The name of the declaration is in the text behind the characters `before`,
    and stands where the declaration says. -/
structure Declaration.StandsBehind (d : Declaration) (text : String) (before : List Char) :
    Prop where
  split : ∃ after, text.toList = before ++ d.name.toList ++ after
  nonempty : d.name ≠ ""
  position : d.position = positionBehind before

/-- Every declaration stands where its name does in the text, no two at one place,
    and the names have no hash signs. -/
structure Analysis.NamesPlaces (a : Analysis) (text : String) : Prop where
  stands : ∀ d ∈ a.declarations, ∃ before, d.StandsBehind text before
  plain : ∀ d ∈ a.declarations, '#' ∉ d.name.toList
  apart : (a.declarations.toList.map (·.position)).Nodup

namespace Analysis

variable {text : String} {root : Node}

/-- What is declared is a name of the tree, where it starts. -/
theorem exists_name_of_mem_declarations (file text : String)
    (hbinds : root.Everywhere Node.BindsNames) {d : Declaration}
    (hd : d ∈ (ofTree file text root).declarations) : ∃ n ∈ root.names,
      d.name = (SourceMap.ofText text).text n ∧ d.position = (SourceMap.ofText text).start n ∧
        d.name ≠ "" := by
  obtain ⟨ns, hns, hsub⟩ := Extraction.exists_declared ⟨file, .ofText text⟩ hbinds
  have hmem := List.mem_map_of_mem (f := fun d : Declaration => (d.name, d.position))
    (Array.mem_toList_iff.2 hd)
  rw [show (ofTree file text root).declarations.toList.map _ = _ from hns.map_eq] at hmem
  obtain ⟨n, hn, heq⟩ := List.mem_map.1 hmem
  obtain ⟨hname, hposition⟩ := Prod.mk.inj heq
  exact ⟨n, hsub.subset hn, hname.symm, hposition.symm, hname ▸ hns.nonempty n hn⟩

theorem exists_standsBehind (file : String) (hbinds : root.Everywhere Node.BindsNames)
    (hbytes : ∀ n ∈ root.names, n.StartsAtByte text) {d : Declaration}
    (hd : d ∈ (ofTree file text root).declarations) : ∃ before, d.StandsBehind text before := by
  obtain ⟨n, hn, hname, hposition, hnonempty⟩ := exists_name_of_mem_declarations file text hbinds hd
  obtain ⟨before, after, hsplit, hbyte, hpoint⟩ := hbytes n hn
  rw [← byteCount_toList] at hbyte
  have htext : text.toList = before.toList ++ after.toList := by
    rw [hsplit, String.toList_append]
  obtain ⟨rest, hrest⟩ := exists_split_text htext hbyte
  refine ⟨before.toList, ⟨rest, ?_⟩, hnonempty, ?_⟩
  · rw [htext, hrest, ← hname, List.append_assoc]
  · rw [hposition, SourceMap.start, hpoint, position_pointAt hsplit, positionAt_eq]

/-- No two declarations stand at one place, if no two names do. -/
theorem nodup_positions (file text : String) (hbinds : root.Everywhere Node.BindsNames)
    (hstarts : (root.names.map (SourceMap.ofText text).start).Nodup) :
    ((ofTree file text root).declarations.toList.map (·.position)).Nodup := by
  obtain ⟨ns, hns, l, hperm, hsub⟩ :=
    Extraction.exists_declared ⟨file, .ofText text⟩ hbinds
  rw [show (ofTree file text root).declarations.toList.map _ = _ from hns.map_position]
  exact (hperm.map _).nodup_iff.1 (hstarts.sublist (hsub.map _))

theorem namesPlaces_ofTree (file : String) (hbinds : root.Everywhere Node.BindsNames)
    (hapart : root.NamesApart text) : (ofTree file text root).NamesPlaces text := by
  constructor
  · exact fun d hd => exists_standsBehind file hbinds hapart.bytes hd
  · intro d hd
    obtain ⟨n, hn, hname, -⟩ := exists_name_of_mem_declarations file text hbinds hd
    rw [hname]
    exact hapart.plain n hn
  · exact nodup_positions file text hbinds hapart.starts

end Analysis

end CrossRef
