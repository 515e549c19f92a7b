/-
  CrossRef.Proofs.Extraction.Addresses

  Positions address names. Whatever the tree, what is declared and what is used
  is what some node of the tree covers, at the position of that node
  (`namesNodes_ofTree`), and nodes read as they do at their positions, if they
  start where their bytes do. So every declaration and every usage of a file can
  be read where it is reported (`positions_address_names`).
-/
import CrossRef.Proofs.Extraction.Bindings
import CrossRef.Proofs.Usages.Exact

namespace CrossRef

open CrossRef.Syntax CrossRef.Text

/-! ## Nodes behind declarations and usages -/

/-- Everything below a node of a tree is in the tree. -/
theorem Syntax.Node.everywhere_has {root : Node} : ∀ {n : Node}, root.Has n → n.Everywhere root.Has
  | .mk k f s cs, h => .mk h fun c hc =>
    have : c.size < (Node.mk k f s cs).size := size_lt_of_mem hc
    everywhere_has (h.trans (has_of_mem_children hc))
termination_by n => n.size

namespace Extraction

variable {src : Source} {root : Node}

/-- What is declared are texts of nodes of the tree, where these nodes stand. -/
def NamesNodes (src : Source) (root : Node) (x : Extraction) : Prop :=
  ∀ d ∈ x.declarations, ∃ n, root.Has n ∧ d.name = src.map.text n ∧ d.position = src.map.start n

theorem namesNodes_declare {x : Extraction} (h : NamesNodes src root x) {n : Node}
    (hn : root.Has n) (scope : ScopeId) (kind : DeclarationKind) :
    NamesNodes src root (declare src scope kind n x) := by
  unfold declare
  simp only
  split
  · exact h
  · intro d hd
    rcases Array.mem_push.1 hd with hd | rfl
    · exact h d hd
    · exact ⟨n, hn, rfl, rfl⟩

theorem namesNodes_expand {x : Extraction} (h : NamesNodes src root x) {t : Task}
    (ht : t.Within root.Has) : NamesNodes src root (expand src t x).2 := by
  cases t with
  | visit | bind | parameter | clause => exact h
  | enter outer n =>
    rw [expand]
    split
    · exact h
    · exact h
  | declare scope kind n => exact namesNodes_declare h (Node.Everywhere.here ht) scope kind
  | wildcard scope n =>
    intro d hd
    rw [expand, declarations_recordWildcard] at hd
    exact h d hd

theorem namesNodes_ofTree (src : Source) (root : Node) :
    NamesNodes src root (ofTree src root) := by
  refine ofTree_preserves (T := Task.Within root.Has) ?_ ?_ ?_ ?_
  · exact fun t x ht => within_expand ht x
  · exact fun t x ht h => namesNodes_expand h ht
  · exact fun d hd => absurd hd (Array.not_mem_empty d)
  · intro n hn
    exact Node.everywhere_has (.inr (Node.below_of_mem_namedChildren hn))

end Extraction

theorem Usages.exists_node_of_mem_ofTree {src : Extraction.Source} {root : Node}
    {declarations : Array Declaration} {u : Usage} (h : u ∈ ofTree src root declarations) :
    ∃ n, root.Has n ∧ n.kind = .identifier ∧ u.identifier = src.map.text n ∧
      u.position = src.map.start n := by
  obtain ⟨⟨k, n⟩, ho, hu⟩ := List.mem_filterMap.1 h
  obtain ⟨-, rfl⟩ := usage?_eq_some_iff.1 hu
  obtain ⟨c, hc, ho⟩ := List.mem_flatMap.1 ho
  have hchild : root.Has c := .inr (Node.below_of_mem_namedChildren hc)
  have hn : c.Has n := (reaches_of_mem_occurrences ho).has
  exact ⟨n, hchild.trans hn, (last_step _ c ho).1, rfl, rfl⟩

namespace Analysis

/-- Declarations and usages are what nodes of the tree cover, at the positions
    of these nodes. Usages are names. -/
structure NamesNodes (a : Analysis) (m : SourceMap) (root : Node) : Prop where
  declaration : ∀ d ∈ a.declarations, ∃ n, root.Has n ∧ d.name = m.text n ∧
    d.position = m.start n
  usage : ∀ u ∈ a.usages, ∃ n, root.Has n ∧ n.kind = .identifier ∧ u.identifier = m.text n ∧
    u.position = m.start n

theorem namesNodes_ofTree (file text : String) (root : Node) :
    (ofTree file text root).NamesNodes (.ofText text) root :=
  ⟨Extraction.namesNodes_ofTree ⟨file, .ofText text⟩ root,
    fun _ hu => Usages.exists_node_of_mem_ofTree hu⟩

/-! ## Reading names at their positions -/

/-- The text reads as the names where they are declared and used. -/
structure ReadsNames (a : Analysis) (text : String) : Prop where
  declaration : ∀ d ∈ a.declarations, ReadsAt text d.position d.name
  usage : ∀ u ∈ a.usages, ReadsAt text u.position u.identifier

theorem readsNames_ofTree (file : String) {text : String} {root : Node}
    (h : ∀ n, root.Has n → n.StartsAtByte text) : (ofTree file text root).ReadsNames text := by
  obtain ⟨hdeclaration, husage⟩ := namesNodes_ofTree file text root
  constructor
  · intro d hd
    obtain ⟨n, hn, hname, hposition⟩ := hdeclaration d hd
    rw [hname, hposition]
    exact readsAt_start (h n hn)
  · intro u hu
    obtain ⟨n, hn, -, hname, hposition⟩ := husage u hu
    rw [hname, hposition]
    exact readsAt_start (h n hn)

end Analysis

theorem Declaration.StandsBehind.readsAt {d : Declaration} {text : String} {before : List Char}
    (h : d.StandsBehind text before) : ReadsAt text d.position d.name := by
  obtain ⟨after, hsplit⟩ := h.split
  rw [h.position]
  exact readsAt_of_split hsplit

/-- Where names and aliases are identifiers, only identifiers need to start where
    their bytes do. -/
theorem Analysis.readsNames_of_names (file : String) {text : String} {root : Node}
    (hbinds : root.Everywhere Node.BindsNames)
    (hbytes : ∀ n ∈ root.names, n.StartsAtByte text) : (ofTree file text root).ReadsNames text := by
  constructor
  · intro d hd
    obtain ⟨before, hstands⟩ := exists_standsBehind file hbinds hbytes hd
    exact hstands.readsAt
  · intro u hu
    obtain ⟨n, hn, hkind, hname, hposition⟩ := (namesNodes_ofTree file text root).usage u hu
    rw [hname, hposition]
    exact readsAt_start (hbytes n (Node.mem_names_of_has hn hkind))

theorem Registry.readsNames_analyze {r : Registry} {file text : String}
    (h : ∀ root, r.parse? file text = some root →
      root.Everywhere Node.BindsNames ∧ ∀ n ∈ root.names, n.StartsAtByte text) :
    (r.analyze file text).ReadsNames text := by
  refine analyze_of_tree (Q := fun a => a.ReadsNames text) ?_ fun root hroot => ?_
  · exact ⟨fun d hd => absurd hd (Array.not_mem_empty d), fun u hu => absurd hu List.not_mem_nil⟩
  · exact Analysis.readsNames_of_names file (h root hroot).1 (h root hroot).2

/-- With this library's own parser, every name can be read where it is reported. -/
theorem Registry.readsNames_standard (file text : String) :
    (standard.analyze file text).ReadsNames text := by
  apply readsNames_analyze
  apply gives_standard (P := fun text root => root.Everywhere Node.BindsNames ∧
    ∀ n ∈ root.names, n.StartsAtByte text)
  exact fun text => ⟨everywhere_bindsNames_parse text, (namesApart_parse text).bytes⟩

/-! ## Positions address names -/

/-- How positions address a text. Its map takes the point of each byte offset
    between two characters to the line and the column of the offset, later
    offsets to later positions, and all of them to words of 32 bits, if the text
    has so few lines and so few characters in a line. From the position of a
    node on the text reads as the node does. -/
structure Syntax.SourceMap.Addresses (text : String) : Prop where
  position : ∀ before after : String, text = before ++ after →
    (ofText text).position (pointAt before) = positionAt before
  ascending : ∀ before after before' after' : String, text = before ++ after →
    text = before' ++ after' → before.utf8ByteSize < before'.utf8ByteSize →
      (ofText text).position (pointAt before) < (ofText text).position (pointAt before')
  words : text.toList.count '\n' + 1 < Decimal.largestWord →
    (∀ above line below : List Char, text.toList = above ++ line ++ below → '\n' ∉ line →
      line.length < Decimal.largestWord) →
    ∀ before after : String, text = before ++ after →
      ((ofText text).position (pointAt before)).line ≤ Decimal.largestWord ∧
        ((ofText text).position (pointAt before)).column ≤ Decimal.largestWord
  node : ∀ n : Node, n.StartsAtByte text →
    ReadsAt text ((ofText text).start n) ((ofText text).text n)

theorem Syntax.SourceMap.addresses (text : String) : Addresses text where
  position _ _ h := position_pointAt h
  ascending before after before' after' h h' hlt := by
    rw [position_pointAt h, position_pointAt h']
    exact positionAt_lt h h' hlt
  words hlines hcolumns before after h := by
    rw [position_pointAt h]
    exact positionAt_le h hlines hcolumns
  node _ h := readsAt_start h

/-- **Positions address names.** Whatever the text, the map counts its places.
    Whatever the tree, declarations and usages are what nodes of it cover, and
    can be read at their positions as far as nodes start where their bytes do.
    In the analysis of a file, whatever its adapter, all of them can be read there
    if names and aliases are identifiers in its tree and identifiers start so. -/
theorem positions_address_names (text : String) :
    SourceMap.Addresses text ∧
      (∀ file root, (Analysis.ofTree file text root).NamesNodes (.ofText text) root ∧
        ((∀ n, root.Has n → n.StartsAtByte text) →
          (Analysis.ofTree file text root).ReadsNames text)) ∧
      ∀ (registry : Registry) file, (∀ root, registry.parse? file text = some root →
          root.Everywhere Node.BindsNames ∧ ∀ n ∈ root.names, n.StartsAtByte text) →
        (registry.analyze file text).ReadsNames text := by
  refine ⟨SourceMap.addresses text, fun file root => ⟨?_, ?_⟩, fun registry file h => ?_⟩
  · exact Analysis.namesNodes_ofTree file text root
  · exact Analysis.readsNames_ofTree file
  · exact Registry.readsNames_analyze h

/-- A name behind a character of two bytes. -/
example : (Registry.standard.analyze "m.py" "s = 'é'; value = 1\n").declarations.map
    Declaration.position = #[⟨1, 0⟩, ⟨1, 9⟩] := by decide +kernel

end CrossRef
