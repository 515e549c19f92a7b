/-
  CrossRef.Proofs.Syntax.Rows

  Places of a text counted by its line feeds. A place is in the row behind the
  last line feed before it, as many bytes and as many characters behind the
  start of the row as there are in between. That is what the folds over the
  characters count up (`pointBehind_eq`, `positionBehind_eq`), so the map of a
  text takes the point of a byte offset to its line and column
  (`position_pointAt`), and from the position of a node on the text reads as
  the node does (`readsAt_start`).
-/
import CrossRef.Proofs.Syntax.Nesting
import CrossRef.Text.Decimal
import Mathlib.Data.List.DropRight

namespace CrossRef.Syntax

/-! ## Rows -/

section

variable (cs : List Char)

/-- The rows of a text up to the one it ends in, with their line feeds. -/
def fullRows : List Char := cs.rdropWhile (· != '\n')

/-- What a text has of the row it ends in. -/
def lastRow : List Char := cs.rtakeWhile (· != '\n')

theorem fullRows_append_lastRow : fullRows cs ++ lastRow cs = cs :=
  List.rdropWhile_append_rtakeWhile

theorem noBreak_lastRow : '\n' ∉ lastRow cs := fun h =>
  absurd (List.mem_rtakeWhile_imp h) (by decide)

theorem lastRow_concat (c : Char) :
    lastRow (cs ++ [c]) = if c = '\n' then [] else lastRow cs ++ [c] := by
  rw [lastRow, List.rtakeWhile_concat]
  by_cases hc : c = '\n'
  · simp [hc]
  · simp [hc, lastRow]

/-- Full rows end in a line feed, if there are any. -/
theorem fullRows_eq_nil_or : fullRows cs = [] ∨ (fullRows cs).getLast? = some '\n' := by
  by_cases h : fullRows cs = []
  · exact .inl h
  · have hlast := List.rdropWhile_last_not (· != '\n') cs h
    simp only [bne_iff_ne, ne_eq, not_not] at hlast
    exact .inr ((List.getLast?_eq_some_getLast h).trans (congrArg some hlast))

theorem count_fullRows : (fullRows cs).count '\n' = cs.count '\n' := by
  have hcount := congrArg (List.count '\n') (fullRows_append_lastRow cs)
  rwa [List.count_append, List.count_eq_zero_of_not_mem (noBreak_lastRow cs),
    Nat.add_zero] at hcount

theorem pointBehind_eq : pointBehind cs = ⟨cs.count '\n', byteCount (lastRow cs)⟩ := by
  induction cs using List.reverseRecOn with
  | nil => rfl
  | append_singleton cs c ih =>
    rw [pointBehind_concat, ih, Point.behind, lastRow_concat, List.count_append]
    by_cases hc : c = '\n'
    · simp [hc, byteCount]
    · simp [hc, byteCount_append, byteCount]

theorem positionBehind_eq : positionBehind cs = ⟨cs.count '\n' + 1, (lastRow cs).length⟩ := by
  induction cs using List.reverseRecOn with
  | nil => rfl
  | append_singleton cs c ih =>
    rw [positionBehind_concat, ih, Position.behind, lastRow_concat, List.count_append]
    by_cases hc : c = '\n'
    · simp [hc]
    · simp [hc]

theorem byteCount_eq : byteCount cs = (String.ofList cs).utf8ByteSize := by
  induction cs with
  | nil => rfl
  | cons c cs ih =>
    rw [byteCount_cons, ih, String.ofList_cons, String.utf8ByteSize_append,
      String.utf8ByteSize_singleton]

end

/-! ## Byte offsets -/

/-- The point of the byte offset behind `before`: the row is the number of line
    feeds before it, the column its distance from the start of the row. -/
def pointAt (before : String) : Point :=
  ⟨before.toList.count '\n',
    before.utf8ByteSize - (String.ofList (fullRows before.toList)).utf8ByteSize⟩

/-- The position of that offset: the number of line feeds before it, and the
    number of characters between the start of the row and the offset. -/
def positionAt (before : String) : Position :=
  ⟨before.toList.count '\n' + 1, (lastRow before.toList).length⟩

theorem byteCount_toList (s : String) : byteCount s.toList = s.utf8ByteSize := by
  rw [byteCount_eq, String.ofList_toList]

theorem pointAt_eq (before : String) : pointAt before = pointBehind before.toList := by
  have hbytes := congrArg byteCount (fullRows_append_lastRow before.toList)
  rw [byteCount_append, byteCount_toList, byteCount_eq (fullRows _)] at hbytes
  rw [pointAt, pointBehind_eq, ← hbytes, Nat.add_sub_cancel_left]

theorem positionAt_eq (before : String) : positionAt before = positionBehind before.toList :=
  (positionBehind_eq _).symm

variable {text before after : String}

/-- The map of a text takes the point of a byte offset to its position. -/
theorem position_pointAt (h : text = before ++ after) :
    (SourceMap.ofText text).position (pointAt before) = positionAt before := by
  have hsplit : text.toList = before.toList ++ after.toList := by rw [h, String.toList_append]
  rw [pointAt_eq, positionAt_eq]
  exact position_pointBehind hsplit

theorem isPlace_pointAt (h : text = before ++ after) :
    IsPlace text.toList (pointAt before) before.utf8ByteSize := by
  rw [IsPlace, h, String.toList_append, ← byteCount_toList, takeBytes_append, pointAt_eq]
  rfl

/-- Offsets with more bytes before them have later positions. -/
theorem positionAt_lt {before' after' : String} (h : text = before ++ after)
    (h' : text = before' ++ after') (hlt : before.utf8ByteSize < before'.utf8ByteSize) :
    positionAt before < positionAt before' := by
  rw [← position_pointAt h, ← position_pointAt h']
  exact position_lt (isPlace_pointAt h) (isPlace_pointAt h') hlt

/-- With fewer lines than a word can count, and no line longer than a word can
    count, positions are counted in words. -/
theorem positionAt_le (h : text = before ++ after)
    (hlines : text.toList.count '\n' + 1 < Text.Decimal.largestWord)
    (hcolumns : ∀ above line below : List Char, text.toList = above ++ line ++ below →
      '\n' ∉ line → line.length < Text.Decimal.largestWord) :
    (positionAt before).line ≤ Text.Decimal.largestWord ∧
      (positionAt before).column ≤ Text.Decimal.largestWord := by
  have hsplit : text.toList = before.toList ++ after.toList := by rw [h, String.toList_append]
  constructor
  · rw [hsplit, List.count_append] at hlines
    show before.toList.count '\n' + 1 ≤ _
    omega
  · rw [← fullRows_append_lastRow before.toList] at hsplit
    exact Nat.le_of_lt (hcolumns _ _ _ hsplit (noBreak_lastRow _))

/-! ## Reading on from a position -/

/-- From the position on the text reads as the name: there is the name behind
    the first `p.column` characters of the line with the number `p.line`. -/
def ReadsAt (text : String) (p : Position) (name : String) : Prop :=
  ∃ above skipped after : List Char, text.toList = above ++ skipped ++ name.toList ++ after ∧
    (above = [] ∨ above.getLast? = some '\n') ∧ above.count '\n' + 1 = p.line ∧
    '\n' ∉ skipped ∧ skipped.length = p.column

theorem readsAt_of_split {before after : List Char} {name : String}
    (h : text.toList = before ++ name.toList ++ after) :
    ReadsAt text (positionBehind before) name := by
  refine ⟨fullRows before, lastRow before, after, ?_, fullRows_eq_nil_or before, ?_,
    noBreak_lastRow before, ?_⟩
  · rw [fullRows_append_lastRow, h]
  · rw [positionBehind_eq, count_fullRows]
  · rw [positionBehind_eq]

/-- The node starts at the point of its first byte. -/
def Node.StartsAtByte (text : String) (n : Node) : Prop :=
  ∃ before after, text = before ++ after ∧ n.span.startByte = before.utf8ByteSize ∧
    n.span.start = pointAt before

/-- What a node with a text covers begins at its first byte. -/
theorem exists_split_text {n : Node} {before after : List Char}
    (h : text.toList = before ++ after) (hstart : n.span.startByte = byteCount before) :
    ∃ rest, after = ((SourceMap.ofText text).text n).toList ++ rest := by
  have hdrop : dropBytes (SourceMap.ofText text).chars n.span.startByte = some after := by
    show dropBytes text.toList _ = _
    rw [h, hstart, dropBytes_append]
  rw [SourceMap.text, hdrop, String.toList_ofList]
  simp only [Option.bind_eq_bind, Option.bind_some]
  cases htake : takeBytes after (n.span.stopByte - n.span.startByte) with
  | none => exact ⟨after, rfl⟩
  | some covered =>
    obtain ⟨rest, hrest, -⟩ := takeBytes_eq_some htake
    exact ⟨rest, hrest⟩

/-- Nodes read at their positions as they do themselves. -/
theorem readsAt_start {n : Node} (h : n.StartsAtByte text) :
    ReadsAt text ((SourceMap.ofText text).start n) ((SourceMap.ofText text).text n) := by
  obtain ⟨before, after, hsplit, hbyte, hpoint⟩ := h
  rw [← byteCount_toList] at hbyte
  have htext : text.toList = before.toList ++ after.toList := by
    rw [hsplit, String.toList_append]
  obtain ⟨rest, hrest⟩ := exists_split_text htext hbyte
  rw [SourceMap.start, hpoint, position_pointAt hsplit, positionAt_eq]
  rw [hrest, ← List.append_assoc] at htext
  exact readsAt_of_split htext

end CrossRef.Syntax
