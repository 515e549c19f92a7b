/-
  CrossRef.Proofs.Syntax.Places

  Places in a text, each given by the characters before it. These make up a
  number of bytes, a point in rows and bytes, and a position in lines and
  characters, all of which are counted up one character at a time. The map of
  a text finds the position that belongs to a point (`position_pointBehind`),
  and positions ascend with the characters before them, so no two places of a
  text have the same position (`eq_of_positionBehind_eq`).
-/
import CrossRef.Syntax.SourceMap
import Mathlib.Data.List.Induction

namespace CrossRef

/-! ## Positions -/

namespace Position

/-- The position behind one more character. -/
def behind (p : Position) (c : Char) : Position :=
  if c = '\n' then ⟨p.line + 1, 0⟩ else ⟨p.line, p.column + 1⟩

theorem lt_behind (p : Position) (c : Char) : p < p.behind c := by
  rw [behind, lt_def]
  split
  · exact .inl (Nat.lt_succ_self _)
  · exact .inr ⟨rfl, Nat.lt_succ_self _⟩

theorem lt_trans {a b c : Position} (hab : a < b) (hbc : b < c) : a < c := by
  rw [lt_def] at *
  omega

theorem ne_of_lt {a b : Position} (h : a < b) : a ≠ b := by
  rintro rfl
  rw [lt_def] at h
  omega

end Position

namespace Syntax

/-- The position behind the characters. -/
def positionBehind (cs : List Char) : Position := cs.foldl Position.behind ⟨1, 0⟩

theorem positionBehind_concat (cs : List Char) (c : Char) :
    positionBehind (cs ++ [c]) = (positionBehind cs).behind c :=
  List.foldl_append

/-- Positions ascend with the characters before them. -/
theorem positionBehind_lt (before : List Char) {cs : List Char} (h : cs ≠ []) :
    positionBehind before < positionBehind (before ++ cs) := by
  induction cs using List.reverseRecOn with
  | nil => exact absurd rfl h
  | append_singleton cs c ih =>
    rw [← List.append_assoc, positionBehind_concat]
    by_cases hcs : cs = []
    · rw [hcs, List.append_nil]
      exact Position.lt_behind _ c
    · exact Position.lt_trans (ih hcs) (Position.lt_behind _ c)

/-- Two beginnings of a text with the same position behind them are the same. -/
theorem eq_of_positionBehind_eq {as bs xs ys : List Char} (h : as ++ xs = bs ++ ys)
    (hposition : positionBehind as = positionBehind bs) : as = bs := by
  have longer {as cs : List Char} (heq : positionBehind as = positionBehind (as ++ cs)) :
      cs = [] := by
    by_contra hcs
    exact Position.ne_of_lt (positionBehind_lt as hcs) heq
  rcases List.append_eq_append_iff.1 h with ⟨cs, rfl, -⟩ | ⟨cs, rfl, -⟩
  · rw [longer hposition, List.append_nil]
  · rw [longer hposition.symm, List.append_nil]

/-- No text has more lines than line feeds, nor lines longer than itself. -/
theorem positionBehind_le (cs : List Char) :
    (positionBehind cs).line ≤ cs.length + 1 ∧ (positionBehind cs).column ≤ cs.length := by
  induction cs using List.reverseRecOn with
  | nil => exact ⟨Nat.le_refl 1, Nat.le_refl 0⟩
  | append_singleton cs c ih =>
    rw [positionBehind_concat, List.length_append, List.length_singleton, Position.behind]
    split
    · exact ⟨Nat.succ_le_succ ih.1, Nat.zero_le _⟩
    · exact ⟨Nat.le_succ_of_le ih.1, Nat.succ_le_succ ih.2⟩

/-! ## Bytes -/

/-- Number of bytes that encode the characters. -/
def byteCount : List Char → Nat
  | [] => 0
  | c :: cs => c.utf8Size + byteCount cs

theorem byteCount_cons (c : Char) (cs : List Char) :
    byteCount (c :: cs) = c.utf8Size + byteCount cs := rfl

theorem byteCount_append (cs ds : List Char) :
    byteCount (cs ++ ds) = byteCount cs + byteCount ds := by
  induction cs with
  | nil => rw [List.nil_append, byteCount, Nat.zero_add]
  | cons c cs ih => rw [List.cons_append, byteCount_cons, byteCount_cons, ih, Nat.add_assoc]

theorem byteCount_eq_zero {cs : List Char} (h : byteCount cs = 0) : cs = [] := by
  cases cs with
  | nil => rfl
  | cons c cs =>
    have hpos : 0 < c.utf8Size := c.utf8Size_pos
    rw [byteCount_cons] at h
    omega

/-- Of two beginnings of a text, the one with fewer bytes begins the other. -/
theorem exists_append_of_byteCount_le {as bs xs ys : List Char} (h : as ++ xs = bs ++ ys)
    (hbytes : byteCount as ≤ byteCount bs) : ∃ cs, bs = as ++ cs := by
  rcases List.append_eq_append_iff.1 h with ⟨cs, hbs, -⟩ | ⟨cs, rfl, -⟩
  · exact ⟨cs, hbs⟩
  · rw [byteCount_append] at hbytes
    have hnil := byteCount_eq_zero (show byteCount cs = 0 by omega)
    exact ⟨[], by rw [hnil, List.append_nil, List.append_nil]⟩

/-- Two beginnings of a text with as many bytes are the same. -/
theorem eq_of_byteCount_eq {as bs xs ys : List Char} (h : as ++ xs = bs ++ ys)
    (hbytes : byteCount as = byteCount bs) : as = bs := by
  obtain ⟨cs, rfl⟩ := exists_append_of_byteCount_le h (Nat.le_of_eq hbytes)
  rw [byteCount_append] at hbytes
  rw [byteCount_eq_zero (show byteCount cs = 0 by omega), List.append_nil]

theorem dropBytes_append (cs ds : List Char) : dropBytes (cs ++ ds) (byteCount cs) = some ds := by
  induction cs with
  | nil => cases ds <;> rfl
  | cons c cs ih =>
    obtain ⟨n, hn⟩ := Nat.exists_eq_add_one.2 c.utf8Size_pos
    have hbytes : byteCount (c :: cs) = n + byteCount cs + 1 := by
      rw [byteCount_cons, hn]
      omega
    rw [hbytes, List.cons_append, dropBytes, if_pos (by omega), hn,
      show n + byteCount cs + 1 - (n + 1) = byteCount cs by omega, ih]

theorem takeBytes_append (cs ds : List Char) : takeBytes (cs ++ ds) (byteCount cs) = some cs := by
  induction cs with
  | nil => cases ds <;> rfl
  | cons c cs ih =>
    obtain ⟨n, hn⟩ := Nat.exists_eq_add_one.2 c.utf8Size_pos
    have hbytes : byteCount (c :: cs) = n + byteCount cs + 1 := by
      rw [byteCount_cons, hn]
      omega
    rw [hbytes, List.cons_append, takeBytes, if_pos (by omega), hn,
      show n + byteCount cs + 1 - (n + 1) = byteCount cs by omega, ih]
    rfl

/-! ## Points -/

/-- The point behind one more character. -/
def Point.behind (p : Point) (c : Char) : Point :=
  if c = '\n' then ⟨p.row + 1, 0⟩ else ⟨p.row, p.column + c.utf8Size⟩

/-- The point behind the characters. -/
def pointBehind (cs : List Char) : Point := cs.foldl Point.behind ⟨0, 0⟩

theorem pointBehind_concat (cs : List Char) (c : Char) :
    pointBehind (cs ++ [c]) = (pointBehind cs).behind c :=
  List.foldl_append

/-! ## The map of a text -/

/-- The row of the place between `before` and `after`, up to the place. -/
structure InRow (before after row : List Char) : Prop where
  noBreak : '\n' ∉ row
  starts : (rowStarts (before ++ after)).drop (pointBehind before).row = rowStarts (row ++ after)
  point : (pointBehind before).column = byteCount row
  position : positionBehind before = ⟨(pointBehind before).row + 1, row.length⟩

theorem rowStartsBehind_append {row : List Char} (h : '\n' ∉ row) (after : List Char) :
    rowStarts.rowStartsBehind (row ++ '\n' :: after) = rowStarts after := by
  induction row with
  | nil => rw [List.nil_append, rowStarts.rowStartsBehind, if_pos rfl, rowStarts]
  | cons c row ih =>
    obtain ⟨hc, hrow⟩ := List.ne_and_not_mem_of_not_mem_cons h
    rw [List.cons_append, rowStarts.rowStartsBehind, if_neg (Ne.symm hc), ih hrow]

/-- Every place is in some row. -/
theorem exists_inRow (before after : List Char) : ∃ row, InRow before after row := by
  induction before using List.reverseRecOn generalizing after with
  | nil => exact ⟨[], List.not_mem_nil, rfl, rfl, rfl⟩
  | append_singleton before c ih =>
    obtain ⟨row, hnoBreak, hstarts, hpoint, hposition⟩ := ih (c :: after)
    have htext : before ++ [c] ++ after = before ++ c :: after := by
      rw [List.append_assoc, List.singleton_append]
    by_cases hc : c = '\n'
    · -- the next row starts behind the line feed
      have hbehind : pointBehind (before ++ [c]) = ⟨(pointBehind before).row + 1, 0⟩ := by
        rw [pointBehind_concat, Point.behind, if_pos hc]
      refine ⟨[], List.not_mem_nil, ?_, ?_, ?_⟩
      · rw [hbehind, htext, ← List.drop_drop, hstarts, hc]
        exact rowStartsBehind_append hnoBreak after
      · rw [hbehind]
        rfl
      · rw [hbehind, positionBehind_concat, hposition, Position.behind, if_pos hc]
        rfl
    · have hbehind : pointBehind (before ++ [c]) =
          ⟨(pointBehind before).row, byteCount (row ++ [c])⟩ := by
        rw [pointBehind_concat, Point.behind, if_neg hc, hpoint, byteCount_append]
        rfl
      refine ⟨row ++ [c], ?_, ?_, ?_, ?_⟩
      · rw [List.mem_append, List.mem_singleton, not_or]
        exact ⟨hnoBreak, Ne.symm hc⟩
      · rw [hbehind, htext, hstarts, List.append_assoc, List.singleton_append]
      · rw [hbehind]
      · rw [hbehind, positionBehind_concat, hposition, Position.behind, if_neg hc,
          List.length_append, List.length_singleton]

/-- The map finds the position of every place of the text from its point. -/
theorem position_pointBehind {text : String} {before after : List Char}
    (h : text.toList = before ++ after) :
    (SourceMap.ofText text).position (pointBehind before) = positionBehind before := by
  obtain ⟨row, -, hstarts, hpoint, hposition⟩ := exists_inRow before after
  have hrow : (SourceMap.ofText text).rows[(pointBehind before).row]? = some (row ++ after) := by
    show (rowStarts text.toList).toArray[(pointBehind before).row]? = _
    rw [List.getElem?_toArray, h, ← List.head?_drop, hstarts]
    rfl
  rw [SourceMap.position, hrow, hposition]
  simp only [Option.bind_eq_bind, Option.bind_some, hpoint, takeBytes_append]
  rfl

/-- The text between two places is what stands between them. -/
theorem text_between {text : String} {before covered after : List Char}
    (h : text.toList = before ++ covered ++ after) {n : Node}
    (hstart : n.span.startByte = byteCount before)
    (hstop : n.span.stopByte = byteCount (before ++ covered)) :
    (SourceMap.ofText text).text n = String.ofList covered := by
  have hdrop : dropBytes (SourceMap.ofText text).chars n.span.startByte =
      some (covered ++ after) := by
    show dropBytes text.toList _ = _
    rw [h, hstart, List.append_assoc, dropBytes_append]
  have hlength : n.span.stopByte - n.span.startByte = byteCount covered := by
    rw [hstart, hstop, byteCount_append, Nat.add_sub_cancel_left]
  rw [SourceMap.text, hdrop, hlength]
  simp only [Option.bind_eq_bind, Option.bind_some, takeBytes_append]
  rfl

end Syntax

end CrossRef
