/-
  CrossRef.Proofs.Syntax.Words

  Where the words of a text stand. Every word covers the bytes of its own
  characters, and the characters of a name are those that names may go on with
  (`placedIn_of_mem_words`); no word begins before the one in front of it ends
  (`pairwise_words`). A lexeme is a word, or a mark that the line structure puts
  between words; comments and line joins are kept as leaves
  (`madeOf_of_mem_lexemes`), and the names come in the order of the words
  (`nameSpans_lexemes`).
-/
import CrossRef.Proofs.Syntax.Places
import CrossRef.Syntax.Layout
import CrossRef.Syntax.Lexer
import Mathlib.Data.List.TakeWhile
import Mathlib.Tactic.Common

namespace CrossRef.Syntax

/-! ## Places -/

theorem Cursor.advance_spec (c : Cursor) (n : Nat) :
    (c.advance n).rest = c.rest.drop n ∧
      (c.advance n).byte = c.byte + byteCount (c.rest.take n) ∧
        (c.advance n).point = (c.rest.take n).foldl Point.behind c.point := by
  induction n generalizing c with
  | zero => exact ⟨rfl, rfl, rfl⟩
  | succ n ih =>
    rw [Cursor.advance]
    split
    · rename_i hrest
      rw [hrest]
      exact ⟨rfl, rfl, rfl⟩
    · rename_i d rest hrest
      obtain ⟨hrest', hbyte, hpoint⟩ := ih ⟨rest, c.left - 1, c.point.behind d, c.byte + d.utf8Size⟩
      rw [hrest, List.drop_succ_cons, List.take_succ_cons, byteCount_cons, ← Nat.add_assoc]
      exact ⟨hrest', hbyte, hpoint⟩

/-- `c` is the place in the text behind the characters `before`. -/
structure Cursor.Behind (c : Cursor) (text before : List Char) : Prop where
  split : text = before ++ c.rest
  byte : c.byte = byteCount before
  point : c.point = pointBehind before

theorem Cursor.Behind.advance {c : Cursor} {text before : List Char} (h : c.Behind text before)
    (n : Nat) : (c.advance n).Behind text (before ++ c.rest.take n) := by
  obtain ⟨hrest, hbyte, hpoint⟩ := c.advance_spec n
  constructor
  · rw [hrest, List.append_assoc, List.take_append_drop]
    exact h.split
  · rw [hbyte, h.byte, byteCount_append]
  · rw [hpoint, h.point, pointBehind, pointBehind, List.foldl_append]

/-! ## Words -/

/-- The word stands where its span says, and if it is a name, all of it is. -/
structure Token.PlacedIn (t : Token) (text : List Char) : Prop where
  place : ∃ before after, text = before ++ t.text.toList ++ after ∧
    t.span.startByte = byteCount before ∧
      t.span.stopByte = byteCount (before ++ t.text.toList) ∧ t.span.start = pointBehind before
  nonempty : t.text.toList ≠ []
  name : t.kind = .name → ∀ c ∈ t.text.toList, Text.isNameRest c = true

theorem number?_ne_name {cs : List Char} {k : TokenKind} {n : Nat}
    (h : number? cs = some (k, n)) : k ≠ .name := by
  simp only [number?] at h
  repeat' split at h
  all_goals cases h
  all_goals exact TokenKind.noConfusion

/-- A name is read as far as its characters go. -/
theorem word_eq_name {cs : List Char} {n : Nat} (h : word cs = (.name, n)) :
    ∃ c rest, cs = c :: rest ∧ Text.isNameStart c = true ∧
      n = (cs.takeWhile Text.isNameRest).length := by
  unfold word at h
  split at h
  · cases h
  · cases h
  · cases h
  · split at h
    · cases h
    · split at h
      · cases h
      · rename_i c rest _ _ _ _
        split at h
        · cases h
          exact ⟨c, rest, rfl, ‹_›, rfl⟩
        · split at h
          · rename_i found hfound
            cases h
            exact absurd rfl (number?_ne_name hfound)
          · cases h

theorem placedIn_word {place : Cursor} {text before : List Char} (h : place.Behind text before)
    (hrest : place.rest ≠ []) {kind : TokenKind} {n : Nat} (hword : word place.rest = (kind, n))
    (afterBreak : Bool) (indent : Nat) :
    Token.PlacedIn ⟨kind, String.ofList (place.rest.take (max 1 n)),
      place.spanTo (place.advance (max 1 n)), afterBreak, indent⟩ text where
  place := by
    refine ⟨before, place.rest.drop (max 1 n), ?_, h.byte, ?_, h.point⟩
    · rw [String.toList_ofList, List.append_assoc, List.take_append_drop]
      exact h.split
    · rw [String.toList_ofList]
      exact (h.advance _).byte
  nonempty := by
    rw [String.toList_ofList]
    intro hnil
    have hlength := congrArg List.length hnil
    have hpos := List.length_pos_iff.2 hrest
    rw [List.length_take, List.length_nil] at hlength
    omega
  name := by
    -- the word takes the characters that names may go on with, and at least one
    rintro ⟨⟩ c hc
    obtain ⟨d, rest, hd, hstart, rfl⟩ := word_eq_name hword
    have hpos : 1 ≤ (place.rest.takeWhile Text.isNameRest).length := by
      rw [hd, List.takeWhile_cons_of_pos (Text.isNameRest_of_isNameStart hstart)]
      exact Nat.succ_pos _
    rw [String.toList_ofList, Nat.max_eq_right hpos,
      ← List.prefix_iff_eq_take.1 (List.takeWhile_prefix _)] at hc
    exact List.mem_takeWhile_imp hc

theorem placedIn_of_mem_wordsFrom {place : Cursor} {afterBreak : Bool} {indent : Nat}
    {text before : List Char} (h : place.Behind text before) {t : Token}
    (ht : t ∈ wordsFrom place afterBreak indent) : t.PlacedIn text := by
  fun_induction wordsFrom place afterBreak indent generalizing before with
  | case1 | case3 => cases ht
  | case2 =>
    rename_i ih
    exact ih (h.advance 1) ht
  | case4 place afterBreak indent c rest hrest _ kind n hword =>
    rename_i ih
    have htoken := placedIn_word h (hrest ▸ List.cons_ne_nil c rest) hword afterBreak indent
    rcases List.mem_cons.1 ht with heq | ht
    · exact heq ▸ htoken
    · exact ih (h.advance _) ht
  | case5 place afterBreak indent c rest hrest _ kind n hword =>
    have htoken := placedIn_word h (hrest ▸ List.cons_ne_nil c rest) hword afterBreak indent
    exact List.mem_singleton.1 ht ▸ htoken

/-- Every word of a text stands where its span says. -/
theorem placedIn_of_mem_words {text : String} {t : Token} (h : t ∈ words text) :
    t.PlacedIn text.toList :=
  placedIn_of_mem_wordsFrom (show (Cursor.ofText text).Behind text.toList [] from ⟨rfl, rfl, rfl⟩) h

/-- No word begins before the one in front of it ends. -/
theorem pairwise_wordsFrom (place : Cursor) (afterBreak : Bool) (indent : Nat) :
    (∀ t ∈ wordsFrom place afterBreak indent, place.byte ≤ t.span.startByte) ∧
      (wordsFrom place afterBreak indent).Pairwise fun t u =>
        t.span.stopByte ≤ u.span.startByte := by
  have hforward : ∀ (c : Cursor) (n : Nat), c.byte ≤ (c.advance n).byte := by
    intro c n
    rw [(c.advance_spec n).2.1]
    exact Nat.le_add_right _ _
  fun_induction wordsFrom place afterBreak indent with
  | case1 | case3 => exact ⟨List.forall_mem_nil _, .nil⟩
  | case2 place =>
    rename_i ih
    exact ⟨fun t ht => Nat.le_trans (hforward place 1) (ih.1 t ht), ih.2⟩
  | case4 place =>
    rename_i ih
    constructor
    · rintro t ht
      rcases List.mem_cons.1 ht with rfl | ht
      · exact Nat.le_refl _
      · exact Nat.le_trans (hforward place _) (ih.1 t ht)
    · exact .cons ih.1 ih.2
  | case5 =>
    constructor
    · rintro t ht
      cases List.mem_singleton.1 ht
      exact Nat.le_refl _
    · exact List.pairwise_singleton _ _

theorem pairwise_words (text : String) :
    (words text).Pairwise fun t u => t.span.stopByte ≤ u.span.startByte :=
  (pairwise_wordsFrom _ _ _).2

/-! ## Lexemes -/

/-- The leaf of a comment or a line join. -/
def Node.IsExtra (n : Node) : Prop := ∃ t : Token, t.isExtra = true ∧ n = t.toNode

/-- The lexeme is one of the words or a mark, with comments and line joins in front. -/
structure Lexeme.MadeOf (tokens : List Token) (l : Lexeme) : Prop where
  word : ∀ kind text, l.kind = .word kind text → ∃ t ∈ tokens, t.kind = kind ∧ t.span = l.span
  extras : ∀ e ∈ l.extras, e.IsExtra

namespace Layout

/-- What a line feed gives: marks, which take comments along, and what then remains. -/
structure Marks (s : State) (r : List Lexeme × State) : Prop where
  kind : ∀ l ∈ r.1, ∀ kind text, l.kind ≠ .word kind text
  extras : ∀ l ∈ r.1, l.extras ⊆ s.extras
  rest : r.2.extras ⊆ s.extras

theorem Marks.none (s : State) : Marks s ([], s) where
  kind := fun l hl => by cases hl
  extras := fun l hl => by cases hl
  rest := fun _ h => h

theorem Marks.append {s s' s'' : State} {ls ls' : List Lexeme} (h : Marks s (ls, s'))
    (h' : Marks s' (ls', s'')) : Marks s (ls ++ ls', s'') where
  kind := by
    intro l hl
    rcases List.mem_append.1 hl with hl | hl
    · exact h.kind l hl
    · exact h'.kind l hl
  extras := by
    intro l hl
    rcases List.mem_append.1 hl with hl | hl
    · exact h.extras l hl
    · exact fun e he => h.rest (h'.extras l hl he)
  rest := fun e he => h.rest (h'.rest he)

/-- A single mark takes all comments. -/
theorem marks_mark {s s' : State} {k : LexemeKind} (hk : ∀ kind text, k ≠ .word kind text)
    (hs' : s'.extras = []) : Marks s ([s.mark k], s') where
  kind := by
    intro l hl
    cases List.mem_singleton.1 hl
    exact hk
  extras := by
    intro l hl e he
    cases List.mem_singleton.1 hl
    exact List.mem_reverse.1 he
  rest := by
    rw [hs']
    exact List.nil_subset _

theorem marks_closeBlocks (comment : Option Nat) (next : Nat) (s : State) :
    Marks s (closeBlocks comment next s) := by
  rw [closeBlocks]
  simp only
  split
  · exact .none s
  · have hfirst (indents : List Nat) :
        Marks s ([s.mark .dedent], { s with indents := indents, extras := [] }) :=
      marks_mark (fun _ _ => LexemeKind.noConfusion) rfl
    -- the first of them takes the comments, and the others have none
    refine (hfirst s.indents).append ?_
    constructor
    · intro l hl kind text
      rw [List.eq_of_mem_replicate hl]
      exact LexemeKind.noConfusion
    · intro l hl
      rw [List.eq_of_mem_replicate hl]
      exact List.nil_subset _
    · exact fun _ h => h

theorem marks_breakLine (tokens : List Token) (s : State) : Marks s (breakLine tokens s) := by
  rw [breakLine]
  simp only
  split
  · exact marks_mark (fun _ _ => LexemeKind.noConfusion) rfl
  · split
    · exact (marks_mark (fun _ _ => LexemeKind.noConfusion) rfl).append (marks_closeBlocks _ _ _)
    · exact marks_closeBlocks _ _ _

theorem Marks.madeOf {s : State} {r : List Lexeme × State} (h : Marks s r)
    (hs : ∀ e ∈ s.extras, e.IsExtra) {l : Lexeme} (hl : l ∈ r.1) (tokens : List Token) :
    l.MadeOf tokens where
  word := fun kind text hword => absurd hword (h.kind l hl kind text)
  extras := fun e he => hs e (h.extras l hl he)

theorem madeOf_of_mem_lexemesFrom {all tokens : List Token} (htokens : ∀ t ∈ tokens, t ∈ all)
    {s : State} (hs : ∀ e ∈ s.extras, e.IsExtra) {l : Lexeme} (hl : l ∈ lexemesFrom s tokens) :
    l.MadeOf all := by
  induction tokens generalizing s with
  | nil =>
    have hmarks := marks_breakLine [] s
    rw [lexemesFrom] at hl
    rcases List.mem_append.1 hl with hl | hl
    · exact hmarks.madeOf hs hl all
    · have hend : Marks (breakLine [] s).2 ([(breakLine [] s).2.mark .endOfText], default) :=
        marks_mark (fun _ _ => LexemeKind.noConfusion) rfl
      exact hend.madeOf (fun e he => hs e (hmarks.rest he)) hl all
  | cons t tokens ih =>
    have hrest : ∀ t' ∈ tokens, t' ∈ all := fun t' ht' => htokens t' (List.mem_cons_of_mem _ ht')
    have hmarks : Marks s
        (if t.afterBreak && s.depth == 0 then breakLine (t :: tokens) s else ([], s)) := by
      split
      · exact marks_breakLine _ s
      · exact .none s
    rw [lexemesFrom] at hl
    generalize (if t.afterBreak && s.depth == 0 then breakLine (t :: tokens) s else ([], s)) = r
      at hmarks hl
    have hs' : ∀ e ∈ r.2.extras, e.IsExtra := fun e he => hs e (hmarks.rest he)
    simp only at hl
    split at hl
    · rename_i hextra
      rcases List.mem_append.1 hl with hl | hl
      · exact hmarks.madeOf hs hl all
      · refine ih hrest (fun e he => ?_) hl
        rcases List.mem_cons.1 he with rfl | he
        · exact ⟨t, hextra, rfl⟩
        · exact hs' e he
    · rcases List.mem_append.1 hl with hl | hl
      · exact hmarks.madeOf hs hl all
      · rcases List.mem_cons.1 hl with rfl | hl
        · refine ⟨fun kind text hword => ?_, fun e he => hs' e (List.mem_reverse.1 he)⟩
          cases hword
          exact ⟨t, htokens t List.mem_cons_self, rfl, rfl⟩
        · exact ih hrest (fun e he => by cases he) hl

end Layout

/-- Every lexeme is one of the words or a mark. -/
theorem madeOf_of_mem_lexemes {tokens : List Token} {l : Lexeme} (h : l ∈ lexemes tokens) :
    l.MadeOf tokens :=
  Layout.madeOf_of_mem_lexemesFrom (fun _ ht => ht) (fun e he => by cases he) h

/-! ## Names in order -/

/-- The places of the names among lexemes. -/
def nameSpans (ls : List Lexeme) : List Span :=
  (ls.filter fun l => l.kind matches .word .name _).map (·.span)

theorem nameSpans_append (ls ls' : List Lexeme) :
    nameSpans (ls ++ ls') = nameSpans ls ++ nameSpans ls' := by
  rw [nameSpans, List.filter_append, List.map_append]
  rfl

namespace Layout

/-- Marks are no names. -/
theorem Marks.nameSpans_eq_nil {s : State} {r : List Lexeme × State} (h : Marks s r) :
    nameSpans r.1 = [] := by
  rw [nameSpans, List.map_eq_nil_iff, List.filter_eq_nil_iff]
  intro l hl
  have hkind := h.kind l hl
  split
  · rename_i text hname
    exact absurd hname (hkind .name text)
  · exact Bool.noConfusion

theorem nameSpans_lexemesFrom (s : State) (tokens : List Token) :
    nameSpans (lexemesFrom s tokens) = (tokens.filter (·.kind == .name)).map (·.span) := by
  induction tokens generalizing s with
  | nil =>
    have hmarks := marks_breakLine [] s
    rw [lexemesFrom, nameSpans_append, hmarks.nameSpans_eq_nil]
    rfl
  | cons t tokens ih =>
    have hmarks : Marks s
        (if t.afterBreak && s.depth == 0 then breakLine (t :: tokens) s else ([], s)) := by
      split
      · exact marks_breakLine _ s
      · exact .none s
    rw [lexemesFrom]
    generalize (if t.afterBreak && s.depth == 0 then breakLine (t :: tokens) s else ([], s)) = r
      at hmarks
    have hnone := hmarks.nameSpans_eq_nil
    simp only
    split
    · -- comments and line joins are no names
      rename_i hextra
      have hkind : (t.kind == .name) = false := by
        rw [Token.isExtra, Bool.or_eq_true, beq_iff_eq, beq_iff_eq] at hextra
        rcases hextra with h | h
        · rw [h]
          rfl
        · rw [h]
          rfl
      rw [nameSpans_append, hnone, ih, List.nil_append, List.filter_cons_of_neg]
      rw [hkind]
      exact Bool.noConfusion
    · rw [nameSpans_append, hnone, List.nil_append]
      obtain ⟨kind, text, span, afterBreak, indent⟩ := t
      cases kind with
      | name => exact congrArg (span :: ·) (ih _)
      | _ => exact ih _

end Layout

/-- The names among the lexemes are those among the words. -/
theorem nameSpans_lexemes (tokens : List Token) :
    nameSpans (lexemes tokens) = (tokens.filter (·.kind == .name)).map (·.span) :=
  Layout.nameSpans_lexemesFrom _ tokens

end CrossRef.Syntax
