/-
  CrossRef.Proofs.Toml.Read

  Documents made of lines that each give a bare key a value are read line by
  line (`parse?_lines`): the entries are the keys with what the values' texts
  denote, in the order of the lines.
-/
import CrossRef.Proofs.Toml.Quoted
import CrossRef.Toml.Read

namespace CrossRef.Toml

open CrossRef.Text

/-! ## Blanks -/

/-- A character that begins neither a blank nor a comment nor a line end. -/
structure Solid (c : Char) : Prop where
  space : isSpace c = false
  comment : c ≠ '#'
  feed : c ≠ '\n'
  back : c ≠ '\r'

theorem skipSpaces_cons {c : Char} (hc : isSpace c = false) (cs : List Char) :
    skipSpaces (c :: cs) = c :: cs := by
  rw [skipSpaces, List.dropWhile_cons_of_neg (by rw [hc]; decide)]

theorem skipSpaces_append {spaces : List Char} (hspaces : ∀ c ∈ spaces, isSpace c = true)
    (cs : List Char) : skipSpaces (spaces ++ cs) = skipSpaces cs :=
  List.dropWhile_append_of_pos hspaces

theorem skipComment_cons {c : Char} (hc : c ≠ '#') (cs : List Char) :
    skipComment (c :: cs) = c :: cs := by
  unfold skipComment
  split
  · next heq => exact absurd (List.cons.inj heq).1 hc
  · rfl

/-- Spaces in front of a solid character are the whole blank. -/
theorem skipBlank_spaces {c : Char} (hc : Solid c) {spaces : List Char}
    (hspaces : ∀ c ∈ spaces, isSpace c = true) (fuel : Nat) (cs : List Char) :
    skipBlank (fuel + 1) (spaces ++ c :: cs) = c :: cs := by
  rw [skipBlank, skipSpaces_append hspaces, skipSpaces_cons hc.space, skipComment_cons hc.comment]
  split
  · next heq => exact absurd (List.cons.inj heq).1 hc.feed
  · next heq => exact absurd (List.cons.inj heq).1 hc.back
  · rfl

theorem skipBlank_solid {c : Char} (hc : Solid c) (fuel : Nat) (cs : List Char) :
    skipBlank fuel (c :: cs) = c :: cs := by
  cases fuel with
  | zero => rfl
  | succ fuel => exact skipBlank_spaces hc (List.forall_mem_nil _) fuel cs

/-! ## Values -/

/-- A text that is read as a value wherever it stands. What follows must not
    begin with a quote, which could go on with a string. -/
structure Denotes (text : List Char) (v : Value) : Prop where
  first : ∃ c cs, Solid c ∧ text = c :: cs
  read : ∀ {fuel room : Nat} {rest : List Char}, text.length < fuel → 0 < room →
    (∀ c ∈ rest.head?, c ≠ '\x22' ∧ c ≠ '\x27') →
    readValue fuel room (text ++ rest) = some (v, rest)

theorem Solid.quote {q : Char} (hq : q = '\x22' ∨ q = '\x27') : Solid q := by
  rcases hq with rfl | rfl
  all_goals constructor <;> decide

theorem readValue_quote (fuel room : Nat) (cs : List Char) {rest : List Char}
    (hrest : ∀ c ∈ rest.head?, c ≠ '\x22' ∧ c ≠ '\x27') :
    readValue (fuel + 1) room (quote cs ++ rest) = some (.string (String.ofList cs), rest) := by
  have hread := readString_quote cs hrest
  obtain ⟨q, body, hq, heq⟩ := exists_quote_eq_cons cs
  rw [heq, List.cons_append] at hread ⊢
  rw [readValue, hread]
  · rintro behind ⟨⟩
    simp at hq
  · rintro behind ⟨⟩
    simp at hq

theorem denotes_quote (s : String) : Denotes (quote s.toList) (.string s) where
  first := by
    obtain ⟨q, body, hq, heq⟩ := exists_quote_eq_cons s.toList
    exact ⟨q, body, .quote hq, heq⟩
  read {fuel room rest} hfuel _ hrest := by
    obtain ⟨fuel, rfl⟩ := Nat.exists_eq_succ_of_ne_zero (Nat.ne_zero_of_lt hfuel)
    rw [readValue_quote fuel room s.toList hrest, String.ofList_toList]

theorem denotes_bool (b : Bool) : Denotes (if b then "true" else "false").toList (.bool b) where
  first := by
    cases b
    · exact ⟨'f', _, by constructor <;> decide, rfl⟩
    · exact ⟨'t', _, by constructor <;> decide, rfl⟩
  read {fuel room rest} hfuel _ _ := by
    obtain ⟨fuel, rfl⟩ := Nat.exists_eq_succ_of_ne_zero (Nat.ne_zero_of_lt hfuel)
    cases b
    all_goals rfl

/-! ### Arrays -/

theorem Solid.bracket : Solid ']' := by constructor <;> decide

theorem Solid.comma : Solid ',' := by constructor <;> decide

theorem readItems_end (fuel room : Nat) {cs rest : List Char}
    (hblank : skipBlank cs.length cs = ']' :: rest) :
    readItems (fuel + 1) room cs = some ([], rest) := by
  rw [readItems, hblank]
  rfl

theorem quote_append_ne (cs rest behind : List Char) : quote cs ++ rest ≠ ']' :: behind := by
  obtain ⟨q, body, hq, heq⟩ := exists_quote_eq_cons cs
  rw [heq]
  rintro ⟨⟩
  simp at hq

theorem readItems_last (fuel room : Nat) {s : String} {cs rest : List Char}
    (hblank : skipBlank cs.length cs = quote s.toList ++ ']' :: rest) :
    readItems (fuel + 2) room cs = some ([.string s], rest) := by
  have hvalue : readValue (fuel + 1) room (quote s.toList ++ ']' :: rest) = _ :=
    readValue_quote fuel room s.toList (by rintro d ⟨⟩; decide)
  rw [readItems, hblank]
  split
  · next heq => exact absurd heq (quote_append_ne _ _ _)
  · rw [hvalue, String.ofList_toList]
    simp only [Option.bind_eq_bind, Option.bind_some, skipBlank_solid .bracket]
    rfl

theorem readItems_comma (fuel room : Nat) {s : String} {cs rest : List Char}
    (hblank : skipBlank cs.length cs = quote s.toList ++ ',' :: rest) :
    readItems (fuel + 2) room cs =
      (readItems (fuel + 1) room rest).map fun (vs, behind) => (.string s :: vs, behind) := by
  have hvalue : readValue (fuel + 1) room (quote s.toList ++ ',' :: rest) = _ :=
    readValue_quote fuel room s.toList (by rintro d ⟨⟩; decide)
  rw [readItems, hblank]
  split
  · next heq => exact absurd heq (quote_append_ne _ _ _)
  · rw [hvalue, String.ofList_toList]
    simp only [Option.bind_eq_bind, Option.bind_some, skipBlank_solid .comma]
    cases readItems (fuel + 1) room rest
    all_goals simp

/-! ## Lines -/

/-- A key that needs no quotes. -/
structure Bare (key : String) : Prop where
  nonempty : key ≠ ""
  letters : ∀ c ∈ key.toList, isBareKey c = true

theorem Bare.exists_cons {key : String} (h : Bare key) :
    ∃ k ks, key.toList = k :: ks ∧ isBareKey k = true := by
  obtain ⟨k, ks, hcons⟩ := List.exists_cons_of_ne_nil (mt String.toList_eq_nil_iff.1 h.nonempty)
  exact ⟨k, ks, hcons, h.letters k (hcons ▸ List.mem_cons_self)⟩

theorem Bare.of_all {key : String} (h : (key != "" && key.toList.all isBareKey) = true) :
    Bare key where
  nonempty := bne_iff_ne.1 (Bool.and_eq_true_iff.1 h).1
  letters := List.all_eq_true.1 (Bool.and_eq_true_iff.1 h).2

theorem isBareKey_ne {c d : Char} (hc : isBareKey c = true) (hd : isBareKey d = false) : c ≠ d := by
  rintro rfl
  exact Bool.noConfusion (hc.symm.trans hd)

theorem Solid.bareKey {c : Char} (hc : isBareKey c = true) : Solid c where
  space := by
    have hspace := isBareKey_ne (d := ' ') hc (by decide)
    have htab := isBareKey_ne (d := '\t') hc (by decide)
    simp [isSpace, hspace, htab]
  comment := isBareKey_ne hc (by decide)
  feed := isBareKey_ne hc (by decide)
  back := isBareKey_ne hc (by decide)

theorem readSimpleKey_bare {key : String} (hkey : Bare key) {c : Char} (hc : isBareKey c = false)
    (rest : List Char) : readSimpleKey (key.toList ++ c :: rest) = some (key, c :: rest) := by
  obtain ⟨k, ks, hcons, hk⟩ := hkey.exists_cons
  have hstop : (c :: rest).takeWhile isBareKey = [] ∧
      (c :: rest).dropWhile isBareKey = c :: rest := by
    rw [List.takeWhile_cons_of_neg (by simp [hc]), List.dropWhile_cons_of_neg (by simp [hc])]
    exact ⟨rfl, rfl⟩
  unfold readSimpleKey
  split
  · next heq =>
    rw [hcons] at heq
    exact absurd (List.cons.inj heq).1 (isBareKey_ne hk (by decide))
  · next heq =>
    rw [hcons] at heq
    exact absurd (List.cons.inj heq).1 (isBareKey_ne hk (by decide))
  · simp only [List.takeWhile_append_of_pos hkey.letters, List.dropWhile_append_of_pos hkey.letters,
      hstop, List.append_nil, String.ofList_toList]
    rw [if_neg (by simp [hcons])]

theorem readKey_bare {key : String} (hkey : Bare key) (rest : List Char) :
    readKey (key.toList ++ ' ' :: '=' :: rest) = some ([], key, '=' :: rest) := by
  obtain ⟨k, ks, hcons, hk⟩ := hkey.exists_cons
  have hskip : skipSpaces (key.toList ++ ' ' :: '=' :: rest) =
      key.toList ++ ' ' :: '=' :: rest := by
    rw [hcons]
    exact skipSpaces_cons (Solid.bareKey hk).space _
  rw [readKey, nestingLimit, readKeyParts, hskip, readSimpleKey_bare hkey (by decide)]
  rfl

theorem insertAt_nil {key : String} {es : Entries} (hkey : es.value? key = none) (v : Value) :
    insertAt [] [] key v es = some (es ++ [(key, v)]) := by
  have hset : es.set key v = es ++ [(key, v)] := by
    rw [Entries.set, if_neg]
    simp only [List.any_eq_true, not_exists, not_and]
    intro e he heq
    exact bne_iff_ne.1 (List.lookup_eq_none_iff.1 hkey e he) (beq_iff_eq.1 heq).symm
  simp [insertAt, descend, insertKey, hkey, hset]

/-- A line that gives a key its value. -/
theorem readLine_bare {key : String} (hkey : Bare key) {text : List Char} {v : Value}
    (hvalue : Denotes text v) {es : Entries} (hfree : es.value? key = none) (rest : List Char) :
    readLine ⟨es, []⟩ (key.toList ++ ' ' :: '=' :: ' ' :: text ++ '\n' :: rest) =
      some (⟨es ++ [(key, v)], []⟩, rest) := by
  obtain ⟨k, ks, hcons, hk⟩ := hkey.exists_cons
  have hbracket : k ≠ '[' := isBareKey_ne hk (by decide)
  obtain ⟨c, cs, hc, htext⟩ := hvalue.first
  have hskip : skipSpaces (' ' :: text ++ '\n' :: rest) = text ++ '\n' :: rest := by
    rw [htext]
    exact skipSpaces_cons hc.space _
  have hread : readValue ((' ' :: text ++ '\n' :: rest).length + 1) nestingLimit
      (text ++ '\n' :: rest) = some (v, '\n' :: rest) := by
    refine hvalue.read ?_ (by decide) (by rintro d ⟨⟩; decide)
    simp only [List.length_append, List.length_cons]
    omega
  unfold readLine
  split
  · next heq =>
    rw [hcons] at heq
    exact absurd (List.cons.inj heq).1 hbracket
  · next heq =>
    rw [hcons] at heq
    exact absurd (List.cons.inj heq).1 hbracket
  · have hline : key.toList ++ ' ' :: '=' :: ' ' :: text ++ '\n' :: rest =
        key.toList ++ ' ' :: '=' :: (' ' :: text ++ '\n' :: rest) := by
      simp only [List.append_assoc, List.cons_append]
    rw [hline, readKey_bare hkey]
    simp only [Option.bind_eq_bind, Option.bind_some, stripLead, if_true, hskip, hread,
      insertAt_nil hfree]
    rfl

end CrossRef.Toml
