/-
  CrossRef.Proofs.Toml.Codec

  What TOML promises of tables as settings have them (`Codec.Lawful`), and that
  the writer and the reader of this library keep it (`lawful_standard`). A
  document is a row of lines, each of which gives a key of its own a value.
-/
import CrossRef.Proofs.Toml.Read
import CrossRef.Toml.Codec

namespace CrossRef.Toml

/-! ## Plain tables -/

/-- A flag, a text or a list of texts. -/
inductive Value.Plain : Value → Prop where
  | bool (b : Bool) : Plain (.bool b)
  | string (s : String) : Plain (.string s)
  | texts (ss : List String) : Plain (.array (ss.map .string))

/-- Different keys that need no quotes, with plain values. -/
structure Entries.Plain (es : Entries) : Prop where
  distinct : (es.map Prod.fst).Nodup
  bare : ∀ e ∈ es, Bare e.1
  values : ∀ e ∈ es, e.2.Plain

/-- Plain tables can be written, and what has been written is read as a table
    that gives every key the same value. -/
structure Codec.Lawful (toml : Codec) : Prop where
  writes : ∀ {es : Entries}, es.Plain → ∃ text, toml.write? es = some text
  reads_back : ∀ {es : Entries} {text : String}, es.Plain → toml.write? es = some text →
    ∃ es', toml.read? text = some es' ∧ ∀ key, es'.value? key = es.value? key

/-! ## Lists -/

/-- The lines of a list of two or more texts. -/
def itemLines (ss : List String) : List Char :=
  ss.flatMap fun s => "    ".toList ++ quote s.toList ++ [',', '\n']

theorem skipBlank_indent {c : Char} (hc : Solid c) (cs : List Char) :
    skipBlank ('\n' :: "    ".toList ++ c :: cs).length ('\n' :: "    ".toList ++ c :: cs) =
      c :: cs := by
  have hspaces : ∀ d ∈ "    ".toList, isSpace d = true :=
    List.all_eq_true.1 (by decide)
  exact skipBlank_spaces hc hspaces _ cs

theorem readItems_itemLines (ss : List String) {fuel : Nat} (room : Nat) (rest : List Char)
    (hfuel : ss.length + 1 < fuel) :
    readItems fuel room ('\n' :: itemLines ss ++ ']' :: rest) =
      some (ss.map .string, rest) := by
  induction ss generalizing fuel with
  | nil =>
    obtain ⟨fuel, rfl⟩ := Nat.exists_eq_add_of_lt hfuel
    exact readItems_end _ room rfl
  | cons s ss ih =>
    rw [List.length_cons] at hfuel
    obtain ⟨fuel, rfl⟩ : ∃ n, fuel = n + 2 := ⟨fuel - 2, by omega⟩
    have hblank : skipBlank ('\n' :: itemLines (s :: ss) ++ ']' :: rest).length
        ('\n' :: itemLines (s :: ss) ++ ']' :: rest) =
        quote s.toList ++ ',' :: ('\n' :: itemLines ss ++ ']' :: rest) := by
      obtain ⟨q, body, hq, heq⟩ := exists_quote_eq_cons s.toList
      have := skipBlank_indent (.quote hq) (body ++ ',' :: '\n' :: itemLines ss ++ ']' :: rest)
      simpa [itemLines, heq] using this
    rw [readItems_comma fuel room hblank, ih (by omega)]
    rfl

theorem length_le_itemLines (ss : List String) : ss.length ≤ (itemLines ss).length := by
  induction ss with
  | nil => exact Nat.le_refl _
  | cons s ss ih =>
    simp only [itemLines, List.flatMap_cons, List.length_append, List.length_cons] at ih ⊢
    omega

theorem denotes_listText (ss : List String) :
    Denotes (listText ss) (.array (ss.map .string)) where
  first := by
    have hsolid : Solid '[' := by constructor <;> decide
    unfold listText
    split
    all_goals exact ⟨'[', _, hsolid, rfl⟩
  read {fuel room rest} hfuel hroom _ := by
    obtain ⟨room, rfl⟩ := Nat.exists_eq_succ_of_ne_zero (Nat.ne_of_gt hroom)
    -- What stands behind the opening bracket is read with one less of fuel and room.
    suffices h : ∃ items fuel', listText ss = '[' :: items ∧ fuel = fuel' + 1 ∧
        readItems fuel' room (items ++ rest) = some (ss.map .string, rest) by
      obtain ⟨items, fuel, hitems, rfl, hread⟩ := h
      rw [hitems, List.cons_append, readValue, hread]
      rfl
    unfold listText at hfuel ⊢
    split at hfuel
    · obtain ⟨fuel, rfl⟩ : ∃ n, fuel = n + 2 := ⟨fuel - 2, by simp at hfuel; omega⟩
      exact ⟨[']'], _, rfl, rfl, readItems_end fuel room rfl⟩
    · next s =>
      obtain ⟨fuel, rfl⟩ : ∃ n, fuel = n + 3 := ⟨fuel - 3, by simp at hfuel; omega⟩
      refine ⟨quote s.toList ++ [']'], _, rfl, rfl, readItems_last fuel room ?_⟩
      obtain ⟨q, body, hq, heq⟩ := exists_quote_eq_cons s.toList
      simp only [heq, List.cons_append, List.append_assoc, List.nil_append]
      exact skipBlank_solid (.quote hq) _ _
    · have hle := length_le_itemLines ss
      obtain ⟨fuel, rfl⟩ : ∃ n, fuel = n + 1 := ⟨fuel - 1, by simp at hfuel; omega⟩
      refine ⟨'\n' :: itemLines ss ++ [']'], fuel, rfl, rfl, ?_⟩
      rw [List.append_assoc]
      refine readItems_itemLines ss room rest ?_
      have hlength : ('[' :: '\n' :: itemLines ss ++ [']']).length < fuel + 1 := hfuel
      simp only [List.length_append, List.length_cons, List.length_nil] at hlength
      omega

/-! ## Lines -/

/-- A line of a file: a key, and a text that denotes its value. -/
structure Setting where
  key : String
  text : List Char
  value : Value
  bare : Bare key
  denotes : Denotes text value

namespace Setting

def line (s : Setting) : List Char := Toml.line s.key s.text

def entry (s : Setting) : String × Value := (s.key, s.value)

/-- The line begins with a letter of its key. -/
theorem exists_line_eq_cons (s : Setting) :
    ∃ c cs, isBareKey c = true ∧ s.line = c :: cs := by
  obtain ⟨k, ks, hcons, hk⟩ := s.bare.exists_cons
  refine ⟨k, ks ++ " = ".toList ++ s.text ++ ['\n'], hk, ?_⟩
  simp only [line, Toml.line, hcons, List.cons_append]

theorem readLine_line (s : Setting) {es : Entries} (hfree : es.value? s.key = none)
    (rest : List Char) :
    readLine ⟨es, []⟩ (s.line ++ rest) = some (⟨es ++ [s.entry], []⟩, rest) := by
  have heq : s.line ++ rest = s.key.toList ++ ' ' :: '=' :: ' ' :: s.text ++ '\n' :: rest := by
    simp [line, Toml.line]
  rw [heq]
  exact readLine_bare s.bare s.denotes hfree rest

end Setting

/-- Lines that give different keys their values are read one by one. -/
theorem readLines_lines (ss : List Setting) {fuel : Nat} {es : Entries}
    (hfree : ∀ s ∈ ss, es.value? s.key = none) (hkeys : (ss.map (·.key)).Nodup)
    (hfuel : ss.length < fuel) :
    readLines fuel ⟨es, []⟩ (ss.flatMap (·.line)) = some ⟨es ++ ss.map (·.entry), []⟩ := by
  induction ss generalizing fuel es with
  | nil =>
    obtain ⟨fuel, rfl⟩ := Nat.exists_eq_add_of_lt hfuel
    simp [readLines, skipBlank]
  | cons s ss ih =>
    obtain ⟨hfresh, hkeys⟩ := List.nodup_cons.1 hkeys
    obtain ⟨hs, hfree⟩ := List.forall_mem_cons.1 hfree
    obtain ⟨fuel, rfl⟩ := Nat.exists_eq_succ_of_ne_zero (Nat.ne_zero_of_lt hfuel)
    have hfree' : ∀ s' ∈ ss, Entries.value? (es ++ [s.entry]) s'.key = none := by
      intro s' hs'
      have hne : s'.key ≠ s.key := fun h => hfresh (List.mem_map.2 ⟨s', hs', h⟩)
      have hes : List.lookup s'.key es = none := hfree s' hs'
      rw [Entries.value?, List.lookup_append, hes, Setting.entry, List.lookup_cons,
        beq_false_of_ne hne]
      rfl
    obtain ⟨c, cs, hc, hline⟩ := s.exists_line_eq_cons
    have hblank (n : Nat) : skipBlank n (s.line ++ ss.flatMap (·.line)) =
        s.line ++ ss.flatMap (·.line) := by
      rw [hline]
      exact skipBlank_solid (.bareKey hc) n _
    rw [List.flatMap_cons, readLines, hblank]
    split
    · next heq =>
      rw [hline] at heq
      cases heq
    · rw [s.readLine_line hs]
      simp only [Option.bind_eq_bind, Option.bind_some]
      rw [ih hfree' hkeys (by simpa using hfuel), List.append_assoc, List.singleton_append,
        List.map_cons]

theorem length_le_lines (ss : List Setting) : ss.length ≤ (ss.flatMap (·.line)).length := by
  induction ss with
  | nil => exact Nat.le_refl _
  | cons s ss ih =>
    obtain ⟨c, cs, -, hline⟩ := s.exists_line_eq_cons
    simp only [List.flatMap_cons, hline, List.length_append, List.length_cons] at ih ⊢
    omega

/-- The entries of a document of such lines. -/
theorem parse?_lines (ss : List Setting) (hkeys : (ss.map (·.key)).Nodup) :
    Toml.parse? (String.ofList (ss.flatMap (·.line))) = some (ss.map (·.entry)) := by
  have hread : readLines ((ss.flatMap (·.line)).length + 1) ⟨[], []⟩ (ss.flatMap (·.line)) = _ :=
    readLines_lines ss (fun _ _ => rfl) hkeys (Nat.lt_succ_of_le (length_le_lines ss))
  have hmark : ∀ c ∈ (ss.flatMap (·.line)).head?, c.toNat ≠ 0xFEFF := by
    cases ss with
    | nil => simp
    | cons s ss =>
      obtain ⟨c, cs, hc, hline⟩ := s.exists_line_eq_cons
      have hne : c ≠ Char.ofNat 0xFEFF := isBareKey_ne hc (by decide)
      rw [List.flatMap_cons, hline]
      rintro d ⟨⟩ h
      exact hne (by rw [← h, Char.ofNat_toNat])
  rw [Toml.parse?, String.toList_ofList]
  split
  · next c rest heq =>
    rw [heq] at hread hmark
    rw [if_neg (hmark c rfl), hread]
    rfl
  · next heq =>
    rw [heq] at hread
    rw [hread]
    rfl

/-! ## Tables -/

theorem mapM_string?_map (ss : List String) : (ss.map Value.string).mapM string? = some ss := by
  induction ss with
  | nil => rfl
  | cons s ss ih =>
    rw [List.map_cons, List.mapM_cons, ih]
    rfl

theorem Value.Plain.exists_denotes {v : Value} (h : v.Plain) :
    ∃ text, valueText? v = some text ∧ Denotes text v := by
  cases h with
  | bool b => exact ⟨_, rfl, denotes_bool b⟩
  | string s => exact ⟨_, rfl, denotes_quote s⟩
  | texts ss =>
    refine ⟨_, ?_, denotes_listText ss⟩
    rw [valueText?, mapM_string?_map]
    rfl

/-- The entries of a plain table are written line by line. -/
theorem Entries.Plain.exists_settings {es : Entries} (h : es.Plain) :
    ∃ ss : List Setting, es.mapM lineOf? = some (ss.map (·.line)) ∧ ss.map (·.entry) = es := by
  obtain ⟨-, hbare, hvalues⟩ := h
  induction es with
  | nil => exact ⟨[], rfl, rfl⟩
  | cons e es ih =>
    obtain ⟨hkey, hbare⟩ := List.forall_mem_cons.1 hbare
    obtain ⟨hvalue, hvalues⟩ := List.forall_mem_cons.1 hvalues
    obtain ⟨ss, hlines, hentries⟩ := ih hbare hvalues
    obtain ⟨text, htext, hdenotes⟩ := hvalue.exists_denotes
    have hquotes : (e.1 != "" && e.1.toList.all isBareKey) = true :=
      Bool.and_eq_true_iff.2 ⟨bne_iff_ne.2 hkey.nonempty, List.all_eq_true.2 hkey.letters⟩
    have hline : lineOf? e = some (line e.1 text) := by
      rw [lineOf?, if_pos hquotes, htext]
      rfl
    refine ⟨⟨e.1, text, e.2, hkey, hdenotes⟩ :: ss, ?_, ?_⟩
    · rw [List.mapM_cons, hline, hlines]
      rfl
    · rw [List.map_cons, hentries]
      rfl

theorem lawful_standard : Codec.standard.Lawful := by
  have hdocument : ∀ {es : Entries}, es.Plain →
      ∃ text, write? es = some text ∧ parse? text = some es := by
    intro es h
    obtain ⟨ss, hlines, hentries⟩ := h.exists_settings
    have hkeys : (ss.map (·.key)).Nodup := by
      have hdistinct := h.distinct
      rw [← hentries, List.map_map] at hdistinct
      exact hdistinct
    refine ⟨_, ?_, (parse?_lines ss hkeys).trans (congrArg some hentries)⟩
    rw [write?, hlines, List.flatMap_def]
    rfl
  constructor
  · intro es h
    obtain ⟨text, hwrite, -⟩ := hdocument h
    exact ⟨text, hwrite⟩
  · intro es text h hwrite
    obtain ⟨text', hwrite', hparse⟩ := hdocument h
    obtain rfl : text' = text := Option.some.inj (hwrite'.symm.trans hwrite)
    exact ⟨es, hparse, fun _ => rfl⟩

end CrossRef.Toml
