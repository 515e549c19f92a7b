/-
  CrossRef.Proofs.Json.Compact

  The compact text of a JSON value is read as that value (`parse?_compact`), so
  different values have different texts. What follows a value in a text never
  goes on with it: behind a value there is a comma, a closing bracket or brace,
  or nothing.
-/
import CrossRef.Json.Read
import CrossRef.Proofs.Anchor

namespace CrossRef.Json

open CrossRef.Text

/-! ## Strings -/

namespace Value

/-- The piece of a string that a character is written as. -/
def pieceOf (c : Char) : Piece :=
  if c.toNat < 32 ∧ c ∉ ['\x08', '\t', '\n', '\x0c', '\r'] then .unit c.toNat else .char c

end Value

open Value

/-! ### Pieces -/

theorem pieces_plain {c : Char} (hquote : c ≠ '\x22') (hslash : c ≠ '\\') (hle : ¬ c.toNat < 32)
    (rest : List Char) :
    pieces (c :: rest) = (pieces rest).map fun (ps, behind) => (.char c :: ps, behind) := by
  rw [pieces.eq_def]
  split
  · next h => exact absurd (List.cons.inj h).1 hquote
  · next h => exact absurd (List.cons.inj h).1 hslash
  · next h => exact absurd (List.cons.inj h).1 hslash
  · next h =>
    obtain ⟨rfl, rfl⟩ := List.cons.inj h
    rw [if_neg hle]
    cases pieces rest
    all_goals rfl
  · next h => exact absurd h (List.cons_ne_nil _ _)

theorem pieces_escaped {e c : Char} (h : escaped? e = some c) (rest : List Char) :
    pieces ('\\' :: e :: rest) = (pieces rest).map fun (ps, behind) => (.char c :: ps, behind) := by
  have hunit : e ≠ 'u' := by
    intro he
    rw [he] at h
    cases h
  rw [pieces, h]
  · cases pieces rest
    all_goals rfl
  · rintro a b c d behind he
    exact absurd he hunit

theorem pieces_unit {a b c d : Char} {n : Nat} (h : unit? a b c d = some n) (rest : List Char) :
    pieces ('\\' :: 'u' :: a :: b :: c :: d :: rest) =
      (pieces rest).map fun (ps, behind) => (.unit n :: ps, behind) := by
  rw [pieces, h]
  cases pieces rest
  all_goals rfl

theorem unit?_hexDigit :
    ∀ n < 32, unit? '0' '0' (hexDigit (n / 16)) (hexDigit (n % 16)) = some n := by
  decide

/-- A character of a string is read as the piece it was written as. -/
theorem pieces_escape (c : Char) (rest : List Char) :
    pieces (escape c ++ rest) =
      (pieces rest).map fun (ps, behind) => (pieceOf c :: ps, behind) := by
  unfold escape
  split
  · exact pieces_escaped rfl rest
  · exact pieces_escaped rfl rest
  · exact pieces_escaped rfl rest
  · exact pieces_escaped rfl rest
  · exact pieces_escaped rfl rest
  · exact pieces_escaped rfl rest
  · exact pieces_escaped rfl rest
  · next hquote hslash hb ht hn hf hr =>
    split
    · next hlt =>
      have hpiece : pieceOf c = .unit c.toNat := by
        have hplain : c ∉ ['\x08', '\t', '\n', '\x0c', '\r'] := by
          simp only [List.mem_cons, List.not_mem_nil, or_false, not_or]
          exact ⟨hb, ht, hn, hf, hr⟩
        rw [pieceOf, if_pos ⟨hlt, hplain⟩]
      rw [hpiece]
      exact pieces_unit (unit?_hexDigit _ hlt) rest
    · next hle =>
      have hpiece : pieceOf c = .char c := by
        rw [pieceOf, if_neg fun h => hle h.1]
      rw [hpiece]
      exact pieces_plain hquote hslash hle rest

theorem join_unit {n : Nat} (h : n < 32) (ps : List Piece) :
    join (.unit n :: ps) = (join ps).map (Char.ofNat n :: ·) := by
  have hhigh : isHighSurrogate n = false := by
    simp only [isHighSurrogate, Bool.and_eq_false_iff, decide_eq_false_iff_not]
    omega
  have hlow : isLowSurrogate n = false := by
    simp only [isLowSurrogate, Bool.and_eq_false_iff, decide_eq_false_iff_not]
    omega
  rw [join.eq_def]
  simp only [hhigh, hlow, Bool.false_eq_true, if_false]

theorem join_pieceOf (cs : List Char) : join (cs.map pieceOf) = some cs := by
  induction cs with
  | nil => rfl
  | cons c cs ih =>
    rw [List.map_cons, pieceOf]
    split
    · next h =>
      rw [join_unit h.1, ih, Char.ofNat_toNat]
      rfl
    · rw [join, ih]
      rfl

theorem pieces_flatMap_escape (cs rest : List Char) :
    pieces (cs.flatMap escape ++ '\x22' :: rest) = some (cs.map pieceOf, rest) := by
  induction cs with
  | nil => rw [List.flatMap_nil, List.nil_append, pieces, List.map_nil]
  | cons c cs ih =>
    rw [List.flatMap_cons, List.append_assoc, pieces_escape, ih]
    rfl

/-- A string is read up to its closing quote. -/
theorem readString_flatMap_escape (s : String) (rest : List Char) :
    readString (s.toList.flatMap escape ++ '\x22' :: rest) = some (some s, rest) := by
  have hjoin : (join (s.toList.map pieceOf)).map String.ofList = some s := by
    rw [join_pieceOf, Option.map_some, String.ofList_toList]
  rw [readString, pieces_flatMap_escape]
  exact congrArg some (congrArg (·, rest) hjoin)

/-! ## Numbers -/

/-- What can stand behind a value in a compact text. -/
def EndsValue (rest : List Char) : Prop := ∀ c ∈ rest.head?, c = ',' ∨ c = ']' ∨ c = '\x7d'

theorem EndsValue.cases {rest : List Char} (h : EndsValue rest) :
    rest = [] ∨
      ∃ behind, rest = ',' :: behind ∨ rest = ']' :: behind ∨ rest = '\x7d' :: behind := by
  cases rest with
  | nil => exact .inl rfl
  | cons c behind =>
    refine .inr ⟨behind, ?_⟩
    rcases h c rfl with rfl | rfl | rfl
    · exact .inl rfl
    · exact .inr (.inl rfl)
    · exact .inr (.inr rfl)

theorem EndsValue.readTail {rest : List Char} (h : EndsValue rest) :
    readTail rest = some (false, rest) := by
  rcases h.cases with rfl | ⟨behind, rfl | rfl | rfl⟩
  all_goals rfl

theorem EndsValue.readDigits {rest digits : List Char} (h : EndsValue rest)
    (hne : digits ≠ []) (hdigits : ∀ c ∈ digits, Decimal.isDigit c = true) :
    readDigits (digits ++ rest) = some (digits, rest) := by
  have hrest : rest.takeWhile Decimal.isDigit = [] ∧ rest.dropWhile Decimal.isDigit = rest := by
    rcases h.cases with rfl | ⟨behind, rfl | rfl | rfl⟩
    all_goals exact ⟨rfl, rfl⟩
  rw [Json.readDigits, List.takeWhile_append_of_pos hdigits, List.dropWhile_append_of_pos hdigits,
    hrest.1, hrest.2, List.append_nil, if_neg (by rwa [List.isEmpty_iff])]

/-- Only zero is spelled with a zero in front. -/
theorem eq_zero_of_head?_toDigits {n : Nat} (h : (Nat.toDigits 10 n).head? = some '0') : n = 0 := by
  induction n using Nat.strongRecOn with
  | ind n ih =>
    by_cases hn : n < 10
    · rw [Nat.toDigits_of_lt_base hn, List.head?_singleton, Option.some.injEq] at h
      have hdigit : ∀ d < 10, Nat.digitChar d = '0' → d = 0 := by decide
      exact hdigit n hn h
    · rw [Nat.toDigits_of_base_le (by decide) (Nat.le_of_not_lt hn),
        List.head?_append, List.head?_eq_some_head Nat.toDigits_ne_nil, Option.some_or,
        ← List.head?_eq_some_head] at h
      have hzero := ih (n / 10) (by omega) h
      omega

theorem readNumber_repr {n : Nat} {rest : List Char} (h : EndsValue rest) :
    readNumber false ((Nat.repr n).toList ++ rest) = some (.number n, rest) := by
  have hne : (Nat.repr n).toList ≠ [] := by
    rw [Nat.toList_repr]
    exact Nat.toDigits_ne_nil
  have hzeros : ¬ ((Nat.repr n).toList.head? = some '0' ∧ (Nat.repr n).toList.length > 1) := by
    rintro ⟨hhead, hlength⟩
    rw [Nat.toList_repr] at hhead hlength
    rw [eq_zero_of_head?_toDigits hhead, Nat.toDigits_zero] at hlength
    exact absurd hlength (by decide)
  rw [readNumber, h.readDigits hne fun c => Decimal.isDigit_of_mem_repr]
  simp only [bind, Option.bind_some, if_neg hzeros, h.readTail, pure, Decimal.value_repr]
  rfl

theorem isBlank_of_isDigit {c : Char} (h : Decimal.isDigit c = true) : isBlank c = false := by
  simp only [isBlank, Bool.or_eq_false_iff, beq_eq_false_iff_ne]
  refine ⟨⟨⟨?_, ?_⟩, ?_⟩, ?_⟩
  all_goals
    rintro rfl
    exact absurd h (by decide)

/-! ## Values -/

namespace Value

/-- Values that a text denotes. -/
inductive Usable : Value → Prop
  | null : Usable .null
  | bool (b : Bool) : Usable (.bool b)
  | number (n : Nat) : Usable (.number n)
  | string (s : String) : Usable (.string s)
  | array {items : List Value} (h : ∀ v ∈ items, Usable v) : Usable (.array items)
  | object {members : List (String × Value)} (h : ∀ m ∈ members, Usable m.2) :
    Usable (.object members)

/-- The value is read from its text, whatever ends it. -/
def ReadsBack (v : Value) : Prop := ∀ fuel rest, 2 * v.compactChars.length ≤ fuel →
  EndsValue rest → readValue fuel (v.compactChars ++ rest) = some (v, rest)

/-- No value starts with a blank or with the end of an array. -/
theorem exists_head_compactChars (v : Value) :
    ∃ c cs, v.compactChars = c :: cs ∧ isBlank c = false ∧ c ≠ ']' := by
  cases v with
  | null => exact ⟨'n', _, rfl, rfl, by decide⟩
  | bool b =>
    cases b
    · exact ⟨'f', _, rfl, rfl, by decide⟩
    · exact ⟨'t', _, rfl, rfl, by decide⟩
  | number n =>
    have hne : (Nat.repr n).toList ≠ [] := by
      rw [Nat.toList_repr]
      exact Nat.toDigits_ne_nil
    obtain ⟨c, cs, hcs⟩ := List.exists_cons_of_ne_nil hne
    have hdigit : Decimal.isDigit c = true :=
      Decimal.isDigit_of_mem_repr (n := n) (by rw [hcs]; exact List.mem_cons_self)
    exact ⟨c, cs, hcs, isBlank_of_isDigit hdigit, fun h => absurd hdigit (by rw [h]; decide)⟩
  | string s => exact ⟨'\x22', _, rfl, rfl, by decide⟩
  | array items =>
    cases items
    all_goals exact ⟨'[', _, rfl, rfl, by decide⟩
  | object members =>
    cases members
    all_goals exact ⟨'\x7b', _, rfl, rfl, by decide⟩
  | unusable => exact ⟨'n', _, rfl, rfl, by decide⟩

theorem skipBlanks_cons {c : Char} (h : isBlank c = false) (cs : List Char) :
    skipBlanks (c :: cs) = c :: cs := by
  rw [skipBlanks, List.dropWhile_cons, h, if_neg Bool.false_ne_true]

theorem skipBlanks_compactChars (v : Value) (rest : List Char) :
    skipBlanks (v.compactChars ++ rest) = v.compactChars ++ rest := by
  obtain ⟨c, cs, hcs, hblank, -⟩ := v.exists_head_compactChars
  rw [hcs, List.cons_append, skipBlanks_cons hblank]

theorem length_compactChars_pos (v : Value) : 0 < v.compactChars.length := by
  obtain ⟨c, cs, hcs, -⟩ := v.exists_head_compactChars
  rw [hcs]
  exact Nat.succ_pos _

/-! ### Items -/

theorem endsValue_compactItems (vs : List Value) (rest : List Char) :
    EndsValue (compactItems vs ++ rest) := by
  cases vs
  all_goals
    intro c hc
    obtain rfl := Option.some.inj hc
    simp

theorem readItems_compactItems {vs : List Value} (h : ∀ v ∈ vs, v.ReadsBack) (fuel : Nat)
    (rest : List Char) (hfuel : 2 * (compactItems vs).length ≤ fuel) :
    readItems fuel (compactItems vs ++ rest) = some (vs, rest) := by
  induction vs generalizing fuel with
  | nil =>
    obtain ⟨fuel, rfl⟩ : ∃ g, fuel = g + 1 := ⟨fuel - 1, by simp [compactItems] at hfuel; omega⟩
    rfl
  | cons v vs ih =>
    have hv := h v List.mem_cons_self
    have hvs := ih fun w hw => h w (List.mem_cons_of_mem _ hw)
    have htext : compactItems (v :: vs) ++ rest =
        ',' :: (v.compactChars ++ (compactItems vs ++ rest)) := by
      simp only [compactItems, List.cons_append, List.append_assoc]
    simp only [compactItems, List.length_append, List.length_cons] at hfuel
    obtain ⟨fuel, rfl⟩ : ∃ g, fuel = g + 1 := ⟨fuel - 1, by omega⟩
    rw [htext, readItems, skipBlanks_cons rfl]
    simp only [hv fuel _ (by omega) (endsValue_compactItems vs rest), hvs fuel (by omega), bind,
      Option.bind_some, pure]

/-! ### Members -/

theorem endsValue_compactMembers (ms : List (String × Value)) (rest : List Char) :
    EndsValue (compactMembers ms ++ rest) := by
  cases ms
  all_goals
    intro c hc
    obtain rfl := Option.some.inj hc
    simp

theorem readMember_quoted {k : String} {v : Value} (h : v.ReadsBack) (fuel : Nat)
    (rest : List Char) (hrest : EndsValue rest) (hfuel : 2 * v.compactChars.length + 1 ≤ fuel) :
    readMember fuel (quoted k ++ ':' :: (v.compactChars ++ rest)) = some ((some k, v), rest) := by
  have htext : quoted k ++ ':' :: (v.compactChars ++ rest) =
      '\x22' :: (k.toList.flatMap escape ++ '\x22' :: ':' :: (v.compactChars ++ rest)) := by
    simp only [quoted, List.cons_append, List.append_assoc, List.nil_append]
  obtain ⟨fuel, rfl⟩ : ∃ g, fuel = g + 1 := ⟨fuel - 1, by omega⟩
  rw [htext, readMember, skipBlanks_cons rfl]
  simp only [readString_flatMap_escape, bind, Option.bind_some, skipBlanks_cons (c := ':') rfl,
    h fuel rest (by omega) hrest, pure]

theorem readMembers_compactMembers {ms : List (String × Value)} (h : ∀ m ∈ ms, m.2.ReadsBack)
    (fuel : Nat) (rest : List Char) (hfuel : 2 * (compactMembers ms).length ≤ fuel) :
    readMembers fuel (compactMembers ms ++ rest) =
      some (ms.map fun m => (some m.1, m.2), rest) := by
  induction ms generalizing fuel with
  | nil =>
    obtain ⟨fuel, rfl⟩ : ∃ g, fuel = g + 1 := ⟨fuel - 1, by simp [compactMembers] at hfuel; omega⟩
    rfl
  | cons m ms ih =>
    have hm := h m List.mem_cons_self
    have hms := ih fun w hw => h w (List.mem_cons_of_mem _ hw)
    have htext : compactMembers (m :: ms) ++ rest =
        ',' :: (quoted m.1 ++ ':' :: (m.2.compactChars ++ (compactMembers ms ++ rest))) := by
      simp only [compactMembers, List.cons_append, List.append_assoc]
    simp only [compactMembers, List.length_append, List.length_cons] at hfuel
    obtain ⟨fuel, rfl⟩ : ∃ g, fuel = g + 1 := ⟨fuel - 1, by omega⟩
    have hmember := readMember_quoted (k := m.1) hm fuel _ (endsValue_compactMembers ms rest)
      (by omega)
    rw [htext, readMembers, skipBlanks_cons rfl]
    simp only [hmember, hms fuel (by omega), bind, Option.bind_some, pure, List.map_cons]

theorem objectOf_map_some (ms : List (String × Value)) :
    objectOf (ms.map fun m => (some m.1, m.2)) = .object ms := by
  have hkeys {member? : Option String × Value → Option (String × Value)}
      (hmember : ∀ k v, member? (some k, v) = some (k, v)) :
      (ms.map fun m => (some m.1, m.2)).mapM member? = some ms := by
    induction ms with
    | nil => rfl
    | cons m ms ih =>
      rw [List.map_cons, List.mapM_cons, hmember, ih]
      rfl
  rw [objectOf, hkeys fun _ _ => rfl]

/-! ### Any value -/

theorem readsBack_number (n : Nat) : (number n).ReadsBack := by
  intro fuel rest hfuel hrest
  obtain ⟨c, cs, hcs, hblank, hclose⟩ := (number n).exists_head_compactChars
  have hpos := (number n).length_compactChars_pos
  obtain ⟨fuel, rfl⟩ : ∃ g, fuel = g + 1 := ⟨fuel - 1, by omega⟩
  have hdigit : Decimal.isDigit c = true := by
    refine Decimal.isDigit_of_mem_repr (n := n) ?_
    have hmem : c ∈ (number n).compactChars := by
      rw [hcs]
      exact List.mem_cons_self
    exact hmem
  have hnumber := readNumber_repr (n := n) hrest
  have hcs' : (Nat.repr n).toList = c :: cs := hcs
  rw [readValue, skipBlanks_compactChars, hcs]
  rw [hcs'] at hnumber
  have other {d : Char} {ds : List Char} (hd : Decimal.isDigit d = false) :
      c :: cs ++ rest ≠ d :: ds := by
    intro h
    rw [← (List.cons.inj h).1, hdigit] at hd
    cases hd
  have strip {d : Char} {ds : List Char} (hd : Decimal.isDigit d = false) :
      stripLead (d :: ds) (c :: cs ++ rest) = none := by
    rw [List.cons_append, stripLead, if_neg]
    rintro rfl
    rw [hdigit] at hd
    cases hd
  split
  · next h => exact absurd h (other rfl)
  · next h => exact absurd h (other rfl)
  · next h => exact absurd h (other rfl)
  · next h => exact absurd h (other rfl)
  · have hnull : stripLead "null".toList (c :: cs ++ rest) = none := strip (d := 'n') rfl
    have htrue : stripLead "true".toList (c :: cs ++ rest) = none := strip (d := 't') rfl
    have hfalse : stripLead "false".toList (c :: cs ++ rest) = none := strip (d := 'f') rfl
    simp only [hnull, htrue, hfalse, hnumber]

theorem readsBack_string (s : String) : (string s).ReadsBack := by
  intro fuel rest hfuel _
  have hpos := (string s).length_compactChars_pos
  obtain ⟨fuel, rfl⟩ : ∃ g, fuel = g + 1 := ⟨fuel - 1, by omega⟩
  have htext : (string s).compactChars ++ rest =
      '\x22' :: (s.toList.flatMap escape ++ '\x22' :: rest) := by
    simp only [compactChars, quoted, List.cons_append, List.append_assoc, List.nil_append]
  rw [htext, readValue, skipBlanks_cons rfl]
  simp only [readString_flatMap_escape, Option.map_some, Option.getD_some]

theorem readsBack_array {vs : List Value} (h : ∀ v ∈ vs, v.ReadsBack) : (array vs).ReadsBack := by
  intro fuel rest hfuel _
  have hpos := (array vs).length_compactChars_pos
  obtain ⟨fuel, rfl⟩ : ∃ g, fuel = g + 1 := ⟨fuel - 1, by omega⟩
  cases vs with
  | nil => rfl
  | cons v vs =>
    obtain ⟨c, cs, hcs, hblank, hclose⟩ := v.exists_head_compactChars
    have hv := h v List.mem_cons_self
    have htext : (array (v :: vs)).compactChars ++ rest =
        '[' :: (v.compactChars ++ (compactItems vs ++ rest)) := by
      simp only [compactChars, List.cons_append, List.append_assoc]
    simp only [compactChars, List.length_append, List.length_cons] at hfuel
    have hread := hv fuel _ (by omega) (endsValue_compactItems vs rest)
    have hitems := readItems_compactItems (fun w hw => h w (List.mem_cons_of_mem _ hw)) fuel rest
      (by omega)
    rw [htext, readValue, skipBlanks_cons rfl]
    simp only
    rw [skipBlanks_compactChars]
    split
    · next hmatch =>
      rw [hcs] at hmatch
      exact absurd (List.cons.inj hmatch).1 hclose
    · simp only [hread, hitems, bind, Option.bind_some, pure]

theorem readsBack_object {ms : List (String × Value)} (h : ∀ m ∈ ms, m.2.ReadsBack) :
    (object ms).ReadsBack := by
  intro fuel rest hfuel _
  have hpos := (object ms).length_compactChars_pos
  obtain ⟨fuel, rfl⟩ : ∃ g, fuel = g + 1 := ⟨fuel - 1, by omega⟩
  cases ms with
  | nil => rfl
  | cons m ms =>
    have hm := h m List.mem_cons_self
    have htext : (object (m :: ms)).compactChars ++ rest =
        '\x7b' :: (quoted m.1 ++ ':' :: (m.2.compactChars ++ (compactMembers ms ++ rest))) := by
      simp only [compactChars, List.cons_append, List.append_assoc]
    have hlength : 2 * (m.2.compactChars.length + (compactMembers ms).length) + 2 ≤ fuel := by
      simp only [compactChars, quoted, List.length_append, List.length_cons] at hfuel
      omega
    have hread := readMember_quoted (k := m.1) hm fuel _ (endsValue_compactMembers ms rest)
      (by omega)
    have hmembers := readMembers_compactMembers (fun w hw => h w (List.mem_cons_of_mem _ hw)) fuel
      rest (by omega)
    have hobject := objectOf_map_some (m :: ms)
    rw [List.map_cons] at hobject
    rw [htext, readValue, skipBlanks_cons rfl]
    simp only
    have hquote :
        skipBlanks (quoted m.1 ++ ':' :: (m.2.compactChars ++ (compactMembers ms ++ rest))) =
          quoted m.1 ++ ':' :: (m.2.compactChars ++ (compactMembers ms ++ rest)) :=
      skipBlanks_cons rfl _
    rw [hquote]
    split
    · next hmatch => exact absurd (List.cons.inj hmatch).1 (by decide)
    · simp only [hread, hmembers, hobject, bind, Option.bind_some, pure]

/-- A value is read from its text, by induction on the value. -/
theorem readsBack_of_usable {v : Value} (h : v.Usable) : v.ReadsBack := by
  induction h with
  | null =>
    intro fuel rest hfuel _
    obtain ⟨fuel, rfl⟩ : ∃ g, fuel = g + 1 :=
      ⟨fuel - 1, by simp [compactChars, literal] at hfuel; omega⟩
    rfl
  | bool b =>
    intro fuel rest hfuel _
    have hpos := (bool b).length_compactChars_pos
    obtain ⟨fuel, rfl⟩ : ∃ g, fuel = g + 1 := ⟨fuel - 1, by omega⟩
    cases b
    all_goals rfl
  | number n => exact readsBack_number n
  | string s => exact readsBack_string s
  | array _ ih => exact readsBack_array ih
  | object _ ih => exact readsBack_object ih

end Value

/-- The compact text of a value is read as the value. -/
theorem parse?_compact {v : Value} (h : v.Usable) : parse? v.compact = some v := by
  have hfuel : 2 * v.compactChars.length ≤ 2 * v.compactChars.length + 2 := by omega
  have hread := readsBack_of_usable h _ [] hfuel nofun
  rw [List.append_nil] at hread
  simp only [parse?, compact, String.toList_ofList, hread]
  rfl

end CrossRef.Json
