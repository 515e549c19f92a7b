/-
  CrossRef.Proofs.Toml.Quoted

  A string in any of the four ways of quoting is read as the text it was
  written for (`readString_quote`), whatever the text holds. The way is chosen
  by what the text holds, so that a text stands between quotes without escapes
  only if nothing in it ends the string or is out of place there.
-/
import CrossRef.Toml.Quoted
import Mathlib.Data.List.TakeWhile

namespace CrossRef.Toml

/-! ## Escapes -/

theorem character?_hexDigit : ∀ n < 128,
    character? ['0', '0', hexDigit (n / 16), hexDigit (n % 16)] = some (Char.ofNat n) := by
  decide +kernel

/-- How a character stands in an escaped string: as it is, or as an escape
    that is read as that character and does not join lines. -/
inductive Written (long : Bool) (c : Char) : List Char → Prop where
  | plain (hslash : c ≠ '\\') (hquote : c = '\x22' → long = true)
      (hplain : isPlain c = true ∨ c = '\n' ∧ long = true) : Written long c [c]
  | escaped (e : List Char) (hread : ∀ rest, readEscape (e ++ rest) = some (c, rest))
      (hblank : ∀ rest, blankLine? (e ++ rest) = none) : Written long c ('\\' :: e)

/-- An escape of one letter. -/
theorem Written.letter {long : Bool} {c e : Char} (hescaped : escaped? e = some c)
    (hread : ∀ rest, readEscape (e :: rest) = (escaped? e).map (·, rest))
    (hblank : ∀ rest, blankLine? (e :: rest) = none) : Written long c ['\\', e] :=
  .escaped [e] (fun rest => by rw [List.singleton_append, hread, hescaped]; rfl) hblank

theorem written_escape (long : Bool) {c : Char} (hquote : c ≠ '\x22') :
    Written long c (escape long c) := by
  unfold escape
  split
  · exact .letter rfl (fun _ => rfl) (fun _ => rfl)
  · exact .letter rfl (fun _ => rfl) (fun _ => rfl)
  · cases long
    · exact .letter rfl (fun _ => rfl) (fun _ => rfl)
    · exact .plain (by decide) (fun _ => rfl) (.inr ⟨rfl, rfl⟩)
  · exact .letter rfl (fun _ => rfl) (fun _ => rfl)
  · exact .letter rfl (fun _ => rfl) (fun _ => rfl)
  · exact .letter rfl (fun _ => rfl) (fun _ => rfl)
  · next hslash =>
    split
    · next hcontrol =>
      refine .escaped _ (fun rest => ?_) (fun rest => rfl)
      have hchar := character?_hexDigit c.toNat (by omega)
      rw [Char.ofNat_toNat] at hchar
      simp only [List.cons_append, List.nil_append, readEscape, hchar, Option.map_some]
    · next hcontrol =>
      have hplain : isPlain c = true := by
        simp only [isPlain, Bool.or_eq_true, Bool.and_eq_true, decide_eq_true_eq, bne_iff_ne]
        omega
      exact .plain hslash (fun h => absurd h hquote) (.inl hplain)

/-- A text is written character by character. Quotes stand for themselves in
    long strings only, and no more of them in a row than are allowed. -/
theorem exists_written {long : Bool} {quotes : Nat} (hquotes : quotes ≠ 0 → long = true)
    (run : Nat) (c : Char) (cs : List Char) :
    ∃ w run', Written long c w ∧
      escapeAll long quotes run (c :: cs) = w ++ escapeAll long quotes run' cs := by
  rw [escapeAll]
  split
  · next hc =>
    subst hc
    split
    · next hrun => exact ⟨['\x22'], run + 1, .plain (by decide) (fun _ => hquotes (by omega))
        (.inl (by decide)), rfl⟩
    · exact ⟨['\\', '\x22'], 0, .letter rfl (fun _ => rfl) (fun _ => rfl), rfl⟩
  · next hc => exact ⟨escape long c, 0, written_escape long hc, rfl⟩

/-! ## Strings in one line -/

theorem readBasic_written {c : Char} {w : List Char} (h : Written false c w) (rest : List Char) :
    readBasic (w ++ rest) = (readBasic rest).map fun (ds, behind) => (c :: ds, behind) := by
  cases h with
  | plain hslash hquote hplain =>
    have hc : c ≠ '\x22' := fun h => Bool.noConfusion (hquote h)
    have hplain : isPlain c = true := hplain.resolve_right fun h => Bool.noConfusion h.2
    rw [List.singleton_append, readBasic, if_neg hc, if_neg hslash, if_pos hplain]
  | escaped e hread hblank =>
    rw [List.cons_append, readBasic, if_neg (by decide), if_pos rfl]
    split
    · next d behind hd =>
      rw [hread] at hd
      cases hd
      rfl
    · next hnone =>
      rw [hread] at hnone
      cases hnone

theorem readBasic_escapeAll (run : Nat) (cs rest : List Char) :
    readBasic (escapeAll false 0 run cs ++ '\x22' :: rest) = some (cs, rest) := by
  induction cs generalizing run with
  | nil => rw [escapeAll, List.nil_append, readBasic, if_pos rfl]
  | cons c cs ih =>
    obtain ⟨w, run', hwritten, heq⟩ := exists_written (fun h => absurd rfl h) run c cs
    rw [heq, List.append_assoc, readBasic_written hwritten, ih]
    rfl

theorem readLiteral_append {cs : List Char} (hcs : ∀ c ∈ cs, c ≠ '\x27' ∧ isPlain c = true)
    (rest : List Char) : readLiteral (cs ++ '\x27' :: rest) = some (cs, rest) := by
  induction cs with
  | nil => rw [List.nil_append, readLiteral, if_pos rfl]
  | cons c cs ih =>
    obtain ⟨⟨hquote, hplain⟩, hcs⟩ := List.forall_mem_cons.1 hcs
    rw [List.cons_append, readLiteral, if_neg hquote, if_pos hplain, ih hcs]
    rfl

/-! ## Long strings -/

section Closing

variable {q : Char} {body rest : List Char}

theorem closing?_of_ne {cs : List Char} (h : ∀ behind, cs ≠ q :: q :: q :: behind) :
    closing? q cs = none := by
  unfold closing?
  split
  · next a b c behind =>
    rw [if_neg]
    rintro ⟨rfl, rfl, rfl⟩
    exact h behind rfl
  · rfl

theorem closing?_quotes {n : Nat} (hn : n ≤ 2) (hrest : rest.head? ≠ some q) :
    closing? q (List.replicate n q ++ q :: q :: q :: rest) = some (List.replicate n q, rest) := by
  obtain rfl | ⟨d, behind, rfl⟩ : rest = [] ∨ ∃ d behind, rest = d :: behind := by
    cases rest <;> simp
  · obtain rfl | rfl | rfl : n = 0 ∨ n = 1 ∨ n = 2 := by omega
    all_goals simp [closing?, List.replicate]
  · have hd : d ≠ q := fun h => hrest (congrArg some h)
    obtain rfl | rfl | rfl : n = 0 ∨ n = 1 ∨ n = 2 := by omega
    · cases behind
      all_goals simp [closing?, hd]
    · simp [closing?, hd]
    · simp [closing?, List.replicate]

/-- A row of at most two quotes in front of the closing ones belongs to the
    string if it goes up to them, and ends nothing otherwise. -/
theorem closing?_append (hrest : rest.head? ≠ some q)
    (hrow : (body.takeWhile (· == q)).length ≤ 2) :
    closing? q (body ++ q :: q :: q :: rest) =
      if body.all (· == q) then some (body, rest) else none := by
  split
  · next hall =>
    have htake : body.takeWhile (· == q) = body :=
      List.takeWhile_eq_self_iff.2 (List.all_eq_true.1 hall)
    have hbody : body = List.replicate body.length q :=
      List.eq_replicate_of_mem fun c hc => beq_iff_eq.1 (List.all_eq_true.1 hall c hc)
    rw [hbody]
    exact closing?_quotes (htake ▸ hrow) hrest
  · next hall =>
    refine closing?_of_ne fun behind h => ?_
    match body with
    | [] => exact hall rfl
    | [a] =>
      obtain ⟨rfl, -⟩ := List.cons.inj h
      exact hall (by simp)
    | [a, b] =>
      obtain ⟨rfl, hb⟩ := List.cons.inj h
      obtain ⟨rfl, -⟩ := List.cons.inj hb
      exact hall (by simp)
    | a :: b :: c :: body =>
      obtain ⟨rfl, hb⟩ := List.cons.inj h
      obtain ⟨rfl, hc⟩ := List.cons.inj hb
      obtain ⟨rfl, -⟩ := List.cons.inj hc
      simp at hrow

end Closing

/-! ### With escapes -/

theorem readLongBasic_written {c : Char} {w : List Char} (h : Written true c w) {rest : List Char}
    (hopen : closing? '\x22' (w ++ rest) = none) :
    readLongBasic (w ++ rest) = (readLongBasic rest).map fun (ds, behind) => (c :: ds, behind) := by
  cases h with
  | plain hslash hquote hplain =>
    have hplain : c = '\n' ∨ isPlain c = true := hplain.symm.imp_left fun h => h.1
    rw [readLongBasic.eq_def, hopen]
    simp only [List.singleton_append, if_neg hslash, if_pos hplain]
  | escaped e hread hblank =>
    rw [readLongBasic.eq_def, hopen]
    simp only [List.cons_append, if_pos]
    split
    · next next hnext =>
      rw [hblank] at hnext
      cases hnext
    · split
      · next d behind hd =>
        rw [hread] at hd
        cases hd
        rfl
      · next hnone =>
        rw [hread] at hnone
        cases hnone

/-- A character other than a quote does not begin with one when it is written. -/
theorem Written.takeWhile_append {long : Bool} {c : Char} {w : List Char} (h : Written long c w)
    (hc : c ≠ '\x22') (rest : List Char) : (w ++ rest).takeWhile (· == '\x22') = [] := by
  cases h with
  | plain hslash hquote hplain => simp [hc]
  | escaped e hread hblank => rfl

theorem length_takeWhile_escapeAll (quotes run : Nat) (cs : List Char) :
    ((escapeAll true quotes run cs).takeWhile (· == '\x22')).length ≤ quotes - run := by
  induction cs generalizing run with
  | nil => exact Nat.zero_le _
  | cons c cs ih =>
    rw [escapeAll]
    split
    · split
      · have := ih (run + 1)
        rw [List.takeWhile_cons_of_pos (by decide), List.length_cons]
        omega
      · exact Nat.zero_le _
    · next hc =>
      rw [(written_escape true hc).takeWhile_append hc]
      exact Nat.zero_le _

/-- What is written as quotes alone is a row of quotes. -/
theorem escapeAll_eq_self {quotes run : Nat} {cs : List Char}
    (h : (escapeAll true quotes run cs).all (· == '\x22') = true) :
    escapeAll true quotes run cs = cs := by
  induction cs generalizing run with
  | nil => rfl
  | cons c cs ih =>
    rw [escapeAll] at h ⊢
    split at h
    · next hc =>
      split at h
      · next hrun =>
        rw [if_pos hc, if_pos hrun, ih (Bool.and_eq_true_iff.1 h).2, hc]
      · exact absurd h (by simp)
    · next hc =>
      have htake := (written_escape true hc).takeWhile_append hc (escapeAll true quotes 0 cs)
      rw [List.takeWhile_eq_self_iff.2 (List.all_eq_true.1 h)] at htake
      obtain ⟨hnil, -⟩ := List.append_eq_nil_iff.1 htake
      have hwritten := written_escape true hc
      rw [hnil] at hwritten
      cases hwritten

theorem readLongBasic_escapeAll {rest : List Char} (hrest : rest.head? ≠ some '\x22') (run : Nat)
    (cs : List Char) :
    readLongBasic (escapeAll true 2 run cs ++ '\x22' :: '\x22' :: '\x22' :: rest) =
      some (cs, rest) := by
  have hrow (run : Nat) (cs : List Char) :
      ((escapeAll true 2 run cs).takeWhile (· == '\x22')).length ≤ 2 :=
    Nat.le_trans (length_takeWhile_escapeAll 2 run cs) (Nat.sub_le 2 run)
  have hquotes {run : Nat} {cs : List Char}
      (hall : (escapeAll true 2 run cs).all (· == '\x22') = true) :
      readLongBasic (escapeAll true 2 run cs ++ '\x22' :: '\x22' :: '\x22' :: rest) =
        some (cs, rest) := by
    have hclosing := closing?_append hrest (hrow run cs)
    rw [if_pos hall] at hclosing
    rw [readLongBasic.eq_def, hclosing, escapeAll_eq_self hall]
  induction cs generalizing run with
  | nil => exact hquotes rfl
  | cons c cs ih =>
    by_cases hall : (escapeAll true 2 run (c :: cs)).all (· == '\x22') = true
    · exact hquotes hall
    · have hopen := closing?_append hrest (hrow run (c :: cs))
      rw [if_neg hall] at hopen
      obtain ⟨w, run', hwritten, heq⟩ := exists_written (fun _ => rfl) run c cs
      rw [heq, List.append_assoc] at hopen ⊢
      rw [readLongBasic_written hwritten hopen, ih]
      rfl

/-! ### Without escapes -/

theorem longestRun_mono (c : Char) {run run' : Nat} (h : run ≤ run') (cs : List Char) :
    longestRun c run cs ≤ longestRun c run' cs := by
  induction cs generalizing run run' with
  | nil => exact h
  | cons d ds ih =>
    rw [longestRun, longestRun]
    split
    · exact ih (Nat.succ_le_succ h)
    · omega

theorem length_takeWhile_le_longestRun (c : Char) (run : Nat) (cs : List Char) :
    run + (cs.takeWhile (· == c)).length ≤ longestRun c run cs := by
  induction cs generalizing run with
  | nil => exact Nat.le_refl _
  | cons d ds ih =>
    rw [longestRun]
    split
    · next hd =>
      have := ih (run + 1)
      rw [List.takeWhile_cons_of_pos (p := (· == c)) (beq_iff_eq.2 hd), List.length_cons]
      omega
    · next hd =>
      rw [List.takeWhile_cons_of_neg (p := (· == c)) (mt beq_iff_eq.1 hd)]
      exact Nat.le_max_left _ _

theorem longestRun_tail_le (c d : Char) (ds : List Char) :
    longestRun c 0 ds ≤ longestRun c 0 (d :: ds) := by
  rw [longestRun]
  split
  · exact longestRun_mono c (Nat.zero_le _) ds
  · exact Nat.le_max_right _ _

theorem not_mem_of_longestRun_eq_zero {c : Char} {cs : List Char} (h : longestRun c 0 cs = 0) :
    c ∉ cs := by
  induction cs with
  | nil => exact List.not_mem_nil
  | cons d ds ih =>
    have hd : d ≠ c := by
      intro hd
      have := length_takeWhile_le_longestRun c 0 (d :: ds)
      rw [h, List.takeWhile_cons_of_pos (p := (· == c)) (beq_iff_eq.2 hd), List.length_cons] at this
      omega
    have htail : longestRun c 0 ds ≤ 0 := Nat.le_trans (longestRun_tail_le c d ds) (Nat.le_of_eq h)
    exact fun hmem => (List.mem_cons.1 hmem).elim (fun hc => hd hc.symm) (ih (Nat.le_zero.1 htail))

theorem readLongLiteral_append {cs rest : List Char} (hrest : rest.head? ≠ some '\x27')
    (hcs : ∀ c ∈ cs, c = '\n' ∨ isPlain c = true) (hrun : longestRun '\x27' 0 cs ≤ 2) :
    readLongLiteral (cs ++ '\x27' :: '\x27' :: '\x27' :: rest) = some (cs, rest) := by
  have hrow {cs : List Char} (hrun : longestRun '\x27' 0 cs ≤ 2) :
      (cs.takeWhile (· == '\x27')).length ≤ 2 := by
    have := length_takeWhile_le_longestRun '\x27' 0 cs
    omega
  induction cs with
  | nil =>
    have hclosing : closing? '\x27' ('\x27' :: '\x27' :: '\x27' :: rest) = some ([], rest) :=
      closing?_quotes (Nat.zero_le 2) hrest
    rw [List.nil_append, readLongLiteral.eq_def, hclosing]
  | cons c cs ih =>
    have hclosing := closing?_append hrest (hrow hrun)
    obtain ⟨hc, hcs⟩ := List.forall_mem_cons.1 hcs
    have htail := ih hcs (Nat.le_trans (longestRun_tail_le _ c cs) hrun)
    split at hclosing
    · rw [readLongLiteral.eq_def, hclosing]
    · rw [readLongLiteral.eq_def, hclosing]
      simp only [List.cons_append, if_pos hc, htail, Option.map_some]

/-! ## The choice of quotes -/

theorem plain_of_not_needsEscape {cs : List Char} (h : ¬ cs.any needsEscape = true) :
    ∀ c ∈ cs, c = '\n' ∨ isPlain c = true := by
  intro c hc
  have hescape : ¬ needsEscape c = true := fun hescape => h (List.any_eq_true.2 ⟨c, hc, hescape⟩)
  simp only [needsEscape, isPlain, Bool.or_eq_true, Bool.and_eq_true, decide_eq_true_eq,
    bne_iff_ne, beq_iff_eq, not_or, not_and, Decidable.not_not] at hescape ⊢
  by_cases ht : c = '\t'
  · exact .inr (.inl ht)
  · by_cases hlt : c.toNat < 32
    · exact .inl (hescape.1 ⟨hlt, ht⟩)
    · exact .inr (.inr ⟨Nat.not_lt.1 hlt, hescape.2⟩)

/-- What a way of quoting without escapes asks of a text. -/
def Suits (cs : List Char) : Quoting → Prop
  | .literal => ∀ c ∈ cs, c ≠ '\x27' ∧ isPlain c = true
  | .longLiteral => (∀ c ∈ cs, c = '\n' ∨ isPlain c = true) ∧ longestRun '\x27' 0 cs ≤ 2
  | .basic | .longBasic => True

theorem suits_chooseQuoting (cs : List Char) : Suits cs (chooseQuoting cs) := by
  simp only [chooseQuoting]
  split
  · trivial
  · split
    · next hliteral =>
      obtain ⟨⟨hcontrols, hsingles⟩, hnewline⟩ :
          (¬ cs.any needsEscape = true ∧ longestRun '\x27' 0 cs = 0) ∧ '\n' ∉ cs := by
        simpa using hliteral
      refine fun c hc => ⟨fun h => not_mem_of_longestRun_eq_zero hsingles (h ▸ hc), ?_⟩
      exact (plain_of_not_needsEscape hcontrols c hc).resolve_left fun h => hnewline (h ▸ hc)
    · split
      · trivial
      · split
        · next hliteral =>
          obtain ⟨hcontrols, hsingles⟩ :
              ¬ cs.any needsEscape = true ∧ longestRun '\x27' 0 cs ≤ 2 := by
            simpa using hliteral
          exact ⟨plain_of_not_needsEscape hcontrols, hsingles⟩
        · split
          all_goals trivial

/-- Without a line feed of its own a text begins with no line end. -/
theorem dropLineEnd_lead {cs body : List Char}
    (h : '\n' ∉ cs → ∀ c ∈ body.head?, c ≠ '\n' ∧ c ≠ '\r') :
    dropLineEnd ((if cs.contains '\n' then ['\n'] else []) ++ body) = body := by
  split
  · rfl
  · next hcontains =>
    cases body with
    | nil => rfl
    | cons c body =>
      obtain ⟨hn, hr⟩ := h (by simpa using hcontains) c rfl
      unfold dropLineEnd
      split
      · next heq => exact absurd (List.cons.inj heq).1 hn
      · next heq => exact absurd (List.cons.inj heq).1 hr
      · rfl

/-- What a text begins with when it is written between quotes. -/
theorem head?_escapeAll {long : Bool} {quotes : Nat} (hquotes : quotes ≠ 0 → long = true)
    (run : Nat) (cs more : List Char) :
    ∀ d ∈ (escapeAll long quotes run cs ++ more).head?,
      cs = [] ∧ d ∈ more.head? ∨
        d ≠ '\r' ∧ (d = '\n' → '\n' ∈ cs) ∧ (d = '\x22' → long = true) := by
  cases cs with
  | nil => exact fun d hd => .inl ⟨rfl, hd⟩
  | cons c cs =>
    obtain ⟨w, run', hwritten, heq⟩ := exists_written hquotes run c cs
    rw [heq, List.append_assoc]
    intro d hd
    refine .inr ?_
    cases hwritten with
    | plain hslash hquote hplain =>
      obtain rfl : c = d := Option.some.inj hd
      refine ⟨?_, fun h => h ▸ List.mem_cons_self, hquote⟩
      rintro rfl
      exact hplain.elim (absurd · (by decide)) fun h => absurd h.1 (by decide)
    | escaped e hread hblank =>
      obtain rfl : '\\' = d := Option.some.inj hd
      exact ⟨by decide, fun h => absurd h (by decide), fun h => absurd h (by decide)⟩

/-- Whatever a text holds, it is read back from its quotes. -/
theorem readString_quote (cs : List Char) {rest : List Char}
    (hrest : ∀ c ∈ rest.head?, c ≠ '\x22' ∧ c ≠ '\x27') :
    readString (quote cs ++ rest) = some (cs, rest) := by
  have hdouble : rest.head? ≠ some '\x22' := fun h => (hrest _ h).1 rfl
  have hsingle : rest.head? ≠ some '\x27' := fun h => (hrest _ h).2 rfl
  have hsuits := suits_chooseQuoting cs
  simp only [quote]
  split
  · simp only [List.cons_append, List.append_assoc, List.nil_append]
    rw [readString]
    · exact readBasic_escapeAll 0 cs rest
    · -- Only the two quotes around nothing could be taken for the beginning of a long string.
      intro behind h
      have hhead := head?_escapeAll (absurd rfl) 0 cs ('\x22' :: rest) '\x22' (by rw [h]; rfl)
      rcases hhead with ⟨rfl, -⟩ | ⟨-, -, hquote⟩
      · exact hdouble (by rw [List.cons.inj h |>.2]; rfl)
      · exact Bool.noConfusion (hquote rfl)
  · next hliteral =>
    rw [hliteral] at hsuits
    simp only [List.cons_append, List.append_assoc, List.nil_append]
    rw [readString]
    · exact readLiteral_append hsuits rest
    · intro behind h
      cases cs with
      | nil => exact hsingle (by rw [List.cons.inj h |>.2]; rfl)
      | cons c cs => exact (hsuits c List.mem_cons_self).1 (List.cons.inj h).1
  · simp only [List.cons_append, List.append_assoc, List.nil_append]
    rw [readString, dropLineEnd_lead]
    · exact readLongBasic_escapeAll hdouble 0 cs
    · intro hnewline d hd
      rcases head?_escapeAll (fun _ => rfl) 0 cs _ d hd with ⟨-, hd⟩ | ⟨hr, hn, -⟩
      · obtain rfl : '\x22' = d := Option.some.inj hd
        decide
      · exact ⟨fun h => hnewline (hn h), hr⟩
  · next hliteral =>
    rw [hliteral] at hsuits
    simp only [List.cons_append, List.append_assoc, List.nil_append]
    rw [readString, dropLineEnd_lead]
    · exact readLongLiteral_append hsingle hsuits.1 hsuits.2
    · intro hnewline d hd
      cases cs with
      | nil =>
        obtain rfl : '\x27' = d := Option.some.inj hd
        decide
      | cons c cs =>
        obtain rfl : c = d := Option.some.inj hd
        have hn : c ≠ '\n' := fun h => hnewline (h ▸ List.mem_cons_self)
        refine ⟨hn, ?_⟩
        rintro rfl
        exact absurd (hsuits.1 _ List.mem_cons_self) (by decide)

/-- A quoted text begins with a quote. -/
theorem exists_quote_eq_cons (cs : List Char) :
    ∃ q body, (q = '\x22' ∨ q = '\x27') ∧ quote cs = q :: body := by
  simp only [quote]
  split
  · exact ⟨_, _, .inl rfl, rfl⟩
  · exact ⟨_, _, .inr rfl, rfl⟩
  · exact ⟨_, _, .inl rfl, rfl⟩
  · exact ⟨_, _, .inr rfl, rfl⟩

end CrossRef.Toml
