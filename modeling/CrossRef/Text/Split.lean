/-
  CrossRef.Text.Split

  Cutting a text in two at a delimiter: at its first or at its last
  occurrence. The delimiter itself is dropped.
-/

namespace CrossRef.Text

/-- The text before and after the first `d`. -/
def splitFirst (d : Char) : List Char → Option (List Char × List Char)
  | [] => none
  | c :: cs =>
    if c = d then some ([], cs)
    else (splitFirst d cs).map fun (before, after) => (c :: before, after)

/-- The text before and after the last `d`. -/
def splitLast (d : Char) : List Char → Option (List Char × List Char)
  | [] => none
  | c :: cs =>
    match splitLast d cs with
    | some (before, after) => some (c :: before, after)
    | none => if c = d then some ([], cs) else none

/-- A text is cut at the first `d`: none stands before it. -/
theorem splitFirst_eq_some_iff {d : Char} {cs before after : List Char} :
    splitFirst d cs = some (before, after) ↔ cs = before ++ d :: after ∧ d ∉ before := by
  induction cs generalizing before with
  | nil => simp [splitFirst]
  | cons c cs ih =>
    by_cases h : c = d
    · cases before with
      | nil => simp [splitFirst, h, eq_comm]
      | cons b bs => simp [splitFirst, h]; rintro rfl; simp
    · cases before with
      | nil => simp [splitFirst, h]
      | cons b bs =>
        simp only [splitFirst, h, if_false, Option.map_eq_some_iff, Prod.mk.injEq,
          List.cons.injEq, Prod.exists, List.cons_append, List.mem_cons, not_or]
        constructor
        · rintro ⟨x, y, hxy, ⟨rfl, rfl⟩, rfl⟩
          exact ⟨⟨rfl, (ih.1 hxy).1⟩, fun e => h e.symm, (ih.1 hxy).2⟩
        · rintro ⟨⟨rfl, hcs⟩, -, hd⟩
          exact ⟨bs, after, ih.2 ⟨hcs, hd⟩, ⟨rfl, rfl⟩, rfl⟩

theorem splitLast_eq_none_iff {d : Char} {cs : List Char} : splitLast d cs = none ↔ d ∉ cs := by
  induction cs with
  | nil => simp [splitLast]
  | cons c cs ih =>
    rw [splitLast]
    split
    · next before after hs =>
      have : d ∈ cs := by
        apply Classical.byContradiction
        intro hd
        rw [ih.2 hd] at hs
        cases hs
      simp [this]
    · next hs =>
      have : d ∉ cs := ih.1 hs
      by_cases h : c = d
      · simp [h]
      · simp [h, this, Ne.symm h]

/-- A text is cut at the last `d`: none stands after it. -/
theorem splitLast_eq_some_iff {d : Char} {cs before after : List Char} :
    splitLast d cs = some (before, after) ↔ cs = before ++ d :: after ∧ d ∉ after := by
  induction cs generalizing before after with
  | nil => simp [splitLast]
  | cons c cs ih =>
    rw [splitLast]
    split
    · next x y hs =>
      obtain ⟨hcs, hy⟩ := ih.1 hs
      cases before with
      | nil =>
        simp only [Option.some.injEq, Prod.mk.injEq, reduceCtorEq, false_and, List.nil_append,
          List.cons.injEq, false_iff, not_and]
        rintro ⟨-, rfl⟩
        simp [hcs]
      | cons b bs =>
        simp only [Option.some.injEq, Prod.mk.injEq, List.cons.injEq, List.cons_append]
        constructor
        · rintro ⟨⟨rfl, rfl⟩, rfl⟩
          exact ⟨⟨rfl, hcs⟩, hy⟩
        · rintro ⟨⟨rfl, h⟩, hd⟩
          have := ih.2 ⟨h, hd⟩
          rw [hs] at this
          cases this
          exact ⟨⟨rfl, rfl⟩, rfl⟩
    · next hs =>
      have hd := splitLast_eq_none_iff.1 hs
      cases before with
      | nil =>
        by_cases h : c = d
        · simp only [h, if_true, Option.some.injEq, Prod.mk.injEq, true_and, List.nil_append,
            List.cons.injEq]
          constructor
          · rintro rfl; exact ⟨rfl, hd⟩
          · rintro ⟨rfl, -⟩; rfl
        · simp [h]
      | cons b bs =>
        have : ∀ l, some (([] : List Char), l) ≠ some (b :: bs, after) := by simp
        split
        · simp only [Option.some.injEq, Prod.mk.injEq, reduceCtorEq, false_and, false_iff,
            List.cons_append, List.cons.injEq, not_and]
          rintro ⟨-, rfl⟩
          simp at hd
        · simp only [reduceCtorEq, List.cons_append, List.cons.injEq, false_iff, not_and]
          rintro ⟨-, rfl⟩
          simp at hd

/-- What follows `lead`, if the text starts with it. -/
def stripLead : List Char → List Char → Option (List Char)
  | [], cs => some cs
  | _ :: _, [] => none
  | p :: ps, c :: cs => if p = c then stripLead ps cs else none

theorem stripLead_eq_some_iff {lead cs rest : List Char} :
    stripLead lead cs = some rest ↔ cs = lead ++ rest := by
  induction lead generalizing cs with
  | nil => simp [stripLead]
  | cons p ps ih =>
    cases cs with
    | nil => simp [stripLead]
    | cons c cs =>
      by_cases h : p = c
      · simp [stripLead, h, ih]
      · simp [stripLead, h, Ne.symm h]

end CrossRef.Text
