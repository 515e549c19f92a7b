/-
  CrossRef.Keyed

  Lists of things that have a text as their key: without repeated keys, and
  in the order of the keys.
-/

namespace CrossRef.Keyed

variable {α : Type}

/-- The first thing with each key, in the order of the list. -/
def firsts (key : α → String) : List α → List α
  | [] => []
  | a :: as => a :: (firsts key as).filter fun b => key b != key a

/-- Puts a thing into a list ordered by keys, in place of one with the same key. -/
def insert (key : α → String) (a : α) : List α → List α
  | [] => [a]
  | b :: bs =>
    if key a < key b then a :: b :: bs
    else if key a = key b then a :: bs
    else b :: insert key a bs

/-- The last thing with each key, in the order of the keys. -/
def table (key : α → String) (as : List α) : List α :=
  as.foldl (fun t a => insert key a t) []

/-- Puts a thing in front of the first that it may precede. -/
def place (le : α → α → Bool) (a : α) : List α → List α
  | [] => [a]
  | b :: bs => if le a b then a :: b :: bs else b :: place le a bs

/-- Things in an order; those that may precede each other stay as they are. -/
def sortBy (le : α → α → Bool) (as : List α) : List α := as.foldr (place le) []

/-- All things in the order of their keys; those with one key stay in their order. -/
def sort (key : α → String) (as : List α) : List α := sortBy (fun a b => decide (key a ≤ key b)) as

/-! ## Keys that differ -/

theorem firsts_subset (key : α → String) (as : List α) : firsts key as ⊆ as := by
  induction as with
  | nil => simp [firsts]
  | cons a as ih =>
    intro b hb
    rcases List.mem_cons.1 hb with rfl | hb
    · exact List.mem_cons_self ..
    · exact List.mem_cons_of_mem _ (ih (List.mem_filter.1 hb).1)

/-- No key occurs twice among the firsts. -/
theorem firsts_pairwise (key : α → String) (as : List α) :
    (firsts key as).Pairwise fun a b => key a ≠ key b := by
  induction as with
  | nil => simp [firsts]
  | cons a as ih =>
    refine List.pairwise_cons.2 ⟨fun b hb => ?_, ih.filter _⟩
    have := (List.mem_filter.1 hb).2
    exact Ne.symm (bne_iff_ne.1 this)

/-! ## Sorting -/

theorem place_perm (le : α → α → Bool) (a : α) (as : List α) : (place le a as).Perm (a :: as) := by
  induction as with
  | nil => exact .refl _
  | cons b bs ih =>
    rw [place]
    split
    · exact .refl _
    · exact (ih.cons b).trans (.swap a b bs)

/-- Sorting neither adds nor loses anything. -/
theorem sortBy_perm (le : α → α → Bool) (as : List α) : (sortBy le as).Perm as := by
  induction as with
  | nil => exact .refl _
  | cons a as ih => exact (place_perm le a _).trans (ih.cons a)

theorem pairwise_place {le : α → α → Bool} (total : ∀ a b, le a b || le b a)
    (trans : ∀ a b c, le a b → le b c → le a c) (a : α) {as : List α}
    (h : as.Pairwise fun b c => le b c) : (place le a as).Pairwise fun b c => le b c := by
  induction as with
  | nil => simp [place]
  | cons b bs ih =>
    have hb := List.pairwise_cons.1 h
    rw [place]
    split
    · rename_i hab
      refine List.pairwise_cons.2 ⟨fun c hc => ?_, h⟩
      rcases List.mem_cons.1 hc with rfl | hc
      · exact hab
      · exact trans a b c hab (hb.1 c hc)
    · rename_i hab
      refine List.pairwise_cons.2 ⟨fun c hc => ?_, ih hb.2⟩
      rcases List.mem_cons.1 ((place_perm le a bs).mem_iff.1 hc) with rfl | hc
      · have := total c b
        simp_all
      · exact hb.1 c hc

/-- Every thing precedes those behind it. -/
theorem pairwise_sortBy {le : α → α → Bool} (total : ∀ a b, le a b || le b a)
    (trans : ∀ a b c, le a b → le b c → le a c) (as : List α) :
    (sortBy le as).Pairwise fun a b => le a b := by
  induction as with
  | nil => simp [sortBy]
  | cons a as ih => exact pairwise_place total trans a ih

end CrossRef.Keyed
