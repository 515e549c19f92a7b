/-
  CrossRef.Proofs.Keyed

  Lists ordered by the keys of their members. When no key occurs twice, the
  order is strict, and a list in strict order is determined by what it holds:
  sorting forgets in which order things came (`sort_eq_of_perm`), and a table
  of things with different keys is the sorted list of them (`table_eq_sort`).
-/
import CrossRef.Keyed
import Mathlib.Data.List.Nodup
import Mathlib.Data.String.Basic

namespace CrossRef.Keyed

variable {α : Type} {key : α → String} {as bs : List α}

/-! ## Strict order -/

/-- The keys ascend, and no key occurs twice. -/
def Ascending (key : α → String) (as : List α) : Prop := as.Pairwise fun a b => key a < key b

theorem Ascending.nodup_keys (h : Ascending key as) : (as.map key).Nodup :=
  List.pairwise_map.2 (h.imp fun hlt => ne_of_lt hlt)

/-- Two lists with the same members are equal if the keys of both ascend. -/
theorem Ascending.ext (ha : Ascending key as) (hb : Ascending key bs)
    (h : ∀ a, a ∈ as ↔ a ∈ bs) : as = bs := by
  have hperm : as.Perm bs :=
    (List.perm_ext_iff_of_nodup (ha.nodup_keys.of_map key) (hb.nodup_keys.of_map key)).2 h
  exact hperm.eq_of_pairwise (fun _ _ _ _ hab hba => absurd hba (String.lt_asymm hab)) ha hb

/-- A key leads to at most one member of a list without repeated keys. -/
theorem eq_of_key_eq (h : (as.map key).Nodup) {a b : α} (ha : a ∈ as) (hb : b ∈ as)
    (hab : key a = key b) : a = b :=
  List.inj_on_of_nodup_map h ha hb hab

theorem find?_key_eq_some (h : (as.map key).Nodup) {a : α} {k : String} :
    (as.find? fun b => key b == k) = some a ↔ a ∈ as ∧ key a = k := by
  constructor
  · intro ha
    exact ⟨List.mem_of_find?_eq_some ha, by simpa using List.find?_some ha⟩
  · rintro ⟨ha, rfl⟩
    cases hb : as.find? fun b => key b == key a with
    | none => exact absurd (List.find?_eq_none.1 hb a ha) (by simp)
    | some b =>
      have hkey : key b = key a := by simpa using List.find?_some hb
      rw [eq_of_key_eq h (List.mem_of_find?_eq_some hb) ha hkey]

/-- Looking a key up does not depend on the order of the list. -/
theorem find?_key_eq_of_perm (h : (as.map key).Nodup) (hperm : as.Perm bs) (k : String) :
    (as.find? fun b => key b == k) = bs.find? fun b => key b == k := by
  have h' : (bs.map key).Nodup := (hperm.map key).nodup_iff.1 h
  apply Option.ext
  intro a
  rw [find?_key_eq_some h, find?_key_eq_some h', hperm.mem_iff]

/-! ## Sorting -/

theorem sort_perm (key : α → String) (as : List α) : (sort key as).Perm as := sortBy_perm _ as

theorem mem_sort {a : α} : a ∈ sort key as ↔ a ∈ as := (sort_perm key as).mem_iff

theorem pairwise_sort (key : α → String) (as : List α) :
    (sort key as).Pairwise fun a b => key a ≤ key b := by
  have total : ∀ a b, (decide (key a ≤ key b) || decide (key b ≤ key a)) = true := by
    intro a b
    rw [Bool.or_eq_true, decide_eq_true_eq, decide_eq_true_eq]
    exact String.le_total _ _
  have trans : ∀ a b c, decide (key a ≤ key b) = true → decide (key b ≤ key c) = true →
      decide (key a ≤ key c) = true := by
    intro a b c hab hbc
    rw [decide_eq_true_eq] at *
    exact String.le_trans hab hbc
  exact (pairwise_sortBy total trans as).imp of_decide_eq_true

theorem ascending_sort (h : (as.map key).Nodup) : Ascending key (sort key as) := by
  have hkeys : (sort key as).Pairwise fun a b => key a ≠ key b :=
    List.pairwise_map.1 (((sort_perm key as).map key).nodup_iff.2 h)
  exact (pairwise_sort key as).imp₂ (fun _ _ hle hne => lt_of_le_of_ne hle hne) hkeys

/-- Sorting things with different keys forgets in which order they came. -/
theorem sort_eq_of_perm (h : (as.map key).Nodup) (hperm : as.Perm bs) :
    sort key as = sort key bs := by
  refine Ascending.ext (ascending_sort h) (ascending_sort ((hperm.map key).nodup_iff.1 h)) ?_
  intro a
  rw [mem_sort, mem_sort, hperm.mem_iff]

/-! ## Blocks -/

/-- Where everything is made from something and bears its key, what bears the
    key of one thing is what is made from that. -/
theorem filter_flatMap_of_key {β : Type} {g : α → List β} {keyOf : β → String}
    (h : (as.map key).Nodup) (hg : ∀ a ∈ as, ∀ b ∈ g a, keyOf b = key a) {a : α} (ha : a ∈ as) :
    (as.flatMap g).filter (fun b => keyOf b == key a) = g a := by
  induction as with
  | nil => cases ha
  | cons c cs ih =>
    obtain ⟨hc, hcs⟩ := List.nodup_cons.1 h
    obtain ⟨hgc, hgcs⟩ := List.forall_mem_cons.1 hg
    rw [List.flatMap_cons, List.filter_append]
    rcases List.mem_cons.1 ha with rfl | ha
    · have hself : (g a).filter (fun b => keyOf b == key a) = g a := by
        rw [List.filter_eq_self]
        exact fun b hb => beq_iff_eq.2 (hgc b hb)
      have hrest : (cs.flatMap g).filter (fun b => keyOf b == key a) = [] := by
        rw [List.filter_eq_nil_iff]
        intro b hb hkey
        obtain ⟨d, hd, hb⟩ := List.mem_flatMap.1 hb
        -- `b` bears the key of `d`, which is not that of `a`
        rw [hgcs d hd b hb, beq_iff_eq] at hkey
        exact hc (hkey ▸ List.mem_map_of_mem hd)
      rw [hself, hrest, List.append_nil]
    · have hnone : (g c).filter (fun b => keyOf b == key a) = [] := by
        rw [List.filter_eq_nil_iff]
        intro b hb hkey
        rw [hgc b hb, beq_iff_eq] at hkey
        exact hc (hkey ▸ List.mem_map_of_mem ha)
      rw [hnone, List.nil_append]
      exact ih hcs hgcs ha

/-! ## Tables -/

/-- A thing with a new key is added at its place. -/
theorem insert_of_new {a : α} (h : Ascending key as) (hnew : ∀ b ∈ as, key b ≠ key a) :
    Ascending key (insert key a as) ∧ (insert key a as).Perm (a :: as) := by
  induction as with
  | nil => exact ⟨List.pairwise_singleton .., .refl _⟩
  | cons b bs ih =>
    obtain ⟨hb, hbs⟩ := List.pairwise_cons.1 h
    have hba := hnew b (List.mem_cons_self ..)
    rw [insert]
    split
    · rename_i hlt
      refine ⟨List.pairwise_cons.2 ⟨fun c hc => ?_, h⟩, .refl _⟩
      rcases List.mem_cons.1 hc with rfl | hc
      · exact hlt
      · exact String.lt_trans hlt (hb c hc)
    · -- the key of `b` is neither larger nor the same, so `a` comes behind it
      rename_i hlt
      rw [if_neg (Ne.symm hba)]
      obtain ⟨hasc, hperm⟩ := ih hbs fun c hc => hnew c (List.mem_cons_of_mem _ hc)
      refine ⟨List.pairwise_cons.2 ⟨fun c hc => ?_, hasc⟩, (hperm.cons b).trans (.swap a b bs)⟩
      rcases List.mem_cons.1 (hperm.mem_iff.1 hc) with rfl | hc
      · exact lt_of_le_of_ne (String.not_lt.1 hlt) hba
      · exact hb c hc

theorem foldl_insert_of_new {t : List α} (ht : Ascending key t)
    (h : ((t ++ as).map key).Nodup) :
    Ascending key (as.foldl (fun t a => insert key a t) t) ∧
      (as.foldl (fun t a => insert key a t) t).Perm (t ++ as) := by
  induction as generalizing t with
  | nil => exact ⟨ht, by simp⟩
  | cons a as ih =>
    have hnew : ∀ b ∈ t, key b ≠ key a := by
      intro b hb
      rw [List.map_append, List.nodup_append] at h
      exact h.2.2 _ (List.mem_map_of_mem hb) _ (List.mem_map_of_mem (List.mem_cons_self ..))
    obtain ⟨hasc, hperm⟩ := insert_of_new ht hnew
    have hall : (insert key a t ++ as).Perm (t ++ a :: as) :=
      (hperm.append_right as).trans List.perm_middle.symm
    obtain ⟨hasc', hperm'⟩ := ih hasc ((hall.map key).nodup_iff.2 h)
    exact ⟨hasc', hperm'.trans hall⟩

/-- The table of things with different keys is the sorted list of them. -/
theorem table_eq_sort (h : (as.map key).Nodup) : table key as = sort key as := by
  have hnil : Ascending key ([] : List α) := List.Pairwise.nil
  obtain ⟨hasc, hperm⟩ := foldl_insert_of_new hnil h
  refine Ascending.ext hasc (ascending_sort h) fun a => ?_
  rw [mem_sort]
  exact hperm.mem_iff

/-! ## First things -/

/-- Every key stays with the first thing that has it. -/
theorem exists_mem_firsts (key : α → String) {a : α} (h : a ∈ as) :
    ∃ b ∈ firsts key as, key b = key a := by
  induction as with
  | nil => cases h
  | cons c cs ih =>
    rcases List.mem_cons.1 h with rfl | h
    · exact ⟨a, List.mem_cons_self .., rfl⟩
    · obtain ⟨b, hb, hkey⟩ := ih h
      by_cases hbc : key b = key c
      · exact ⟨c, List.mem_cons_self .., by rw [← hkey, hbc]⟩
      · exact ⟨b, List.mem_cons_of_mem _ (List.mem_filter.2 ⟨hb, bne_iff_ne.2 hbc⟩), hkey⟩

/-- A thing is among the firsts if looking its key up finds it. -/
theorem mem_firsts {b : α} :
    b ∈ firsts key as ↔ (as.find? fun a => key a == key b) = some b := by
  induction as with
  | nil => simp [firsts]
  | cons a as ih =>
    rw [firsts, List.mem_cons, List.mem_filter, ih, List.find?_cons]
    -- a thing with the head's key is the head, any other is found behind it
    by_cases hkey : key a = key b
    · rw [beq_iff_eq.2 hkey, Option.some.injEq, eq_comm, or_iff_left]
      rintro ⟨-, hne⟩
      exact bne_iff_ne.1 hne hkey.symm
    · rw [beq_eq_false_iff_ne.2 hkey, bne_iff_ne, or_iff_right]
      · exact and_iff_left (Ne.symm hkey)
      · exact fun hba => hkey (congrArg key hba.symm)

theorem nodup_keys_firsts (key : α → String) (as : List α) : ((firsts key as).map key).Nodup :=
  List.pairwise_map.2 (firsts_pairwise key as)

/-- Where no key is repeated, every thing is the first with its key. -/
theorem firsts_eq_self (h : (as.map key).Nodup) : firsts key as = as := by
  induction as with
  | nil => rfl
  | cons a as ih =>
    obtain ⟨ha, has⟩ := List.nodup_cons.1 h
    rw [firsts, ih has, List.filter_eq_self.2]
    intro b hb
    rw [bne_iff_ne]
    exact fun hkey => ha (hkey ▸ List.mem_map_of_mem hb)

/-- Leaving keys out does not change which things are the first with theirs. -/
theorem firsts_filter (p : String → Bool) (as : List α) :
    firsts key (as.filter fun a => p (key a)) = (firsts key as).filter fun a => p (key a) := by
  induction as with
  | nil => rfl
  | cons a as ih =>
    by_cases hp : p (key a) = true
    · have hhead : ∀ bs : List α, (a :: bs).filter (fun b => p (key b)) =
          a :: bs.filter fun b => p (key b) := fun bs => by rw [List.filter_cons, if_pos hp]
      rw [hhead, firsts, firsts, hhead, ih, List.filter_filter, List.filter_filter]
      simp only [Bool.and_comm]
    · have hhead : ∀ bs : List α, (a :: bs).filter (fun b => p (key b)) =
          bs.filter fun b => p (key b) := fun bs => by rw [List.filter_cons, if_neg hp]
      rw [hhead, firsts, hhead, ih, List.filter_filter]
      apply List.filter_congr
      intro b _
      -- a thing with the key of `a` is left out anyway
      by_cases hkey : key b = key a
      · rw [hkey, Bool.eq_false_iff.2 hp, Bool.false_and]
      · rw [bne_iff_ne.2 hkey, Bool.and_true]

/-- The keys of the first things are the keys of all things, each where it first occurs. -/
theorem map_firsts (key : α → String) (as : List α) :
    (firsts key as).map key = (as.map key).eraseDups := by
  match as with
  | [] => rfl
  | a :: as =>
    have hfilter : firsts key (as.filter fun b => key b != key a) =
        (firsts key as).filter fun b => key b != key a := firsts_filter (fun k => k != key a) as
    rw [firsts, ← hfilter, List.map_cons, map_firsts key (as.filter _), List.map_cons,
      List.eraseDups_cons, List.filter_map]
    rfl
termination_by as.length
decreasing_by exact Nat.lt_succ_of_le (List.length_filter_le _ as)

end CrossRef.Keyed
