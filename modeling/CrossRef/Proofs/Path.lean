/-
  CrossRef.Proofs.Path

  Paths and the pieces between their slashes. A path is put together again
  from its pieces (`intercalate_pieces`), and any pieces without slashes are
  those of a path (`pieces_intercalate`), so paths and rows of pieces
  correspond to each other.
-/
import CrossRef.Path
import Mathlib.Data.List.Infix
import Mathlib.Tactic.Common

namespace CrossRef.Path

/-! ## Splitting -/

section Split

variable {α : Type} [DecidableEq α] {slash : α} {cs ds acc : List α}

theorem split_of_not_mem (h : slash ∉ cs) : split slash cs acc = [acc.reverse ++ cs] := by
  induction cs generalizing acc with
  | nil => rw [split, List.append_nil]
  | cons c cs ih =>
    obtain ⟨hc, hcs⟩ := List.ne_and_not_mem_of_not_mem_cons h
    rw [split, if_neg hc.symm, ih hcs, List.reverse_cons, List.append_assoc]
    rfl

theorem split_append_slash :
    split slash (cs ++ slash :: ds) acc = split slash cs acc ++ split slash ds [] := by
  induction cs generalizing acc with
  | nil =>
    rw [List.nil_append, split, split, if_pos rfl]
    rfl
  | cons c cs ih =>
    rw [List.cons_append, split, split]
    split
    · rw [ih]
      rfl
    · exact ih

theorem not_mem_of_mem_split (hacc : slash ∉ acc) {p : List α}
    (hp : p ∈ split slash cs acc) : slash ∉ p := by
  induction cs generalizing acc with
  | nil =>
    rw [split, List.mem_singleton] at hp
    rwa [hp, List.mem_reverse]
  | cons c cs ih =>
    rw [split] at hp
    split at hp
    · rcases List.mem_cons.1 hp with rfl | hp
      · rwa [List.mem_reverse]
      · exact ih List.not_mem_nil hp
    · next hc => exact ih (List.not_mem_cons_of_ne_of_not_mem (Ne.symm hc) hacc) hp

theorem split_ne_nil : split slash cs acc ≠ [] := by
  induction cs generalizing acc with
  | nil => exact List.cons_ne_nil _ _
  | cons c cs ih =>
    rw [split]
    split
    · exact List.cons_ne_nil _ _
    · exact ih

theorem intercalate_split : List.intercalate [slash] (split slash cs acc) = acc.reverse ++ cs := by
  induction cs generalizing acc with
  | nil => rw [split, List.intercalate_singleton, List.append_nil]
  | cons c cs ih =>
    rw [split]
    split
    · next hc =>
      have hne : split slash cs [] ≠ [] := split_ne_nil
      obtain ⟨p, rest, hrest⟩ := List.exists_cons_of_ne_nil hne
      have hbehind : List.intercalate [slash] (split slash cs []) = cs := ih
      rw [hrest] at hbehind ⊢
      rw [List.intercalate_cons_cons, hbehind, hc, List.append_assoc]
      rfl
    · rw [ih, List.reverse_cons, List.append_assoc]
      rfl

/-- Rows without slashes are found again between the slashes. -/
theorem split_intercalate {ps : List (List α)} (hps : ps ≠ []) (h : ∀ p ∈ ps, slash ∉ p) :
    split slash (List.intercalate [slash] ps) [] = ps := by
  induction ps with
  | nil => exact absurd rfl hps
  | cons p ps ih =>
    obtain ⟨hp, hrest⟩ := List.forall_mem_cons.1 h
    cases ps with
    | nil =>
      rw [List.intercalate_singleton, split_of_not_mem hp]
      rfl
    | cons q ps =>
      rw [List.intercalate_cons_cons, List.append_assoc, List.singleton_append,
        split_append_slash, split_of_not_mem hp, ih (List.cons_ne_nil q ps) hrest]
      rfl

end Split

/-! ## Pieces -/

variable {path : String} {ps : List String}

/-- Names that stand between slashes. -/
def Unslashed (ps : List String) : Prop := ∀ p ∈ ps, '/' ∉ p.toList

theorem unslashed_pieces (path : String) : Unslashed (pieces path) := by
  intro p hp
  obtain ⟨q, hq, rfl⟩ := List.mem_map.1 hp
  rw [String.toList_ofList]
  exact not_mem_of_mem_split List.not_mem_nil hq

theorem pieces_ne_nil (path : String) : pieces path ≠ [] := fun h =>
  split_ne_nil (List.map_eq_nil_iff.1 h)

/-- A path is its pieces with slashes between them. -/
theorem intercalate_pieces (path : String) : "/".intercalate (pieces path) = path := by
  apply String.toList_injective
  have hmap : (pieces path).map String.toList = split '/' path.toList [] := by
    rw [pieces, List.map_map]
    exact (List.map_congr_left fun _ _ => String.toList_ofList).trans (List.map_id _)
  rw [String.toList_intercalate, hmap]
  exact intercalate_split

/-- Pieces without slashes are found again in the path they make up. -/
theorem pieces_intercalate (hps : ps ≠ []) (h : Unslashed ps) :
    pieces ("/".intercalate ps) = ps := by
  have hsplit : split '/' ("/".intercalate ps).toList [] = ps.map String.toList := by
    rw [String.toList_intercalate]
    exact split_intercalate (mt List.map_eq_nil_iff.1 hps) (List.forall_mem_map.2 h)
  rw [pieces, hsplit, List.map_map]
  exact (List.map_congr_left fun _ _ => String.ofList_toList).trans (List.map_id ps)

/-- Different rows of pieces make up different paths. -/
theorem eq_of_intercalate_eq {qs : List String} (hps : ps ≠ []) (hqs : qs ≠ [])
    (hp : Unslashed ps) (hq : Unslashed qs) (h : "/".intercalate ps = "/".intercalate qs) :
    ps = qs := by
  rw [← pieces_intercalate hps hp, h, pieces_intercalate hqs hq]

end CrossRef.Path
