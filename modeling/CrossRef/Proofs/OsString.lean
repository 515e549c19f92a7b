/-
  CrossRef.Proofs.OsString

  Names that are texts are shown as they are (`lossy_ofText`), so different
  texts are shown differently. The bytes of a character are read one by one:
  the first begins it, and each that follows brings its number nearer.
-/
import CrossRef.OsString
import Mathlib.Tactic.Common

namespace CrossRef.OsString

variable {p : Begun} {b : UInt8} {bs : List UInt8}

/-! ## First bytes -/

theorem start_one {n : Nat} (h : n < 128) : start n = ([Char.ofNat n], none) := if_pos h

theorem start_two {n : Nat} (hlow : 2 ≤ n) (hhigh : n < 32) :
    start (n + 192) = ([], some ⟨n, 1, 0x80, 0xBF⟩) := by
  have hmod : (n + 192) % 32 = n := by omega
  rw [start, if_neg (by omega), if_neg (by omega), if_pos (by omega), hmod]

theorem start_three {n : Nat} (h : n < 16) :
    start (n + 224) =
      ([], some ⟨n, 2, if n = 0 then 0xA0 else 0x80, if n = 13 then 0x9F else 0xBF⟩) := by
  have hmod : (n + 224) % 16 = n := by omega
  have hfirst : n + 224 = 0xE0 ↔ n = 0 := by omega
  have hlast : n + 224 = 0xED ↔ n = 13 := by omega
  rw [start, if_neg (by omega), if_neg (by omega), if_neg (by omega), if_pos (by omega), hmod]
  simp only [hfirst, hlast]

theorem start_four {n : Nat} (h : n < 5) :
    start (n + 240) =
      ([], some ⟨n, 3, if n = 0 then 0x90 else 0x80, if n = 4 then 0x8F else 0xBF⟩) := by
  have hmod : (n + 240) % 8 = n := by omega
  have hfirst : n + 240 = 0xF0 ↔ n = 0 := by omega
  have hlast : n + 240 = 0xF4 ↔ n = 4 := by omega
  rw [start, if_neg (by omega), if_neg (by omega), if_neg (by omega), if_neg (by omega),
    if_pos (by omega), hmod]
  simp only [hfirst, hlast]

/-! ## The bytes of a character -/

theorem chars_begin (h : start b.toNat = ([], some p)) :
    chars none (b :: bs) = chars (some p) bs := by
  rw [chars, step, h]
  rfl

/-- The bytes behind the first carry six bits each. -/
theorem toNat_tail (n : Nat) : (UInt8.ofNat (n % 64 + 128)).toNat = n % 64 + 128 := by
  rw [UInt8.toNat_ofNat']
  omega

/-- A byte that is not the last leaves the character begun. -/
theorem chars_more {missing low high n : Nat} (hmissing : 2 ≤ missing)
    (hb : low ≤ n % 64 + 128 ∧ n % 64 + 128 ≤ high) :
    chars (some ⟨n / 64, missing, low, high⟩) (UInt8.ofNat (n % 64 + 128) :: bs) =
      chars (some ⟨n, missing - 1, 0x80, 0xBF⟩) bs := by
  have hnumber : n / 64 * 64 + (n % 64 + 128) % 64 = n := by omega
  rw [chars, toNat_tail, step, if_neg (by simp only; omega), if_neg (by simp only; omega), hnumber]
  rfl

/-- The last byte of a character completes it. -/
theorem chars_last {low high n : Nat} (hb : low ≤ n % 64 + 128 ∧ n % 64 + 128 ≤ high) :
    chars (some ⟨n / 64, 1, low, high⟩) (UInt8.ofNat (n % 64 + 128) :: bs) =
      Char.ofNat n :: chars none bs := by
  have hnumber : n / 64 * 64 + (n % 64 + 128) % 64 = n := by omega
  rw [chars, toNat_tail, step, if_neg (by simp only; omega), if_pos (Nat.le_refl 1), hnumber]
  rfl

/-- The bytes that encode a character are read as that character. -/
theorem chars_utf8EncodeChar (c : Char) (bs : List UInt8) :
    chars none (String.utf8EncodeChar c ++ bs) = c :: chars none bs := by
  have hvalid : c.val.toNat < 0xD800 ∨ 0xDFFF < c.val.toNat ∧ c.val.toNat < 0x110000 := c.valid
  have hc : Char.ofNat c.val.toNat = c := Char.ofNat_toNat c
  rw [String.utf8EncodeChar]
  generalize c.val.toNat = v at hvalid hc
  subst hc
  have hthird : v / 4096 = v / 64 / 64 := by omega
  have hfourth : v / 262144 = v / 64 / 64 / 64 := by omega
  have hlast : 0x80 ≤ v % 64 + 128 ∧ v % 64 + 128 ≤ 0xBF := by omega
  have hmiddle : 0x80 ≤ v / 64 % 64 + 128 ∧ v / 64 % 64 + 128 ≤ 0xBF := by omega
  rw [hthird, hfourth]
  -- one byte, two, three or four
  split
  · next hv =>
    have hfirst : (UInt8.ofNat v).toNat = v := by
      rw [UInt8.toNat_ofNat']
      omega
    rw [List.singleton_append, chars, step, hfirst, start_one (by omega)]
    rfl
  split
  · next hv =>
    have hfirst : (UInt8.ofNat (v / 64 % 32 + 192)).toNat = v / 64 + 192 := by
      rw [UInt8.toNat_ofNat']
      omega
    have hstart := hfirst ▸ start_two (n := v / 64) (by omega) (by omega)
    simp only [List.cons_append, List.nil_append]
    rw [chars_begin hstart, chars_last hlast]
  split
  · next hv =>
    have hfirst : (UInt8.ofNat (v / 64 / 64 % 16 + 224)).toNat = v / 64 / 64 + 224 := by
      rw [UInt8.toNat_ofNat']
      omega
    have hstart := hfirst ▸ start_three (n := v / 64 / 64) (by omega)
    simp only [List.cons_append, List.nil_append]
    rw [chars_begin hstart, chars_more (Nat.le_refl 2), chars_last hlast]
    constructor
    all_goals
      split
      all_goals omega
  · next hv =>
    have hfirst : (UInt8.ofNat (v / 64 / 64 / 64 % 8 + 240)).toNat = v / 64 / 64 / 64 + 240 := by
      rw [UInt8.toNat_ofNat']
      omega
    have hstart := hfirst ▸ start_four (n := v / 64 / 64 / 64) (by omega)
    simp only [List.cons_append, List.nil_append]
    rw [chars_begin hstart, chars_more (Nat.le_succ 2), chars_more (Nat.le_refl 2) hmiddle,
      chars_last hlast]
    constructor
    all_goals
      split
      all_goals omega

/-! ## Texts -/

/-- A name that is a text is shown as it is. -/
theorem lossy_ofText (text : String) : (ofText text).lossy = text := by
  have hchars : ∀ cs : List Char, chars none (cs.flatMap String.utf8EncodeChar) = cs := by
    intro cs
    induction cs with
    | nil => rfl
    | cons c cs ih => rw [List.flatMap_cons, chars_utf8EncodeChar, ih]
  rw [lossy, ofText, hchars, String.ofList_toList]

/-- The bytes encode a text. -/
def IsText (s : OsString) : Prop := ∃ text, s = ofText text

theorem isText_ofText (text : String) : (ofText text).IsText := ⟨text, rfl⟩

variable {s : OsString}

theorem IsText.ofText_lossy (h : s.IsText) : ofText s.lossy = s := by
  obtain ⟨text, rfl⟩ := h
  rw [lossy_ofText]

theorem IsText.lossy_ne_empty (h : s.IsText) (hs : s ≠ empty) : s.lossy ≠ "" := by
  intro hempty
  rw [← h.ofText_lossy, hempty] at hs
  exact hs rfl

theorem IsText.slash_not_mem (h : s.IsText) (hs : slash ∉ s.bytes) : '/' ∉ s.lossy.toList := by
  intro hmem
  rw [← h.ofText_lossy] at hs
  exact hs (List.mem_flatMap.2 ⟨'/', hmem, List.mem_singleton_self slash⟩)

/-- Texts are told apart by what is shown of them. -/
theorem eq_of_map_lossy {ps qs : List OsString} (hps : ∀ p ∈ ps, p.IsText)
    (hqs : ∀ q ∈ qs, q.IsText) (h : ps.map lossy = qs.map lossy) : ps = qs := by
  have hback : ∀ {rs : List OsString}, (∀ r ∈ rs, r.IsText) → (rs.map lossy).map ofText = rs := by
    intro rs hrs
    rw [List.map_map]
    exact (List.map_congr_left fun r hr => (hrs r hr).ofText_lossy).trans (List.map_id rs)
  rw [← hback hps, h, hback hqs]

end CrossRef.OsString
