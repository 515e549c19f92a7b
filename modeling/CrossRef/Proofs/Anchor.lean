/-
  CrossRef.Proofs.Anchor

  Anchors as text. The text of an anchor is taken apart where it was put
  together: kinds and numbers are spelled without any of the delimiters, so a
  name without a hash sign leaves only one way to do it. Hence the anchor is
  read back (`parse_text`), and no other anchor has the text (`eq_of_text_eq`).
  What is read from any text is such an anchor again (`readable_of_parse`), so
  that reading it and writing it down settles on one spelling.
-/
import CrossRef.Anchor
import Mathlib.Tactic.Common

namespace CrossRef

open CrossRef.Text

/-! ## Numbers -/

namespace Text.Decimal

variable {n largest : Nat}

theorem isDigit_of_mem_repr {c : Char} (h : c ∈ (Nat.repr n).toList) : isDigit c = true := by
  rw [Nat.toList_repr] at h
  exact Nat.isDigit_of_mem_toDigits (by decide) (by decide) h

/-- Numbers are spelled without the characters that are no digits. -/
theorem not_mem_repr {c : Char} (hc : isDigit c = false) : c ∉ (Nat.repr n).toList := fun h =>
  Bool.eq_false_iff.1 hc (isDigit_of_mem_repr h)

theorem value_repr (n : Nat) : value (Nat.repr n).toList = n := by
  rw [Nat.toList_repr]
  exact Nat.ofDigitChars_eq_foldl.symm.trans Nat.ofDigitChars_ten_toDigits

theorem eq_of_repr_eq {m n : Nat} (h : (Nat.repr m).toList = (Nat.repr n).toList) : m = n := by
  rw [← value_repr m, h, value_repr]

theorem read?_repr (h : n ≤ largest) : read? largest (Nat.repr n).toList = some n := by
  have hne : (Nat.repr n).toList ≠ [] := by
    rw [Nat.toList_repr]
    exact Nat.toDigits_ne_nil
  have hall : (Nat.repr n).toList.all isDigit = true :=
    List.all_eq_true.2 fun _ hc => isDigit_of_mem_repr hc
  unfold read?
  split
  · -- a plus sign in front is no digit
    rename_i cs hcs
    have hplus : isDigit '+' = false := by decide
    exact absurd (hcs ▸ List.mem_cons_self) (not_mem_repr (n := n) hplus)
  · simp only [value_repr]
    rw [if_pos ⟨hne, hall, h⟩]

/-- No number above the largest one is read. -/
theorem le_of_read? {cs : List Char} (h : read? largest cs = some n) : n ≤ largest := by
  simp only [read?, Option.ite_none_right_eq_some, Option.some.injEq] at h
  obtain ⟨⟨-, -, hle⟩, rfl⟩ := h
  exact hle

end Text.Decimal

/-! ## Kinds -/

namespace DeclarationKind

theorem toLower_text (k : DeclarationKind) : k.text.toLower = k.text := by
  show k.text.map Char.toLower = k.text
  apply String.toList_injective
  rw [String.toList_map]
  cases k
  all_goals rfl

theorem parse_text (k : DeclarationKind) : parse k.text = .ok k := by
  rw [parse, toLower_text]
  cases k
  all_goals rfl

theorem text_injective {k l : DeclarationKind} (h : k.text = l.text) : k = l := by
  have hparsed := (parse_text k).symm.trans ((congrArg parse h).trans (parse_text l))
  exact Except.ok.inj hparsed

end DeclarationKind

/-! ## Anchors -/

namespace Anchor

variable {a b : Anchor}

/-- The characters behind the last at sign. -/
def position (a : Anchor) : List Char :=
  (Nat.repr a.line).toList ++ ':' :: (Nat.repr a.column).toList

/-- The characters between the hash sign and the at sign. -/
def kindAndName (a : Anchor) : List Char := a.kind.text.toList ++ ':' :: a.name.toList

/-- The characters behind the hash sign. -/
def fragment (a : Anchor) : List Char := a.kindAndName ++ '@' :: a.position

theorem toList_text (a : Anchor) :
    a.text.toList = scheme.toList ++ (a.file.toList ++ '#' :: a.fragment) := by
  simp [text, fragment, kindAndName, position, ToString.toString]

theorem splitFirst_position (a : Anchor) : splitFirst ':' a.position =
    some ((Nat.repr a.line).toList, (Nat.repr a.column).toList) :=
  splitFirst_eq_some_iff.2 ⟨rfl, Decimal.not_mem_repr (by decide)⟩

theorem splitFirst_kindAndName (a : Anchor) : splitFirst ':' a.kindAndName =
    some (a.kind.text.toList, a.name.toList) := by
  refine splitFirst_eq_some_iff.2 ⟨rfl, ?_⟩
  cases a.kind
  all_goals decide

theorem not_mem_position {c : Char} (hdigit : Decimal.isDigit c = false) (hcolon : c ≠ ':') :
    c ∉ a.position := by
  rw [position, List.mem_append, List.mem_cons, not_or, not_or]
  exact ⟨Decimal.not_mem_repr hdigit, hcolon, Decimal.not_mem_repr hdigit⟩

theorem splitLast_fragment (a : Anchor) : splitLast '@' a.fragment =
    some (a.kindAndName, a.position) :=
  splitLast_eq_some_iff.2 ⟨rfl, not_mem_position (by decide) (by decide)⟩

theorem not_mem_fragment (hname : '#' ∉ a.name.toList) : '#' ∉ a.fragment := by
  have hkind : '#' ∉ a.kind.text.toList := by
    cases a.kind
    all_goals decide
  rw [fragment, kindAndName, List.mem_append, List.mem_append, List.mem_cons, List.mem_cons,
    not_or, not_or, not_or, not_or]
  exact ⟨⟨hkind, by decide, hname⟩, by decide, not_mem_position (by decide) (by decide)⟩

theorem splitLast_text (hname : '#' ∉ a.name.toList) :
    splitLast '#' (a.file.toList ++ '#' :: a.fragment) = some (a.file.toList, a.fragment) :=
  splitLast_eq_some_iff.2 ⟨rfl, not_mem_fragment hname⟩

/-- An anchor of a file is read back from its text, if its name has no hash
    sign and its numbers are ones that can be read. -/
theorem parse_text (hfile : a.file ≠ "") (hname : '#' ∉ a.name.toList)
    (hline : a.line ≤ Decimal.largestWord) (hcolumn : a.column ≤ Decimal.largestWord) :
    parse a.text = .ok a := by
  have hscheme := stripLead_eq_some_iff.2 a.toList_text
  have hempty : a.file.toList.isEmpty = false := by
    rw [List.isEmpty_eq_false_iff]
    exact fun h => hfile (String.toList_eq_nil_iff.1 h)
  simp only [parse, require, bind, Except.bind, pure, Except.pure, hscheme, splitLast_text hname,
    hempty, splitLast_fragment,
    splitFirst_kindAndName, splitFirst_position, String.ofList_toList,
    DeclarationKind.parse_text, readNumber, Decimal.read?_repr hline, Decimal.read?_repr hcolumn]
  exact if_neg Bool.false_ne_true

/-- Different anchors have different texts, if their names have no hash sign. -/
theorem eq_of_text_eq (ha : '#' ∉ a.name.toList) (hb : '#' ∉ b.name.toList)
    (h : a.text = b.text) : a = b := by
  have htext := congrArg String.toList h
  rw [toList_text, toList_text] at htext
  -- both texts are cut at the same signs
  have hfile := congrArg (splitLast '#') (List.append_cancel_left htext)
  rw [splitLast_text ha, splitLast_text hb, Option.some.injEq, Prod.mk.injEq] at hfile
  have hfragment := congrArg (splitLast '@') hfile.2
  rw [splitLast_fragment, splitLast_fragment, Option.some.injEq, Prod.mk.injEq] at hfragment
  have hname := congrArg (splitFirst ':') hfragment.1
  rw [splitFirst_kindAndName, splitFirst_kindAndName, Option.some.injEq, Prod.mk.injEq] at hname
  have hposition := congrArg (splitFirst ':') hfragment.2
  rw [splitFirst_position, splitFirst_position, Option.some.injEq, Prod.mk.injEq] at hposition
  obtain ⟨file, kind, name, line, column⟩ := a
  obtain ⟨file', kind', name', line', column'⟩ := b
  rw [mk.injEq]
  exact ⟨String.toList_injective hfile.1,
    DeclarationKind.text_injective (String.toList_injective hname.1),
    String.toList_injective hname.2, Decimal.eq_of_repr_eq hposition.1,
    Decimal.eq_of_repr_eq hposition.2⟩

/-! ### What is read -/

/-- Anchors that some text is read as. -/
structure Readable (a : Anchor) : Prop where
  file : a.file ≠ ""
  name : '#' ∉ a.name.toList
  line : a.line ≤ Decimal.largestWord
  column : a.column ≤ Decimal.largestWord

theorem exists_of_bind_eq_ok {α β : Type} {x : Except Error α} {f : α → Except Error β} {b : β}
    (h : x >>= f = .ok b) : ∃ y, x = .ok y ∧ f y = .ok b := by
  cases x with
  | error e => cases h
  | ok y => exact ⟨y, rfl, h⟩

theorem eq_some_of_require {α : Type} {fault : AnchorFault} {o : Option α} {x : α}
    (h : require fault o = .ok x) : o = some x := by
  cases o with
  | none => cases h
  | some y => exact congrArg some (Except.ok.inj h)

theorem le_of_readNumber {fault : String → AnchorFault} {cs : List Char} {n : Nat}
    (h : readNumber fault cs = .ok n) : n ≤ Decimal.largestWord := by
  unfold readNumber at h
  split at h
  · next m hread =>
    obtain rfl := Except.ok.inj h
    exact Decimal.le_of_read? hread
  · cases h

/-- Whatever a text says the anchor is, it can be written down and read. -/
theorem readable_of_parse {s : String} (h : parse s = .ok a) : a.Readable := by
  obtain ⟨rest, -, h⟩ := exists_of_bind_eq_ok h
  obtain ⟨⟨file, fragment⟩, hhash, h⟩ := exists_of_bind_eq_ok h
  dsimp only at h
  split at h
  · cases h
  next hempty =>
  obtain ⟨-, -, h⟩ := exists_of_bind_eq_ok h
  obtain ⟨⟨kindAndName, position⟩, hat, h⟩ := exists_of_bind_eq_ok h
  obtain ⟨⟨kind, name⟩, hcolon, h⟩ := exists_of_bind_eq_ok h
  obtain ⟨⟨line, column⟩, -, h⟩ := exists_of_bind_eq_ok h
  obtain ⟨k, -, h⟩ := exists_of_bind_eq_ok h
  obtain ⟨l, hline, h⟩ := exists_of_bind_eq_ok h
  obtain ⟨c, hcolumn, h⟩ := exists_of_bind_eq_ok h
  obtain rfl := Except.ok.inj h
  refine ⟨fun hfile => ?_, fun hname => ?_, le_of_readNumber hline, le_of_readNumber hcolumn⟩
  · rw [String.ofList_eq_empty_iff] at hfile
    simp [hfile] at hempty
  · -- the name is a part of the fragment, which is cut off at the last hash sign
    rw [String.toList_ofList] at hname
    have hfragment := (splitLast_eq_some_iff.1 (eq_some_of_require hhash)).2
    have hkindAndName := (splitLast_eq_some_iff.1 (eq_some_of_require hat)).1
    have hkind := (splitFirst_eq_some_iff.1 (eq_some_of_require hcolon)).1
    dsimp only at hfragment hkindAndName hkind
    rw [hkindAndName, hkind] at hfragment
    simp [hname] at hfragment

/-- An anchor with lines and columns of 32 bits is read back from its text
    exactly if it names a file and its name has no hash sign; the file and the
    name may hold any other delimiter. Whatever spelling an anchor was read
    from, it is read back from its text. -/
theorem text_roundtrips :
    (∀ (file name : String) (kind : DeclarationKind) (line column : UInt32),
      parse (text ⟨file, kind, name, line.toNat, column.toNat⟩) =
          .ok ⟨file, kind, name, line.toNat, column.toNat⟩ ↔
        file ≠ "" ∧ '#' ∉ name.toList) ∧
    ∀ (s : String) (a : Anchor), parse s = .ok a → parse a.text = .ok a := by
  refine ⟨fun file name kind line column => ⟨fun h => ?_, fun ⟨hfile, hname⟩ => ?_⟩,
    fun s a h => ?_⟩
  · have hread := readable_of_parse h
    exact ⟨hread.file, hread.name⟩
  · have hline := Nat.le_of_lt_succ line.toNat_lt
    have hcolumn := Nat.le_of_lt_succ column.toNat_lt
    exact parse_text hfile hname hline hcolumn
  · have hread := readable_of_parse h
    exact parse_text hread.file hread.name hread.line hread.column

/-- A spelling with another word for the kind, a sign and zeros in front, and
    with delimiters inside the file and the name. -/
theorem text_roundtrips_otherSpelling :
    let a : Anchor := ⟨"lib#1/a@b:c.py", .function, "f@:g", 7, 0⟩
    parse "xref://lib#1/a@b:c.py#DEF:f@:g@+007:00" = .ok a ∧ parse a.text = .ok a := by
  have hread : parse "xref://lib#1/a@b:c.py#DEF:f@:g@+007:00" =
      .ok ⟨"lib#1/a@b:c.py", .function, "f@:g", 7, 0⟩ := by decide +kernel
  exact ⟨hread, text_roundtrips.2 _ _ hread⟩

end Anchor

end CrossRef
