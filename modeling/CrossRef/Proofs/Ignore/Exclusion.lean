/-
  CrossRef.Proofs.Ignore.Exclusion

  The rules of this library do what is documented of rules for a root
  (`filters_standard`). They are applied to the names that lead from the root to
  a file, to those of the directories above it, the nearest first, and at last to
  no names at all.
-/
import CrossRef.Ignore.Walk
import CrossRef.Proofs.Ignore.Documented
import CrossRef.Proofs.OsPath

namespace CrossRef

open OsString

namespace Ignore

variable {root path name : OsString} {names below : List OsString} {rules : List Rule}
  {isDirectory : Bool}

/-! ## Paths below a root -/

theorem withoutFront?_append (front bytes : List UInt8) :
    withoutFront? front (front ++ bytes) = some bytes := by
  rw [withoutFront?, if_pos (by simp), List.drop_left]

theorem withoutFront?_eq_none {front bytes : List UInt8} (h : ¬ front <+: bytes) :
    withoutFront? front bytes = none := by
  rw [withoutFront?, if_neg (by simpa using h)]

theorem bytes_withoutHere (path : OsString) :
    (withoutHere path).bytes = (withoutFront? [dot, slash] path.bytes).getD path.bytes := rfl

/-- A dot and a slash in front of a longer path are in front of the path itself,
    unless that is a single dot. -/
theorem here_prefix_of_append {front behind : List UInt8} (hempty : front ≠ [])
    (hdot : front ≠ [dot]) (h : [dot, slash] <+: front ++ behind) : [dot, slash] <+: front := by
  cases front with
  | nil => exact absurd rfl hempty
  | cons b bs =>
    cases bs with
    | nil =>
      rw [List.singleton_append, List.cons_prefix_cons] at h
      obtain ⟨rfl, -⟩ := h
      exact absurd rfl hdot
    | cons c bs =>
      simp only [List.cons_append, List.cons_prefix_cons] at h ⊢
      exact ⟨h.1, h.2.1, List.nil_prefix⟩

theorem withoutHere_below_here {rest : List UInt8} (hpath : path.bytes = [dot, slash] ++ rest) :
    (withoutHere path).bytes = rest := by
  rw [bytes_withoutHere, hpath, withoutFront?_append]
  rfl

/-- Without the dot and the slash in front, a path below a root begins with the
    root without them. -/
theorem withoutHere_below {rest : List UInt8} (hroot : root ≠ .empty) (hdot : root ≠ .here)
    (hpath : path.bytes = root.bytes ++ OsPath.gap root ++ rest) :
    (withoutHere path).bytes = (withoutHere root).bytes ++ OsPath.gap root ++ rest := by
  rw [bytes_withoutHere, bytes_withoutHere, hpath]
  by_cases hfront : [dot, slash] <+: root.bytes
  · -- it stands in front of both
    obtain ⟨behind, hbehind⟩ := hfront
    rw [← hbehind, List.append_assoc, List.append_assoc, withoutFront?_append,
      withoutFront?_append, List.append_assoc]
    rfl
  · have hempty : root.bytes ≠ [] := fun h => hroot (congrArg OsString.mk h)
    have hhere : root.bytes ≠ [dot] := fun h => hdot (congrArg OsString.mk h)
    have hnone : ¬ [dot, slash] <+: root.bytes ++ OsPath.gap root ++ rest := by
      rw [List.append_assoc]
      exact fun h => hfront (here_prefix_of_append hempty hhere h)
    rw [withoutFront?_eq_none hfront, withoutFront?_eq_none hnone]
    rfl

/-- Where nothing parts a root from what is below it, it ends with a slash, which
    is still there without the dot and the slash in front unless all is gone. -/
theorem slash_mem_withoutHere (hroot : root ≠ .empty) (hgap : OsPath.gap root = []) :
    (withoutHere root).bytes = [] ∨ slash ∈ (withoutHere root).bytes := by
  have hlast : root.bytes.getLast? = some slash := by
    rw [OsPath.gap] at hgap
    split at hgap
    · next h =>
      exact h.resolve_left fun hnil => hroot (congrArg OsString.mk (List.isEmpty_iff.1 hnil))
    · cases hgap
  rw [bytes_withoutHere]
  by_cases hfront : [dot, slash] <+: root.bytes
  · obtain ⟨behind, hbehind⟩ := hfront
    rw [← hbehind, withoutFront?_append, Option.getD_some]
    rw [← hbehind] at hlast
    cases behind with
    | nil => exact .inl rfl
    | cons b bs =>
      rw [List.getLast?_append_of_ne_nil _ (List.cons_ne_nil b bs)] at hlast
      exact .inr (List.mem_of_getLast? hlast)
  · rw [withoutFront?_eq_none hfront, Option.getD_none]
    exact .inr (List.mem_of_getLast? hlast)

/-- Where no slash is left, the root is gone. -/
theorem withoutHere_below_unslashed {rest : List UInt8} (hroot : root ≠ .empty)
    (hdot : root ≠ .here) (hpath : path.bytes = root.bytes ++ OsPath.gap root ++ rest)
    (hslash : slash ∉ (withoutHere path).bytes) : (withoutHere path).bytes = rest := by
  have hbelow := withoutHere_below hroot hdot hpath
  rw [hbelow, List.append_assoc, List.mem_append, List.mem_append, not_or, not_or] at hslash
  obtain ⟨hfront, hparted, -⟩ := hslash
  have hgap : OsPath.gap root = [] :=
    (OsPath.gap_eq root).resolve_right fun h => hparted (h ▸ List.mem_singleton_self _)
  have hgone : (withoutHere root).bytes = [] :=
    (slash_mem_withoutHere hroot hgap).resolve_right hfront
  rw [hbelow, hgone, hgap]
  rfl

/-- The slash that parts names from a root is taken off. -/
theorem withoutFront?_gap {rest : List UInt8} (hhead : rest.head? ≠ some slash) :
    (withoutFront? [slash] (OsPath.gap root ++ rest)).getD (OsPath.gap root ++ rest) = rest := by
  rcases OsPath.gap_eq root with hgap | hgap
  · have hnone : withoutFront? [slash] rest = none :=
      withoutFront?_eq_none fun h => hhead (List.singleton_prefix_iff_head?_eq_some.1 h)
    rw [hgap, List.nil_append, hnone]
    rfl
  · rw [hgap, withoutFront?_append]
    rfl

/-- The root is not the current directory with more than one dot in its spelling:
    if it is, rules are applied to paths that begin with the other dots. -/
def PlainRoot (root : OsString) : Prop :=
  OsPath.components (withoutHere root) = [.here] → root = .here

instance (root : OsString) : Decidable (PlainRoot root) :=
  inferInstanceAs (Decidable (_ → _))

/-- Rules are applied to the names below the root. -/
theorem relative_below {x : Exclusion} (hx : x.root = withoutHere root) (hplain : PlainRoot root)
    (hroot : root ≠ .empty) (hnames : names ≠ []) (hnamed : ∀ n ∈ names, OsPath.IsPlain n) :
    x.relative (names.foldl OsPath.join root) = OsPath.ofPieces names := by
  have hpath : (names.foldl OsPath.join root).bytes =
      root.bytes ++ OsPath.gap root ++ (OsPath.ofPieces names).bytes :=
    OsPath.bytes_foldl_join hnames hnamed
  have hhead : (OsPath.ofPieces names).bytes.head? ≠ some slash := by
    have hrelative := OsPath.not_isAbsolute_ofPieces hnames hnamed
    rwa [OsPath.isAbsolute, beq_eq_false_iff_ne] at hrelative
  generalize names.foldl OsPath.join root = path at hpath ⊢
  generalize OsPath.ofPieces names = below at hpath hhead ⊢
  simp only [Exclusion.relative, hx]
  by_cases hdot : root = .here
  · -- everything below a single dot is taken as it is
    subst hdot
    have hhere : OsPath.components (withoutHere .here) = [.here] := by decide +kernel
    have hgap : OsPath.gap .here = [slash] := by decide +kernel
    rw [hgap] at hpath
    rw [if_pos (.inl hhere)]
    exact congrArg OsString.mk (withoutHere_below_here hpath)
  · have hhere : OsPath.components (withoutHere root) ≠ [.here] := fun h => hdot (hplain h)
    by_cases hslash : slash ∈ (withoutHere path).bytes
    · rw [if_neg (by simp [hhere, hslash]), withoutHere_below hroot hdot hpath, List.append_assoc,
        withoutFront?_append]
      exact congrArg OsString.mk (withoutFront?_gap hhead)
    · rw [if_pos (.inr (by simpa using hslash))]
      exact congrArg OsString.mk (withoutHere_below_unslashed hroot hdot hpath hslash)

/-! ## Verdicts -/

theorem rulesOf_append (lines more : List (List Char)) :
    rulesOf (lines ++ more) = rulesOf lines ++ rulesOf more :=
  List.filterMap_append

/-- Rules that are added behind others come first. -/
theorem verdict?_append (rules more : List Rule) (path : OsString) (isDirectory : Bool) :
    verdict? (rules ++ more) path isDirectory =
      (verdict? more path isDirectory).or (verdict? rules path isDirectory) := by
  rw [verdict?, List.reverse_append, List.find?_append, Option.map_or]
  rfl

/-- What a line says here: what its rule does, if it holds one that applies. -/
def lineVerdict? : LineMeaning := fun line names isDirectory =>
  verdict? (rulesOf [line]) (OsPath.ofPieces names) isDirectory

/-- Several lines say what their rules do. -/
theorem verdictOfLines_lineVerdict? (lines : List (List Char)) :
    verdictOfLines lineVerdict? lines names isDirectory =
      verdict? (rulesOf lines) (OsPath.ofPieces names) isDirectory := by
  induction lines with
  | nil => rfl
  | cons line lines ih =>
    have hline : verdictOfLines lineVerdict? [line] names isDirectory =
        verdict? (rulesOf [line]) (OsPath.ofPieces names) isDirectory := by
      rw [verdictOfLines, List.reverse_singleton, List.findSome?_singleton, lineVerdict?]
    rw [← List.singleton_append, verdictOfLines_append, rulesOf_append, verdict?_append, ih, hline]

/-! ## Upwards -/

theorem findSome?_congr {α β : Type} {f g : α → Option β} {as : List α}
    (h : ∀ a ∈ as, f a = g a) : as.findSome? f = as.findSome? g := by
  induction as with
  | nil => rfl
  | cons a as ih =>
    obtain ⟨ha, has⟩ := List.forall_mem_cons.1 h
    rw [List.findSome?_cons, List.findSome?_cons, ha, ih has]

namespace Exclusion

theorem verdictUpward?_concat (hnamed : ∀ n ∈ names ++ [name], OsPath.IsPlain n) (fuel : Nat) :
    verdictUpward? rules (fuel + 1) (OsPath.ofPieces (names ++ [name])) isDirectory =
      (verdict? rules (OsPath.ofPieces (names ++ [name])) isDirectory).or
        (verdictUpward? rules fuel (OsPath.ofPieces names) true) := by
  rw [verdictUpward?, OsPath.parent?_concat hnamed]
  cases verdict? rules (OsPath.ofPieces (names ++ [name])) isDirectory
  all_goals rfl

/-- What is said of a directory is looked for up to the root. -/
theorem verdictUpward?_directory (hnamed : ∀ n ∈ names, OsPath.IsPlain n) {fuel : Nat}
    (hfuel : names.length < fuel) :
    verdictUpward? rules fuel (OsPath.ofPieces names) true =
      ((trail names).reverse.findSome? fun q => verdict? rules (OsPath.ofPieces q) true).or
        (verdict? rules .empty true) := by
  obtain ⟨fuel, rfl⟩ := Nat.exists_eq_add_one_of_ne_zero (Nat.ne_zero_of_lt hfuel)
  induction names using List.reverseRecOn generalizing fuel with
  | nil =>
    have hnothing : OsPath.ofPieces [] = .empty := rfl
    rw [hnothing, verdictUpward?, OsPath.parent?_empty]
    cases verdict? rules .empty true
    all_goals rfl
  | append_singleton names name ih =>
    rw [List.length_append, List.length_singleton] at hfuel
    obtain ⟨fuel, rfl⟩ := Nat.exists_eq_add_one_of_ne_zero (by omega : fuel ≠ 0)
    have habove := ih (fun n hn => hnamed n (List.mem_append_left _ hn)) fuel (by omega)
    rw [verdictUpward?_concat hnamed, habove, trail_concat, List.reverse_concat,
      List.findSome?_cons]
    cases verdict? rules (OsPath.ofPieces (names ++ [name])) true
    all_goals rfl

/-- Rules that are looked for upwards from a file say what their lines do. -/
theorem verdictUpward?_file {lines : List (List Char)} (hnamed : ∀ n ∈ below, OsPath.IsPlain n)
    (hbelow : below ≠ []) {fuel : Nat} (hfuel : below.length < fuel) :
    verdictUpward? (rulesOf lines) fuel (OsPath.ofPieces below) false =
      verdictBelow? lineVerdict? lines below := by
  obtain ⟨fuel, rfl⟩ := Nat.exists_eq_add_one_of_ne_zero (Nat.ne_zero_of_lt hfuel)
  -- the file itself is asked about first, then its directory as above
  obtain ⟨names, name, rfl⟩ := (List.eq_nil_or_concat below).resolve_left hbelow
  rw [List.concat_eq_append] at *
  rw [List.length_append, List.length_singleton] at hfuel
  have hdirectories : ∀ q ∈ (trail names).reverse,
      verdictOfLines lineVerdict? lines q (q != names ++ [name]) =
        verdict? (rulesOf lines) (OsPath.ofPieces q) true := by
    intro q hq
    have hlength := (mem_trail.1 (List.mem_reverse.1 hq)).2.length_le
    have hne : q ≠ names ++ [name] := by
      rintro rfl
      rw [List.length_append, List.length_singleton] at hlength
      omega
    rw [bne_iff_ne.2 hne, verdictOfLines_lineVerdict?]
  have habove : ∀ n ∈ names, OsPath.IsPlain n := fun n hn => hnamed n (List.mem_append_left _ hn)
  have hroot : OsPath.ofPieces [] = .empty := rfl
  rw [verdictUpward?_concat hnamed, verdictUpward?_directory habove (by omega), verdictBelow?,
    trail_concat, List.reverse_concat, List.findSome?_cons, findSome?_congr hdirectories,
    bne_self_eq_false, verdictOfLines_lineVerdict?, verdictOfLines_lineVerdict?, hroot]
  cases verdict? (rulesOf lines) (OsPath.ofPieces (names ++ [name])) false
  all_goals rfl

/-! ## Rules from files and lines -/

theorem withLines_nil (x : Exclusion) : x.withLines [] = x :=
  congrArg (Exclusion.mk x.root) (List.append_nil x.rules)

theorem withLines_withLines (x : Exclusion) (lines more : List (List Char)) :
    (x.withLines lines).withLines more = x.withLines (lines ++ more) := by
  rw [withLines, withLines, withLines, rulesOf_append, List.append_assoc]

theorem foldl_withFile (t : FileTree) (files : List OsString) (x : Exclusion) :
    files.foldl (fun y file => y.withFile t file) x =
      x.withLines (files.flatMap fun file => withoutMarks (t.linesAt file)) := by
  induction files generalizing x with
  | nil => exact x.withLines_nil.symm
  | cons file files ih => rw [List.foldl_cons, ih, withFile, withLines_withLines, List.flatMap_cons]

theorem foldl_withLine (lines : List String) (x : Exclusion) :
    lines.foldl (fun y line => y.withLines [line.toList]) x =
      x.withLines (lines.map String.toList) := by
  induction lines generalizing x with
  | nil => exact x.withLines_nil.symm
  | cons line lines ih =>
    rw [List.foldl_cons, ih, withLines_withLines, List.map_cons, List.singleton_append]

/-- What rules for a root say of a file below it. -/
theorem matchedOrAbove_below {lines : List (List Char)} (hplain : PlainRoot root)
    (hroot : root ≠ .empty) (hbelow : below ≠ []) (hnamed : ∀ n ∈ below, OsPath.IsPlain n) :
    ((ofRoot root).withLines lines).matchedOrAbove (below.foldl OsPath.join root) false =
      verdictBelow? lineVerdict? lines below := by
  have hfuel := OsPath.length_le_ofPieces below
  have hrelative : ((ofRoot root).withLines lines).relative (below.foldl OsPath.join root) =
      OsPath.ofPieces below := relative_below rfl hplain hroot hbelow hnamed
  have hrules : ((ofRoot root).withLines lines).rules = rulesOf lines := List.nil_append _
  simp only [matchedOrAbove, hrelative, hrules, OsPath.not_isAbsolute_ofPieces hbelow hnamed,
    Bool.false_eq_true, if_false]
  exact verdictUpward?_file hnamed hbelow (by omega)

end Exclusion

end Ignore

open Ignore

/-- The rules of this library do what is documented, unless the root is spelled
    with too many dots. -/
theorem IgnoreLibrary.filters_standard (t : FileTree) (root : OsString) (hplain : PlainRoot root)
    (hroot : root ≠ .empty) : IgnoreLibrary.standard.Filters lineVerdict? t root where
  matched files lines := by
    have hrules : lines.foldl (fun x line => x.withLines [line.toList])
        (files.foldl (fun x file => x.withFile t file) (Exclusion.ofRoot root)) =
          (Exclusion.ofRoot root).withLines
            (files.flatMap (fun file => withoutMarks (t.linesAt file)) ++
              lines.map String.toList) := by
      rw [Exclusion.foldl_withFile, Exclusion.foldl_withLine, Exclusion.withLines_withLines]
    refine ⟨_, congrArg some hrules, fun below hbelow hnames => ?_⟩
    exact Exclusion.matchedOrAbove_below hplain hroot hbelow fun n hn => (hnames n hn).plain

end CrossRef
