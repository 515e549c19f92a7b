/-
  CrossRef.Proofs.Json.Codec

  What is documented of a library for JSON (`Codec.Lawful`): a form is read from
  its text again, and every reader finds what has been put into a form. The
  library given here keeps it (`lawful_standard`).
-/
import CrossRef.Json.Record
import CrossRef.Proofs.Json.Compact

namespace CrossRef.Json

open CrossRef.Text.Decimal

namespace Codec

/-- A form that has been put together from values, with lists and records within
    each other to a depth at most. Numbers have 64 bits, and the fields of a
    record have different names. -/
inductive Written (json : Codec) : Nat → json.Form → Prop where
  | bool {depth : Nat} (b : Bool) : Written json depth (json.bool b)
  | number {depth n : Nat} (h : n ≤ largestCount) : Written json depth (json.number n)
  | string {depth : Nat} (s : String) : Written json depth (json.string s)
  | word {depth : Nat} (s : String) : Written json depth (json.word s)
  | array {depth : Nat} {vs : List json.Form} (h : ∀ v ∈ vs, Written json depth v) :
      Written json (depth + 1) (json.array vs)
  | object {depth : Nat} {ms : List (String × json.Form)} (hnames : (ms.map Prod.fst).Nodup)
      (h : ∀ m ∈ ms, Written json depth m.2) : Written json (depth + 1) (json.object ms)

/-- How deep lists and records may be within each other for a text to be read. -/
def deepest : Nat := 127

/-- What is documented of a library. -/
structure Lawful (json : Codec) : Prop where
  flag : ∀ b, json.flag? (json.bool b) = some b
  natural : ∀ {largest n}, largest ≤ largestCount → n ≤ largest →
    json.natural? largest (json.number n) = some n
  text : ∀ s, json.text? (json.string s) = some s
  word : ∀ s, json.word? (json.word s) = some s
  items : ∀ vs, json.items? (json.array vs) = some vs
  fields : ∀ {ms : List (String × json.Form)}, (ms.map Prod.fst).Nodup →
    ∀ names, json.fields? names (json.object ms) = some (names.map fun name => ms.lookup name)
  present : ∀ {depth v}, json.Written depth v → json.isNull v = false
  reads_back : ∀ {v}, json.Written deepest v → json.parse? (json.compact v) = some v

namespace Lawful

variable {json : Codec} {α : Type} {write : α → json.Form} {item? : json.Form → Option α}

theorem list (hjson : json.Lawful) {as : List α} (h : ∀ a ∈ as, item? (write a) = some a) :
    json.list? item? (json.array (as.map write)) = some as := by
  rw [list?, hjson.items, Option.bind_some]
  induction as with
  | nil => rfl
  | cons a as ih =>
    rw [List.map_cons, List.mapM_cons, h a List.mem_cons_self,
      ih fun b hb => h b (List.mem_cons_of_mem _ hb)]
    rfl

theorem optional (hjson : json.Lawful) {depth : Nat} {a : α}
    (hwritten : json.Written depth (write a))
    (h : item? (write a) = some a) : json.optional? item? (write a) = some (some a) := by
  rw [optional?, hjson.present hwritten, h]
  rfl

end Lawful

end Codec

/-! ## The library -/

namespace Value

theorem filter_key_eq {ms : List (String × Value)} (h : (ms.map Prod.fst).Nodup) (name : String) :
    ms.filter (fun m => m.1 == name) = (ms.lookup name).toList.map (name, ·) := by
  induction ms with
  | nil => rfl
  | cons m ms ih =>
    obtain ⟨hk, hms⟩ := List.nodup_cons.1 h
    by_cases hname : m.1 = name
    · have hnone : ms.filter (fun m => m.1 == name) = [] := by
        rw [List.filter_eq_nil_iff]
        intro m' hm heq
        exact hk (List.mem_map.2 ⟨m', hm, (beq_iff_eq.1 heq).trans hname.symm⟩)
      obtain rfl := hname
      rw [List.filter_cons, if_pos (beq_self_eq_true m.1), hnone, List.lookup_cons,
        beq_self_eq_true]
      rfl
    · rw [List.filter_cons, if_neg (mt beq_iff_eq.1 hname), ih hms, List.lookup_cons,
        beq_eq_false_iff_ne.2 (Ne.symm hname)]

/-- The fields of a record are what its object holds under their names. -/
theorem fields?_object {ms : List (String × Value)} (h : (ms.map Prod.fst).Nodup)
    (names : List String) :
    fields? names (.object ms) = some (names.map fun name => ms.lookup name) := by
  have hfields : names.mapM (fun name => some (ms.lookup name)) =
      some (names.map fun name => ms.lookup name) := List.mapM_pure
  rw [fields?, ← hfields]
  refine congrArg (List.mapM · names) (funext fun name => ?_)
  rw [filter_key_eq h]
  cases ms.lookup name
  all_goals rfl

/-- What has been put together denotes a value. -/
theorem usable_of_written {depth : Nat} {v : Codec.standard.Form}
    (h : Codec.standard.Written depth v) : Usable v := by
  induction h with
  | bool b => exact .bool b
  | number _ => exact .number _
  | string s | word s => exact .string s
  | array _ ih => exact .array ih
  | object _ _ ih => exact .object ih

end Value

theorem Codec.lawful_standard : Codec.standard.Lawful where
  flag _ := rfl
  natural _ hn := if_pos hn
  text _ := rfl
  word _ := rfl
  items _ := rfl
  fields := Value.fields?_object
  present h := by
    cases h
    all_goals rfl
  reads_back h := parse?_compact (Value.usable_of_written h)

end CrossRef.Json
