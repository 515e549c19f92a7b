/-
  CrossRef.Proofs.Linking.Exports

  What the files of a corpus offer to each other. A file offers what its
  module scope binds a name to, and it passes a name on if it does not bind
  it but imports everything, step by step, from a file that does
  (`declaration?_offer_eq`, `passesOn_offer_iff`). Where the last declaration
  of a name wins, these are the last declarations and the names that are not
  declared (`declaration?_offer`, `passesOn_offer`).

  The search for the files that wildcard imports lead to is a walk in rounds.
  Its bound is the number of files: a round that finds nothing new ends it,
  and any other round adds a file that was not there (`mem_reach`). Hence
  more rounds would find nothing more (`reach_add`).
-/
import CrossRef.Linking.LinkSet
import CrossRef.Proofs.Extraction.Tables
import CrossRef.Proofs.Keyed
import Mathlib.Data.List.Perm.Subperm
import Mathlib.Logic.Relation

namespace CrossRef

/-! ## Module scopes -/

namespace ScopeGraph

/-- The definitions of the module scope are what its names are bound to. -/
theorem mem_moduleDefinitions {g : ScopeGraph} {name : String} {i : Nat} :
    (name, i) ∈ g.moduleDefinitions ↔ g.lookupLocal 0 name = some i := by
  rw [moduleDefinitions, lookupLocal]
  simp only [List.mem_map, Keyed.mem_sort, Keyed.mem_firsts, List.find?_filter,
    Bool.decide_and, Bool.decide_eq_true, Option.map_eq_some_iff, Prod.mk.injEq]
  constructor
  · rintro ⟨b, hb, rfl, rfl⟩
    exact ⟨b, hb, rfl⟩
  · rintro ⟨b, hb, rfl⟩
    have hname : b.name = name := by
      have := List.find?_some hb
      rw [Bool.and_eq_true, beq_iff_eq, beq_iff_eq] at this
      exact this.2
    exact ⟨b, by rw [hname]; exact hb, hname, rfl⟩

end ScopeGraph

namespace Analysis

/-- The file declares the name in its module scope. -/
def Declares (a : Analysis) (name : String) : Prop :=
  ∃ d ∈ a.declarations, d.scope = 0 ∧ d.name = name

/-- `d` is the last of the declarations of the name in the module scope. -/
def LastModuleDeclaration (a : Analysis) (name : String) (d : Declaration) : Prop :=
  ∃ i, IsLastDeclared a.declarations 0 name i ∧ a.declarations[i]? = some d

variable {a : Analysis} {name : String} {d : Declaration}

theorem LastModuleDeclaration.unique {e : Declaration} (hd : a.LastModuleDeclaration name d)
    (he : a.LastModuleDeclaration name e) : d = e := by
  obtain ⟨i, hi, hd⟩ := hd
  obtain ⟨j, hj, he⟩ := he
  rw [hi.unique hj, he] at hd
  exact (Option.some.inj hd).symm

theorem LastModuleDeclaration.name_eq (h : a.LastModuleDeclaration name d) : d.name = name := by
  obtain ⟨i, ⟨⟨e, he, -, hname⟩, -⟩, hd⟩ := h
  rw [he] at hd
  rw [← Option.some.inj hd, hname]

theorem declares_iff : a.Declares name ↔ ∃ d, a.LastModuleDeclaration name d := by
  constructor
  · rintro ⟨d, hd, hscope, rfl⟩
    obtain ⟨i, hi⟩ := exists_isLastDeclared hd
    rw [hscope] at hi
    obtain ⟨e, he, -⟩ := hi.1
    exact ⟨e, i, hi, he⟩
  · rintro ⟨d, i, ⟨⟨e, he, he'⟩, -⟩, -⟩
    exact ⟨e, Array.mem_of_getElem? he, he'⟩

/-! ### What the module scope binds -/

/-- The module scope binds the name. -/
def Binds (a : Analysis) (name : String) : Prop := (a.scopes.lookupLocal 0 name).isSome = true

/-- The declaration that the module scope binds the name to. -/
def moduleDeclaration? (a : Analysis) (name : String) : Option Declaration :=
  (a.scopes.lookupLocal 0 name).bind (a.declarations[·]?)

/-- What the module scope binds a name to is a declaration of that name. -/
def TablePoints (a : Analysis) : Prop :=
  ∀ name i, a.scopes.lookupLocal 0 name = some i →
    ∃ d, a.declarations[i]? = some d ∧ d.name = name

theorem moduleDeclaration?_eq_some : a.moduleDeclaration? name = some d ↔
    ∃ i, a.scopes.lookupLocal 0 name = some i ∧ a.declarations[i]? = some d :=
  Option.bind_eq_some_iff

theorem TablePoints.binds_iff (h : a.TablePoints) :
    a.Binds name ↔ ∃ d, a.moduleDeclaration? name = some d := by
  rw [Binds, Option.isSome_iff_exists]
  constructor
  · rintro ⟨i, hi⟩
    obtain ⟨d, hd, -⟩ := h name i hi
    exact ⟨d, moduleDeclaration?_eq_some.2 ⟨i, hi, hd⟩⟩
  · rintro ⟨d, hd⟩
    obtain ⟨i, hi, -⟩ := moduleDeclaration?_eq_some.1 hd
    exact ⟨i, hi⟩

theorem TablePoints.name_eq (h : a.TablePoints) (hd : a.moduleDeclaration? name = some d) :
    d.name = name := by
  obtain ⟨i, hi, hd⟩ := moduleDeclaration?_eq_some.1 hd
  obtain ⟨e, he, hname⟩ := h name i hi
  rwa [← Option.some.inj (he.symm.trans hd)]

/-- The module scope ends up with the declarations that its names are bound to. -/
theorem TablePoints.mem_moduleDeclarations (h : a.TablePoints) :
    (d ∈ a.moduleDeclarations ∧ d.name = name) ↔ a.moduleDeclaration? name = some d := by
  rw [moduleDeclarations, List.mem_filterMap]
  constructor
  · rintro ⟨⟨⟨m, i⟩, hmem, hd⟩, rfl⟩
    have hi : a.moduleDeclaration? m = some d :=
      moduleDeclaration?_eq_some.2 ⟨i, ScopeGraph.mem_moduleDefinitions.1 hmem, hd⟩
    rwa [h.name_eq hi]
  · intro hd
    have hname := h.name_eq hd
    obtain ⟨i, hi, hd⟩ := moduleDeclaration?_eq_some.1 hd
    exact ⟨⟨(name, i), ScopeGraph.mem_moduleDefinitions.2 hi, hd⟩, hname⟩

/-! ### Where the last declaration wins -/

theorem LastWins.moduleDeclaration?_iff (h : a.LastWins) :
    a.moduleDeclaration? name = some d ↔ a.LastModuleDeclaration name d :=
  moduleDeclaration?_eq_some.trans
    (exists_congr fun i => and_congr_left' (h 0 name i))

theorem LastWins.tablePoints (h : a.LastWins) : a.TablePoints := by
  intro name i hi
  have hlast := (h 0 name i).1 hi
  obtain ⟨d, hd, -, hname⟩ := hlast.1
  exact ⟨d, hd, hname⟩

/-- The module scope binds the names that are declared in it. -/
theorem LastWins.binds_iff (h : a.LastWins) : a.Binds name ↔ a.Declares name := by
  rw [h.tablePoints.binds_iff, declares_iff]
  exact exists_congr fun d => h.moduleDeclaration?_iff

end Analysis

namespace Linking

/-! ## Wildcard imports -/

/-- The identifiers of the files, in ascending order. -/
def fileIds (files : List AnalyzedFile) : List String := Keyed.sort id (files.map (·.file))

/-- File `a` has a wildcard import of another file `b`. -/
def ImportsAll (files : List AnalyzedFile) (a b : String) : Prop :=
  ∃ f ∈ files, f.file = a ∧ b ≠ a ∧
    ∃ w ∈ f.analysis.scopes.wildcards, resolveModule? a w (fileIds files) = some b

theorem mem_of_resolveModule? {importer : String} {w : WildcardImport} {ids : List String}
    {b : String} (h : resolveModule? importer w ids = some b) : b ∈ ids := by
  unfold resolveModule? at h
  split at h
  · obtain ⟨directory, -, h⟩ := Option.bind_eq_some_iff.1 h
    obtain ⟨place, -, hplace⟩ := List.exists_of_findSome?_eq_some h
    exact List.mem_of_find?_eq_some hplace
  · split at h
    · cases h
    · exact List.mem_of_find?_eq_some h

theorem mem_wildcardTargets {ids : List String} {f : AnalyzedFile} {b : String} :
    b ∈ wildcardTargets ids f ↔
      b ≠ f.file ∧ ∃ w ∈ f.analysis.scopes.wildcards, resolveModule? f.file w ids = some b := by
  rw [wildcardTargets, List.mem_filterMap]
  simp only [Option.filter_eq_some_iff, bne_iff_ne, Array.mem_toList_iff]
  constructor
  · rintro ⟨w, hw, hb, hne⟩
    exact ⟨hne, w, hw, hb⟩
  · rintro ⟨hne, w, hw, hb⟩
    exact ⟨w, hw, hb, hne⟩

/-! ## The walk along imports -/

section

open Relation

variable {next : String → List String} {ids reached latest : List String} {a : String}

/-- The files one more round finds. -/
def discovered (next : String → List String) (reached latest : List String) : List String :=
  Keyed.firsts id ((latest.flatMap next).filter fun t => !reached.contains t)

theorem mem_discovered {t : String} :
    t ∈ discovered next reached latest ↔ (∃ x ∈ latest, t ∈ next x) ∧ t ∉ reached := by
  have hsame : t ∈ discovered next reached latest ↔
      t ∈ (latest.flatMap next).filter fun t => !reached.contains t := by
    constructor
    · exact fun h => Keyed.firsts_subset id _ h
    · intro h
      obtain ⟨b, hb, rfl⟩ := Keyed.exists_mem_firsts id h
      exact hb
  rw [hsame, List.mem_filter, List.mem_flatMap]
  simp

/-- What holds before every round: only the files of the last round can lead
    to files that are not there yet. -/
structure Exploring (next : String → List String) (ids : List String) (a : String)
    (reached latest : List String) : Prop where
  start : a ∈ reached
  nodup : reached.Nodup
  known : ∀ x ∈ reached, x ∈ ids
  reachable : ∀ x ∈ reached, ReflTransGen (fun x y => y ∈ next x) a x
  latest_reached : ∀ x ∈ latest, x ∈ reached
  explored : ∀ x ∈ reached, x ∉ latest → ∀ y ∈ next x, y ∈ reached

theorem exploring_start (ha : a ∈ ids) : Exploring next ids a [a] [a] where
  start := List.mem_singleton_self a
  nodup := List.nodup_singleton a
  known := fun _ hx => List.mem_singleton.1 hx ▸ ha
  reachable := fun _ hx => List.mem_singleton.1 hx ▸ .refl
  latest_reached := fun _ hx => hx
  explored := fun _ hx hnot => absurd hx hnot

/-- A round keeps what is known of a walk: it adds each new file once, and explores
    the files that the last round added. -/
theorem Exploring.round (h : Exploring next ids a reached latest)
    (hids : ∀ x ∈ ids, ∀ y ∈ next x, y ∈ ids) :
    Exploring next ids a (reached ++ discovered next reached latest)
      (discovered next reached latest) where
  start := List.mem_append_left _ h.start
  nodup := by
    have hnew : (discovered next reached latest).Nodup := by
      have := Keyed.nodup_keys_firsts id ((latest.flatMap next).filter fun t => !reached.contains t)
      rwa [List.map_id] at this
    refine List.nodup_append.2 ⟨h.nodup, hnew, ?_⟩
    rintro x hx y hy rfl
    exact (mem_discovered.1 hy).2 hx
  known := by
    intro y hy
    rcases List.mem_append.1 hy with hy | hy
    · exact h.known y hy
    · obtain ⟨⟨x, hx, hxy⟩, -⟩ := mem_discovered.1 hy
      exact hids x (h.known x (h.latest_reached x hx)) y hxy
  reachable := by
    intro y hy
    rcases List.mem_append.1 hy with hy | hy
    · exact h.reachable y hy
    · obtain ⟨⟨x, hx, hxy⟩, -⟩ := mem_discovered.1 hy
      exact (h.reachable x (h.latest_reached x hx)).tail hxy
  latest_reached := fun _ hx => List.mem_append_right _ hx
  explored := by
    intro x hx hnot y hy
    have hx : x ∈ reached := (List.mem_append.1 hx).resolve_right hnot
    by_cases hreached : y ∈ reached
    · exact List.mem_append_left _ hreached
    · -- `x` was explored before this round, or is explored by it
      by_cases hlatest : x ∈ latest
      · exact List.mem_append_right _ (mem_discovered.2 ⟨⟨x, hlatest, hy⟩, hreached⟩)
      · exact absurd (h.explored x hx hlatest y hy) hreached

/-- Where no file leads to a new one, the walk is over. -/
theorem Exploring.mem_iff (h : Exploring next ids a reached latest)
    (hclosed : ∀ x ∈ reached, ∀ y ∈ next x, y ∈ reached) {t : String} :
    t ∈ reached ↔ ReflTransGen (fun x y => y ∈ next x) a t := by
  refine ⟨h.reachable t, fun ht => ?_⟩
  induction ht with
  | refl => exact h.start
  | tail _ hxy ih => exact hclosed _ ih _ hxy

/-- Where as many files are reached as there are, all are. -/
theorem Exploring.mem_of_length_le (h : Exploring next ids a reached latest)
    (hlen : ids.length ≤ reached.length) : ∀ x ∈ ids, x ∈ reached := by
  intro x hx
  exact ((List.subperm_of_subset h.nodup h.known).perm_of_length_le hlen).mem_iff.2 hx

/-- An empty round is the last one; any other uses up one of the files. -/
theorem round_left {rounds : Nat} (hlen : ids.length ≤ rounds + 1 + reached.length) :
    discovered next reached latest = [] ∨
      ids.length ≤ rounds + (reached ++ discovered next reached latest).length := by
  rcases Nat.eq_zero_or_pos (discovered next reached latest).length with hzero | hpos
  · exact .inl (List.length_eq_zero_iff.1 hzero)
  · right
    rw [List.length_append]
    omega

theorem mem_reach_of_exploring (hids : ∀ x ∈ ids, ∀ y ∈ next x, y ∈ ids) {rounds : Nat}
    (h : Exploring next ids a reached latest)
    (hrounds : latest = [] ∨ ids.length ≤ rounds + reached.length) {t : String} :
    t ∈ reach next rounds reached latest ↔
      ReflTransGen (fun x y => y ∈ next x) a t := by
  induction rounds generalizing reached latest with
  | zero =>
    rw [reach]
    refine h.mem_iff fun x hx y hy => ?_
    rcases hrounds with rfl | hlen
    · exact h.explored x hx List.not_mem_nil y hy
    · exact h.mem_of_length_le (by omega) y (hids x (h.known x hx) y hy)
  | succ rounds ih =>
    cases latest with
    | nil => exact h.mem_iff fun x hx y hy => h.explored x hx List.not_mem_nil y hy
    | cons x xs =>
      have hlen := hrounds.resolve_left (List.cons_ne_nil x xs)
      show t ∈ reach next rounds (reached ++ discovered next reached (x :: xs))
        (discovered next reached (x :: xs)) ↔ _
      exact ih (h.round hids) (round_left hlen)

/-- Where the next round would find nothing, no number of rounds does. -/
theorem reach_of_discovered (h : discovered next reached latest = []) (rounds : Nat) :
    reach next rounds reached latest = reached := by
  match rounds, latest, h with
  | 0, _, _ => rfl
  | _ + 1, [], _ => rfl
  | rounds + 1, x :: xs, h =>
    show reach next rounds (reached ++ discovered next reached (x :: xs))
      (discovered next reached (x :: xs)) = reached
    rw [h, List.append_nil]
    cases rounds <;> rfl

/-- Once as many files are reached or rounds are left as there are files, more
    rounds change nothing. -/
theorem reach_add_of_exploring (hids : ∀ x ∈ ids, ∀ y ∈ next x, y ∈ ids) {rounds : Nat}
    (h : Exploring next ids a reached latest)
    (hrounds : latest = [] ∨ ids.length ≤ rounds + reached.length) (more : Nat) :
    reach next (rounds + more) reached latest = reach next rounds reached latest := by
  induction rounds generalizing reached latest with
  | zero =>
    rw [Nat.zero_add, reach]
    refine reach_of_discovered (List.eq_nil_iff_forall_not_mem.2 fun t ht => ?_) more
    obtain ⟨⟨x, hx, hxt⟩, hnot⟩ := mem_discovered.1 ht
    rcases hrounds with rfl | hlen
    · exact absurd hx List.not_mem_nil
    · have hx := h.known x (h.latest_reached x hx)
      exact hnot (h.mem_of_length_le (by omega) t (hids x hx t hxt))
  | succ rounds ih =>
    rw [Nat.add_right_comm]
    cases latest with
    | nil => rfl
    | cons x xs =>
      show reach next (rounds + more) (reached ++ discovered next reached (x :: xs))
        (discovered next reached (x :: xs)) = _
      have hlen := hrounds.resolve_left (List.cons_ne_nil x xs)
      exact ih (h.round hids) (round_left hlen)

/-- The walk finds the files that `next` leads to, and no others. -/
theorem mem_reach (hids : ∀ x ∈ ids, ∀ y ∈ next x, y ∈ ids) (ha : a ∈ ids) {t : String} :
    t ∈ reach next ids.length [a] [a] ↔ ReflTransGen (fun x y => y ∈ next x) a t :=
  mem_reach_of_exploring hids (exploring_start ha) (.inr (Nat.le_add_right ..))

/-- The walk is over after as many rounds as there are files. -/
theorem reach_add (hids : ∀ x ∈ ids, ∀ y ∈ next x, y ∈ ids) (ha : a ∈ ids) (more : Nat) :
    reach next (ids.length + more) [a] [a] = reach next ids.length [a] [a] :=
  reach_add_of_exploring hids (exploring_start ha) (.inr (Nat.le_add_right ..)) more

end

/-! ## What each file offers -/

/-- File `a` does not bind the name in its module scope, but its wildcard
    imports lead to a file that does. -/
def Relays (files : List AnalyzedFile) (name a : String) : Prop :=
  (∃ f ∈ files, f.file = a ∧ ¬ f.analysis.Binds name) ∧
    ∃ g ∈ files, g.analysis.Binds name ∧ Relation.TransGen (ImportsAll files) a g.file

/-- File `a` does not declare the name in its module scope, but its wildcard
    imports lead to a file that does. -/
def PassesOn (files : List AnalyzedFile) (name a : String) : Prop :=
  (∃ f ∈ files, f.file = a ∧ ¬ f.analysis.Declares name) ∧
    ∃ g ∈ files, g.analysis.Declares name ∧ Relation.TransGen (ImportsAll files) a g.file

section

variable {files : List AnalyzedFile}

/-- The files in the order of their identifiers. -/
def corpus (files : List AnalyzedFile) : List AnalyzedFile := Keyed.sort (·.file) files

/-- The files that the wildcard imports of a file lead to in one step. -/
def targetsOf (files : List AnalyzedFile) (id : String) : List String :=
  let targets := (corpus files).map fun f => (f.file, wildcardTargets (fileIds files) f)
  ((targets.find? (·.1 == id)).map (·.2)).getD []

/-- The files that the wildcard imports of a file lead to in any number of steps. -/
def reachedFrom (files : List AnalyzedFile) (id : String) : List String :=
  reach (targetsOf files) (fileIds files).length [id] [id]

/-- The names that other files declare and a file can be asked for. -/
def importedNames (files : List AnalyzedFile) (f : AnalyzedFile) : List String :=
  let offers := (corpus files).map fun g => (g.file, g.analysis.moduleDeclarations)
  let sources := offers.filter fun o => o.1 != f.file && (reachedFrom files f.file).contains o.1
  sources.flatMap fun o => o.2.map (·.name)

/-- What one file of the corpus offers. -/
def offer (files : List AnalyzedFile) (f : AnalyzedFile) : Exports :=
  ⟨f.file, f.analysis.moduleDeclarations,
    (importedNames files f).filter fun n => (f.analysis.scopes.lookupLocal 0 n).isNone⟩

theorem map_file_corpus (hids : (files.map (·.file)).Nodup) :
    (corpus files).map (·.file) = fileIds files := by
  have hsorted : Keyed.Ascending id ((corpus files).map (·.file)) :=
    List.pairwise_map.2 (Keyed.ascending_sort hids)
  -- both lists ascend, so it is enough that they hold the same identifiers
  refine hsorted.ext (Keyed.ascending_sort (by rwa [List.map_id])) fun b => ?_
  rw [fileIds, Keyed.mem_sort]
  exact ((Keyed.sort_perm _ files).map _).mem_iff

/-- The index has one entry for each file, in the order of their identifiers. -/
theorem exports_eq (hids : (files.map (·.file)).Nodup) :
    exports files = (corpus files).map (offer files) := by
  have htable : Keyed.table (·.file) files = corpus files := Keyed.table_eq_sort hids
  unfold exports
  simp only [htable, map_file_corpus hids]
  rfl

/-- What files offer does not depend on the order in which they come. -/
theorem exports_eq_of_perm {files' : List AnalyzedFile} (hids : (files.map (·.file)).Nodup)
    (hperm : files.Perm files') : exports files = exports files' := by
  have hids' : (files'.map (·.file)).Nodup := (hperm.map _).nodup_iff.1 hids
  have hcorpus : Keyed.table (·.file) files = Keyed.table (·.file) files' := by
    rw [Keyed.table_eq_sort hids, Keyed.table_eq_sort hids', Keyed.sort_eq_of_perm hids hperm]
  unfold exports
  rw [hcorpus]

theorem mem_targetsOf (hids : (files.map (·.file)).Nodup) {a b : String} :
    b ∈ targetsOf files a ↔ ImportsAll files a b := by
  have hkeys : ((corpus files).map (·.file)).Nodup := (Keyed.ascending_sort hids).nodup_keys
  have hfind : ∀ f, (corpus files).find? (fun f => f.file == a) = some f ↔
      f ∈ files ∧ f.file = a := by
    intro f
    rw [Keyed.find?_key_eq_some hkeys, corpus, Keyed.mem_sort]
  have hmap : targetsOf files a = (((corpus files).find? fun f => f.file == a).map
      (wildcardTargets (fileIds files))).getD [] := by
    rw [targetsOf, List.find?_map, Option.map_map]
    rfl
  rw [hmap]
  constructor
  · intro hb
    cases hf : (corpus files).find? fun f => f.file == a with
    | none =>
      rw [hf] at hb
      cases hb
    | some f =>
      rw [hf] at hb
      obtain ⟨hmem, rfl⟩ := (hfind f).1 hf
      obtain ⟨hne, hw⟩ := mem_wildcardTargets.1 hb
      exact ⟨f, hmem, rfl, hne, hw⟩
  · rintro ⟨f, hmem, rfl, hne, hw⟩
    rw [(hfind f).2 ⟨hmem, rfl⟩]
    exact mem_wildcardTargets.2 ⟨hne, hw⟩

theorem mem_fileIds {id : String} : id ∈ fileIds files ↔ ∃ f ∈ files, f.file = id := by
  rw [fileIds, Keyed.mem_sort, List.mem_map]

/-- The imports of files lead to files of the corpus. -/
theorem mem_fileIds_of_targetsOf (hids : (files.map (·.file)).Nodup) :
    ∀ x ∈ fileIds files, ∀ y ∈ targetsOf files x, y ∈ fileIds files := by
  intro x _ y hy
  obtain ⟨-, -, -, -, w, -, hw⟩ := (mem_targetsOf hids).1 hy
  exact mem_of_resolveModule? hw

theorem mem_reachedFrom (hids : (files.map (·.file)).Nodup) {f : AnalyzedFile} (hf : f ∈ files)
    {b : String} :
    b ∈ reachedFrom files f.file ↔ Relation.ReflTransGen (ImportsAll files) f.file b := by
  have hstart : f.file ∈ fileIds files := mem_fileIds.2 ⟨f, hf, rfl⟩
  rw [reachedFrom, mem_reach (mem_fileIds_of_targetsOf hids) hstart]
  have hrel : (fun x y => y ∈ targetsOf files x) = ImportsAll files := by
    funext x y
    exact propext (mem_targetsOf hids)
  rw [hrel]

/-- The search along the imports of a file is over after as many rounds as
    there are files, whether or not the imports lead back to it. -/
theorem reach_eq_reachedFrom (hids : (files.map (·.file)).Nodup) {f : AnalyzedFile}
    (hf : f ∈ files) {rounds : Nat} (hrounds : files.length ≤ rounds) :
    reach (targetsOf files) rounds [f.file] [f.file] = reachedFrom files f.file := by
  have hlen : (fileIds files).length = files.length := by
    rw [fileIds, (Keyed.sort_perm id _).length_eq, List.length_map]
  obtain ⟨more, rfl⟩ := Nat.exists_eq_add_of_le hrounds
  rw [reachedFrom, ← hlen]
  exact reach_add (mem_fileIds_of_targetsOf hids) (mem_fileIds.2 ⟨f, hf, rfl⟩) more

/-- A file passes on what its imports lead to and it does not bind itself. -/
theorem passesOn_offer_iff (hids : (files.map (·.file)).Nodup)
    (htables : ∀ f ∈ files, f.analysis.TablePoints) {f : AnalyzedFile} (hf : f ∈ files)
    {name : String} : (offer files f).passesOn name = true ↔ Relays files name f.file := by
  have hown : (f.analysis.scopes.lookupLocal 0 name).isNone = true ↔
      ¬ f.analysis.Binds name := by
    rw [Analysis.Binds, Bool.not_eq_true, Option.isSome_eq_false_iff]
  have himported : name ∈ importedNames files f ↔ ∃ g ∈ files, g.file ≠ f.file ∧
      Relation.ReflTransGen (ImportsAll files) f.file g.file ∧ g.analysis.Binds name := by
    simp only [importedNames, List.mem_flatMap, List.mem_filter, List.mem_map, corpus,
      Keyed.mem_sort, Bool.and_eq_true, bne_iff_ne, List.contains_iff_mem]
    constructor
    · rintro ⟨-, ⟨⟨g, hg, rfl⟩, hne, hreach⟩, d, hd, hname⟩
      have hpoints : g.analysis.TablePoints := htables g hg
      exact ⟨g, hg, hne, (mem_reachedFrom hids hf).1 hreach,
        hpoints.binds_iff.2 ⟨d, hpoints.mem_moduleDeclarations.1 ⟨hd, hname⟩⟩⟩
    · rintro ⟨g, hg, hne, hreach, hbinds⟩
      have hpoints : g.analysis.TablePoints := htables g hg
      obtain ⟨d, hd⟩ := hpoints.binds_iff.1 hbinds
      obtain ⟨hd, hname⟩ := hpoints.mem_moduleDeclarations.2 hd
      exact ⟨_, ⟨⟨g, hg, rfl⟩, hne, (mem_reachedFrom hids hf).2 hreach⟩, d, hd, hname⟩
  rw [Exports.passesOn, offer, List.contains_iff_mem, List.mem_filter, hown, himported]
  constructor
  · rintro ⟨⟨g, hg, hne, hreach, hbinds⟩, hnot⟩
    rcases Relation.reflTransGen_iff_eq_or_transGen.1 hreach with heq | htrans
    · exact absurd heq hne
    · exact ⟨⟨f, hf, rfl, hnot⟩, g, hg, hbinds, htrans⟩
  · -- the walk starts at the file itself, but that does not bind the name
    rintro ⟨⟨f', hf', hfile, hnot⟩, g, hg, hbinds, htrans⟩
    have hsame : f' = f := Keyed.eq_of_key_eq hids hf' hf hfile
    subst hsame
    refine ⟨⟨g, hg, fun hfile => hnot ?_, htrans.to_reflTransGen, hbinds⟩, hnot⟩
    rwa [← Keyed.eq_of_key_eq hids hg hf hfile]

/-- A file offers what its module scope binds a name to. -/
theorem declaration?_offer_eq {f : AnalyzedFile} (htable : f.analysis.TablePoints)
    (name : String) : (offer files f).declaration? name = f.analysis.moduleDeclaration? name := by
  have hmem : ∀ e, (offer files f).declaration? name = some e →
      f.analysis.moduleDeclaration? name = some e := by
    intro e he
    have hname : e.name = name := by simpa using List.find?_some he
    exact htable.mem_moduleDeclarations.1
      ⟨List.mem_reverse.1 (List.mem_of_find?_eq_some he), hname⟩
  cases he : (offer files f).declaration? name with
  | some e => rw [hmem e he]
  | none =>
    -- what the name is bound to would have been found
    rw [eq_comm, Option.eq_none_iff_forall_ne_some]
    intro d hd
    obtain ⟨hdeclared, hname⟩ := htable.mem_moduleDeclarations.2 hd
    have := List.find?_eq_none.1 he d (List.mem_reverse.2 hdeclared)
    exact absurd (beq_iff_eq.2 hname) this

/-! ### Where the last declaration wins -/

theorem relays_iff (htables : ∀ f ∈ files, f.analysis.LastWins) {name a : String} :
    Relays files name a ↔ PassesOn files name a := by
  refine and_congr (exists_congr fun f => ?_) (exists_congr fun g => ?_)
  · exact and_congr_right fun hf => and_congr_right' (not_congr (htables f hf).binds_iff)
  · exact and_congr_right fun hg => and_congr_left' (htables g hg).binds_iff

/-- A file passes on what its imports lead to and it does not declare itself. -/
theorem passesOn_offer (hids : (files.map (·.file)).Nodup)
    (htables : ∀ f ∈ files, f.analysis.LastWins) {f : AnalyzedFile} (hf : f ∈ files)
    {name : String} : (offer files f).passesOn name = true ↔ PassesOn files name f.file := by
  rw [passesOn_offer_iff hids (fun g hg => (htables g hg).tablePoints) hf, relays_iff htables]

/-- A file offers the last declaration of each name in its module scope. -/
theorem declaration?_offer {f : AnalyzedFile} (htable : f.analysis.LastWins) {name : String}
    {d : Declaration} :
    (offer files f).declaration? name = some d ↔ f.analysis.LastModuleDeclaration name d := by
  rw [declaration?_offer_eq htable.tablePoints, htable.moduleDeclaration?_iff]

end

end Linking

end CrossRef
