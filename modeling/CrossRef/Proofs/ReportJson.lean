/-
  CrossRef.Proofs.ReportJson

  Reports, their parts and settings are read back from their JSON texts
  (`encodings_read_back`), with any library that does what is documented. A
  record is written with fields of pairwise different names, so each of them is
  found there again, and the compact text says nothing else. Hence the bytes
  that a fingerprint is taken of leave no part of the order, the files and the
  diagnostics open.
-/
import CrossRef.Job
import CrossRef.Proofs.Json.Codec

namespace CrossRef

open CrossRef.Json CrossRef.Text.Decimal

variable {json : Codec}

namespace Json.Codec

variable {α : Type} {write : α → json.Form} {read? : json.Form → Option α} {a : α}

/-- A value is written as a text from which it is read again. -/
def Lossless (json : Codec) (write : α → json.Form) (read? : json.Form → Option α) (a : α) : Prop :=
  (json.parse? (json.compact (write a))).bind read? = some a

theorem Lawful.lossless (hjson : json.Lawful) (hwritten : json.Written deepest (write a))
    (hread : read? (write a) = some a) : json.Lossless write read? a := by
  rw [Lossless, hjson.reads_back hwritten]
  exact hread

theorem Lawful.small (hjson : json.Lawful) {n : Nat} (h : n ≤ largestWord) :
    json.small? (json.number n) = some n :=
  hjson.natural (by decide) h

theorem Lawful.count (hjson : json.Lawful) {n : Nat} (h : n ≤ largestCount) :
    json.count? (json.number n) = some n :=
  hjson.natural (Nat.le_refl _) h

theorem written_small {depth n : Nat} (h : n ≤ largestWord) :
    json.Written depth (json.number n) :=
  .number (Nat.le_trans h (by decide))

end Json.Codec

/-! ## Words -/

/-- A case is found by its word if the words differ. -/
theorem caseNamed?_word (hjson : json.Lawful) {α : Type} {text : α → String} {cases : List α}
    {a : α} (h : cases.find? (text · == text a) = some a) :
    caseNamed? json text cases (json.word (text a)) = some a := by
  rw [caseNamed?, hjson.word, Option.bind_some, h]

theorem DeclarationKind.ofJson?_toJson (hjson : json.Lawful) (k : DeclarationKind) :
    ofJson? json (k.toJson json) = some k :=
  caseNamed?_word hjson (by cases k <;> decide +kernel)

theorem UsageKind.ofJson?_toJson (hjson : json.Lawful) (k : UsageKind) :
    ofJson? json (k.toJson json) = some k :=
  caseNamed?_word hjson (by cases k <;> decide +kernel)

theorem DiagnosticKind.ofJson?_toJson (hjson : json.Lawful) (k : DiagnosticKind) :
    ofJson? json (k.toJson json) = some k :=
  caseNamed?_word hjson (by cases k <;> decide +kernel)

theorem OrderMode.ofJson?_toJson (hjson : json.Lawful) (m : OrderMode) :
    ofJson? json (m.toJson json) = some m :=
  caseNamed?_word hjson (by cases m <;> decide +kernel)

/-! ## Numbers in range -/

/-- Places and scopes have numbers of 32 bits. -/
structure Declaration.InRange (d : Declaration) : Prop where
  line : d.line ≤ largestWord
  column : d.column ≤ largestWord
  scope : d.scope ≤ largestWord

structure Usage.InRange (u : Usage) : Prop where
  line : u.line ≤ largestWord
  column : u.column ≤ largestWord

structure Link.InRange (l : Link) : Prop where
  usage : l.usage.InRange
  declaration : l.declaration.InRange

structure FileReport.InRange (f : FileReport) : Prop where
  declarations : ∀ d ∈ f.declarations, d.InRange
  links : ∀ l ∈ f.links, l.InRange

/-- Counts have 64 bits. -/
structure ReportStats.InRange (s : ReportStats) : Prop where
  files : s.files ≤ largestCount
  declarations : s.declarations ≤ largestCount
  usages : s.usages ≤ largestCount
  links : s.links ≤ largestCount
  crossFileLinks : s.crossFileLinks ≤ largestCount
  ambiguous : s.ambiguous ≤ largestCount
  unresolved : s.unresolved ≤ largestCount
  edges : s.edges ≤ largestCount

structure Report.InRange (r : Report) : Prop where
  files : ∀ f ∈ r.files, f.InRange
  stats : r.stats.InRange

/-! ## Parts of reports -/

section Readers

variable (hjson : json.Lawful)

attribute [local simp] List.lookup_cons Codec.required Codec.withDefault

include hjson

theorem Declaration.ofJson?_toJson {d : Declaration} (h : d.InRange) :
    ofJson? json (d.toJson json) = some d := by
  rw [ofJson?, toJson, hjson.fields]
  · simp [hjson.text, hjson.small h.line, hjson.small h.column, hjson.small h.scope,
      DeclarationKind.ofJson?_toJson hjson]
  · simp

theorem Usage.ofJson?_toJson {u : Usage} (h : u.InRange) :
    ofJson? json (u.toJson json) = some u := by
  rw [ofJson?, toJson, hjson.fields]
  · simp [hjson.text, hjson.small h.line, hjson.small h.column, UsageKind.ofJson?_toJson hjson]
  · simp

theorem Link.ofJson?_toJson {l : Link} (h : l.InRange) :
    ofJson? json (l.toJson json) = some l := by
  rw [ofJson?, toJson, hjson.fields]
  · simp [Usage.ofJson?_toJson hjson h.usage, Declaration.ofJson?_toJson hjson h.declaration]
  · simp

theorem Diagnostic.ofJson?_toJson (d : Diagnostic) : ofJson? json (d.toJson json) = some d := by
  rw [ofJson?, toJson, hjson.fields]
  · simp [hjson.text, DiagnosticKind.ofJson?_toJson hjson]
  · simp

/-- A list of texts is read back. -/
theorem texts_read_back (ss : List String) :
    json.list? json.text? (json.array (ss.map json.string)) = some ss :=
  hjson.list fun s _ => hjson.text s

theorem FileOrdering.ofJson?_toJson (o : FileOrdering) :
    ofJson? json (o.toJson json) = some o := by
  rw [ofJson?, toJson, hjson.fields]
  · simp [OrderMode.ofJson?_toJson hjson, texts_read_back hjson]
  · simp

theorem FileReport.ofJson?_toJson {f : FileReport} (h : f.InRange) :
    ofJson? json (f.toJson json) = some f := by
  have hdeclarations := hjson.list fun d hd =>
    Declaration.ofJson?_toJson hjson (h.declarations d hd)
  have hlinks := hjson.list fun l hl => Link.ofJson?_toJson hjson (h.links l hl)
  rw [ofJson?, toJson, hjson.fields]
  · simp [hjson.text, hdeclarations, hlinks]
  · simp

theorem ReportStats.ofJson?_toJson {s : ReportStats} (h : s.InRange) :
    ofJson? json (s.toJson json) = some s := by
  rw [ofJson?, toJson, hjson.fields]
  · simp [hjson.count h.files, hjson.count h.declarations, hjson.count h.usages,
      hjson.count h.links, hjson.count h.crossFileLinks, hjson.count h.ambiguous,
      hjson.count h.unresolved, hjson.count h.edges]
  · simp

theorem Report.ofJson?_toJson {r : Report} (h : r.InRange) :
    ofJson? json (r.toJson json) = some r := by
  have hfiles := hjson.list fun f hf => FileReport.ofJson?_toJson hjson (h.files f hf)
  have hdiagnostics : json.list? (Diagnostic.ofJson? json)
      (json.array (r.diagnostics.map (·.toJson json))) = some r.diagnostics :=
    hjson.list fun d _ => Diagnostic.ofJson?_toJson hjson d
  rw [ofJson?, toJson, contentMembers, hjson.fields]
  · simp [hjson.text, hfiles, hdiagnostics, FileOrdering.ofJson?_toJson hjson,
      ReportStats.ofJson?_toJson hjson h.stats]
  · simp

theorem Config.ofJson?_toJson (c : Config) : ofJson? json (c.toJson json) = some c := by
  have hflag (b : Bool) : json.optional? json.flag? (json.bool b) = some (some b) :=
    hjson.optional (Codec.Written.bool b : json.Written 0 _) (hjson.flag b)
  have hmode (m : OrderMode) :
      json.optional? (OrderMode.ofJson? json) (m.toJson json) = some (some m) :=
    hjson.optional (Codec.Written.word m.text : json.Written 0 _) (m.ofJson?_toJson hjson)
  rw [ofJson?, toJson, hjson.fields]
  · rcases c with ⟨_ | crossFile, _ | order, included, excluded⟩
    all_goals simp [texts_read_back hjson, hflag, hmode]
  · rcases c with ⟨_ | crossFile, _ | order, included, excluded⟩
    all_goals simp

end Readers

/-! ## Texts -/

section Texts

attribute [local simp] Codec.Written.bool Codec.Written.string Codec.Written.word
  DeclarationKind.toJson UsageKind.toJson DiagnosticKind.toJson OrderMode.toJson

variable {depth : Nat}

theorem Json.Codec.written_array {α : Type} {write : α → json.Form} {as : List α}
    (h : ∀ a ∈ as, json.Written depth (write a)) :
    json.Written (depth + 1) (json.array (as.map write)) :=
  .array (List.forall_mem_map.2 h)

/-- A list of texts can be written. -/
theorem Json.Codec.written_texts (ss : List String) :
    json.Written (depth + 1) (json.array (ss.map json.string)) :=
  written_array fun s _ => .string s

theorem Declaration.written_toJson {d : Declaration} (h : d.InRange) :
    json.Written (depth + 1) (d.toJson json) := by
  refine .object (by simp) ?_
  simp [Codec.written_small h.line, Codec.written_small h.column, Codec.written_small h.scope]

theorem Usage.written_toJson {u : Usage} (h : u.InRange) :
    json.Written (depth + 1) (u.toJson json) := by
  refine .object (by simp) ?_
  simp [Codec.written_small h.line, Codec.written_small h.column]

theorem Link.written_toJson {l : Link} (h : l.InRange) :
    json.Written (depth + 2) (l.toJson json) := by
  refine .object (by simp) ?_
  simp [Usage.written_toJson h.usage, Declaration.written_toJson h.declaration]

theorem Diagnostic.written_toJson (d : Diagnostic) : json.Written (depth + 1) (d.toJson json) := by
  refine .object (by simp) ?_
  simp

theorem FileOrdering.written_toJson (o : FileOrdering) :
    json.Written (depth + 2) (o.toJson json) := by
  refine .object (by simp) ?_
  simp [Codec.written_texts]

theorem FileReport.written_toJson {f : FileReport} (h : f.InRange) :
    json.Written (depth + 4) (f.toJson json) := by
  refine .object (by simp) ?_
  simp [Codec.written_array fun d hd => Declaration.written_toJson (h.declarations d hd),
    Codec.written_array fun l hl => Link.written_toJson (h.links l hl)]

theorem ReportStats.written_toJson {s : ReportStats} (h : s.InRange) :
    json.Written (depth + 1) (s.toJson json) := by
  refine .object (by simp) ?_
  simp [Codec.Written.number h.files, Codec.Written.number h.declarations,
    Codec.Written.number h.usages, Codec.Written.number h.links,
    Codec.Written.number h.crossFileLinks, Codec.Written.number h.ambiguous,
    Codec.Written.number h.unresolved, Codec.Written.number h.edges]

/-- Files hold links, and these hold usages and declarations, in two lists. -/
theorem Report.written_contentMembers {r : Report} (h : r.InRange) :
    ∀ m ∈ contentMembers json r.ordering r.files r.diagnostics, json.Written (depth + 5) m.2 := by
  have hdiagnostics : json.Written (depth + 5) (json.array (r.diagnostics.map (·.toJson json))) :=
    Codec.written_array fun d _ => d.written_toJson
  simp [contentMembers, FileOrdering.written_toJson, hdiagnostics,
    Codec.written_array fun f hf => FileReport.written_toJson (h.files f hf)]

theorem Report.written_toJson {r : Report} (h : r.InRange) :
    json.Written (depth + 6) (r.toJson json) := by
  refine .object (by simp [contentMembers])
    (List.forall_mem_append.2 ⟨written_contentMembers h, ?_⟩)
  simp [ReportStats.written_toJson h.stats]

theorem Config.written_toJson (c : Config) : json.Written (depth + 2) (c.toJson json) := by
  rcases c with ⟨_ | crossFile, _ | order, included, excluded⟩
  all_goals
    refine .object (by simp) ?_
    simp [Codec.written_texts]

end Texts

/-! ## Fingerprints -/

/-- The loop over the bytes puts those it comes to behind those it has. -/
theorem toList_loop (bytes : ByteArray) (i : Nat) (done : List UInt8) :
    ByteArray.toList.loop bytes i done = done.reverse ++ bytes.data.toList.drop i := by
  fun_induction ByteArray.toList.loop bytes i done with
  | case1 i done hi ih =>
    have hsize : i < bytes.data.size := hi
    have hget : bytes.get! i = bytes.data[i] := getElem!_pos bytes.data i hsize
    rw [ih, List.drop_eq_getElem_cons (l := bytes.data.toList) hi, List.reverse_cons,
      List.append_assoc, hget]
    rfl
  | case2 i done hi =>
    rw [List.drop_eq_nil_of_le (Nat.not_lt.1 hi), List.append_nil]

/-- Different texts have different bytes. -/
theorem eq_of_toUTF8_toList_eq {a b : String} (h : a.toUTF8.toList = b.toUTF8.toList) : a = b := by
  simp only [ByteArray.toList, toList_loop, List.reverse_nil, List.nil_append, List.drop_zero,
    Array.toList_inj] at h
  exact String.toByteArray_inj.1 (ByteArray.ext h)

/-- Equal bytes are taken of equal contents. -/
theorem Report.content_eq (hjson : json.Lawful) {r r' : Report} (h : r.InRange) (h' : r'.InRange)
    (hbytes : contentBytes json r.ordering r.files r.diagnostics =
      contentBytes json r'.ordering r'.files r'.diagnostics) :
    r.ordering = r'.ordering ∧ r.files = r'.files ∧ r.diagnostics = r'.diagnostics := by
  have hread {r : Report} (h : r.InRange) :
      (json.parse? (json.compact (json.object
        (contentMembers json r.ordering r.files r.diagnostics)))).bind
          (json.fields? ["ordering", "files", "diagnostics"]) =
        some [some (r.ordering.toJson json), some (json.array (r.files.map (·.toJson json))),
          some (json.array (r.diagnostics.map (·.toJson json)))] := by
    have hnames : ((contentMembers json r.ordering r.files r.diagnostics).map Prod.fst).Nodup := by
      simp [contentMembers]
    rw [hjson.reads_back (.object hnames (written_contentMembers h)), Option.bind_some,
      hjson.fields hnames]
    simp [contentMembers, List.lookup_cons]
  -- equal texts denote one form, so they give the same three fields
  have hfields := hread h
  rw [eq_of_toUTF8_toList_eq hbytes, hread h'] at hfields
  simp only [Option.some.injEq, List.cons.injEq, and_true] at hfields
  obtain ⟨hordering, hfiles, hdiagnostics⟩ := hfields
  refine ⟨Option.some_inj.1 ?_, Option.some_inj.1 ?_, Option.some_inj.1 ?_⟩
  · rw [← FileOrdering.ofJson?_toJson hjson, ← hordering, FileOrdering.ofJson?_toJson hjson]
  · rw [← hjson.list fun f hf => FileReport.ofJson?_toJson hjson (h.files f hf), ← hfiles,
      hjson.list fun f hf => FileReport.ofJson?_toJson hjson (h'.files f hf)]
  · rw [← hjson.list fun d _ => Diagnostic.ofJson?_toJson hjson d, ← hdiagnostics,
      hjson.list fun d _ => Diagnostic.ofJson?_toJson hjson d]

/-- With any library that does what is documented, declarations, usages, links,
    diagnostics, orders, files, counts and whole reports with numbers in range are
    read back from their compact texts, and so are all settings. The fingerprint of
    a report is the digest of bytes that differ whenever the order, the files or
    the diagnostics do. -/
theorem encodings_read_back {json : Codec} (hjson : json.Lawful) :
    (∀ d : Declaration, d.InRange →
      json.Lossless (Declaration.toJson json) (Declaration.ofJson? json) d) ∧
    (∀ u : Usage, u.InRange → json.Lossless (Usage.toJson json) (Usage.ofJson? json) u) ∧
    (∀ l : Link, l.InRange → json.Lossless (Link.toJson json) (Link.ofJson? json) l) ∧
    (∀ d : Diagnostic, json.Lossless (Diagnostic.toJson json) (Diagnostic.ofJson? json) d) ∧
    (∀ o : FileOrdering, json.Lossless (FileOrdering.toJson json) (FileOrdering.ofJson? json) o) ∧
    (∀ f : FileReport, f.InRange →
      json.Lossless (FileReport.toJson json) (FileReport.ofJson? json) f) ∧
    (∀ s : ReportStats, s.InRange →
      json.Lossless (ReportStats.toJson json) (ReportStats.ofJson? json) s) ∧
    (∀ r : Report, r.InRange → json.Lossless (Report.toJson json) (Report.ofJson? json) r) ∧
    (∀ c : Config, json.Lossless (Config.toJson json) (Config.ofJson? json) c) ∧
    (∀ (digest : List UInt8 → String) (r : Report),
      Job.fingerprint json digest r.ordering r.files r.diagnostics =
        digest (Report.contentBytes json r.ordering r.files r.diagnostics)) ∧
    ∀ r r' : Report, r.InRange → r'.InRange →
      r.ordering ≠ r'.ordering ∨ r.files ≠ r'.files ∨ r.diagnostics ≠ r'.diagnostics →
      Report.contentBytes json r.ordering r.files r.diagnostics ≠
        Report.contentBytes json r'.ordering r'.files r'.diagnostics := by
  refine ⟨fun d h => ?_, fun u h => ?_, fun l h => ?_, fun d => ?_, fun o => ?_, fun f h => ?_,
    fun s h => ?_, fun r h => ?_, fun c => ?_, fun digest r => rfl,
    fun r r' h h' hdiffer hbytes => ?_⟩
  · exact hjson.lossless (Declaration.written_toJson h) (Declaration.ofJson?_toJson hjson h)
  · exact hjson.lossless (Usage.written_toJson h) (Usage.ofJson?_toJson hjson h)
  · exact hjson.lossless (Link.written_toJson h) (Link.ofJson?_toJson hjson h)
  · exact hjson.lossless d.written_toJson (d.ofJson?_toJson hjson)
  · exact hjson.lossless o.written_toJson (o.ofJson?_toJson hjson)
  · exact hjson.lossless (FileReport.written_toJson h) (FileReport.ofJson?_toJson hjson h)
  · exact hjson.lossless (ReportStats.written_toJson h) (ReportStats.ofJson?_toJson hjson h)
  · exact hjson.lossless (Report.written_toJson h) (Report.ofJson?_toJson hjson h)
  · exact hjson.lossless c.written_toJson (c.ofJson?_toJson hjson)
  · obtain ⟨hordering, hfiles, hdiagnostics⟩ := Report.content_eq hjson h h' hbytes
    rcases hdiffer with hne | hne | hne
    · exact hne hordering
    · exact hne hfiles
    · exact hne hdiagnostics

/-- A report with quotes, a line break and letters outside ASCII in its texts
    and with the largest numbers, and the same report of another file. -/
theorem encodings_read_back_largest :
    let place : Declaration := ⟨"grüße", .variable, "a \"b\"\n.py", largestWord, largestWord,
      largestWord⟩
    let counts : ReportStats := ⟨largestCount, 1, 1, 1, 0, 0, 0, largestCount⟩
    let link : Link := ⟨⟨"grüße", "\\", 2, 0, .call⟩, place⟩
    let report (file : String) : Report :=
      ⟨⟨.dependency, .lexicographic, [file]⟩, [⟨file, [place], [link]⟩],
        [⟨.cycle, "a → a"⟩], counts, "0f"⟩
    let bytes (r : Report) := Report.contentBytes .standard r.ordering r.files r.diagnostics
    Codec.standard.Lossless (Report.toJson .standard) (Report.ofJson? .standard)
        (report "\u0000") ∧
      bytes (report "\u0000") ≠ bytes (report "") := by
  intro place counts link report bytes
  have hplace : place.InRange := ⟨Nat.le_refl _, Nat.le_refl _, Nat.le_refl _⟩
  have hlink : link.InRange := ⟨⟨by decide, by decide⟩, hplace⟩
  have hcounts : counts.InRange := by constructor <;> decide
  have hreport (file : String) : (report file).InRange :=
    ⟨List.forall_mem_singleton.2 ⟨List.forall_mem_singleton.2 hplace,
      List.forall_mem_singleton.2 hlink⟩, hcounts⟩
  obtain ⟨-, -, -, -, -, -, -, hread, -, -, hbytes⟩ := encodings_read_back Codec.lawful_standard
  exact ⟨hread _ (hreport _), hbytes _ _ (hreport _) (hreport _) (.inl (by decide))⟩

end CrossRef
