/-
  CrossRef.ReportJson

  Reports, their parts and settings as JSON, in the forms of any library. Each
  type has a writer and a reader; the reader accepts what the writer produces.
-/
import CrossRef.Anchor
import CrossRef.Config
import CrossRef.Json.Codec
import CrossRef.Report
import CrossRef.Scope.Graph
import CrossRef.Text.Decimal

namespace CrossRef

open CrossRef.Json

variable (json : Codec)

/-- A place, count or scope number in a report. -/
def Json.Codec.small? : json.Form → Option Nat := json.natural? Text.Decimal.largestWord

/-- A count of a report's statistics. -/
def Json.Codec.count? : json.Form → Option Nat := json.natural? Text.Decimal.largestCount

/-! ## Words -/

/-- The case a word names among those listed. -/
def caseNamed? {α : Type} (text : α → String) (cases : List α) (v : json.Form) : Option α :=
  (json.word? v).bind fun w => cases.find? (text · == w)

namespace DeclarationKind

def toJson (k : DeclarationKind) : json.Form := json.word k.text

def ofJson? : json.Form → Option DeclarationKind :=
  caseNamed? json text [.function, .classType, .variable]

end DeclarationKind

namespace UsageKind

def toJson (k : UsageKind) : json.Form := json.word k.text

def ofJson? : json.Form → Option UsageKind := caseNamed? json text [.call, .reference]

end UsageKind

namespace ScopeKind

def toJson (k : ScopeKind) : json.Form := json.word k.text

def ofJson? : json.Form → Option ScopeKind :=
  caseNamed? json text [.module, .classBody, .function]

end ScopeKind

namespace DiagnosticKind

def toJson (k : DiagnosticKind) : json.Form := json.word k.text

def ofJson? : json.Form → Option DiagnosticKind := caseNamed? json text [.cycle, .ambiguous]

end DiagnosticKind

namespace OrderMode

def toJson (m : OrderMode) : json.Form := json.word m.text

def ofJson? : json.Form → Option OrderMode :=
  caseNamed? json text [.dependency, .dependencyRev, .lexicographic, .none]

end OrderMode

/-! ## Declarations, usages, links -/

namespace Declaration

def toJson (d : Declaration) : json.Form :=
  json.object [("name", json.string d.name), ("kind", d.kind.toJson json),
    ("file", json.string d.file), ("line", json.number d.line), ("column", json.number d.column),
    ("scope", json.number d.scope)]

def ofJson? (v : json.Form) : Option Declaration := do
  match ← json.fields? ["name", "kind", "file", "line", "column", "scope"] v with
  | [name, kind, file, line, column, scope] =>
    return ⟨← Codec.required json.text? name, ← Codec.required (DeclarationKind.ofJson? json) kind,
      ← Codec.required json.text? file, ← Codec.required json.small? line,
      ← Codec.required json.small? column, ← Codec.required json.small? scope⟩
  | _ => none

end Declaration

namespace Usage

def toJson (u : Usage) : json.Form :=
  json.object [("identifier", json.string u.identifier), ("file", json.string u.file),
    ("line", json.number u.line), ("column", json.number u.column), ("kind", u.kind.toJson json)]

def ofJson? (v : json.Form) : Option Usage := do
  match ← json.fields? ["identifier", "file", "line", "column", "kind"] v with
  | [identifier, file, line, column, kind] =>
    return ⟨← Codec.required json.text? identifier, ← Codec.required json.text? file,
      ← Codec.required json.small? line, ← Codec.required json.small? column,
      ← Codec.required (UsageKind.ofJson? json) kind⟩
  | _ => none

end Usage

namespace Link

def toJson (l : Link) : json.Form :=
  json.object [("usage", l.usage.toJson json), ("declaration", l.declaration.toJson json)]

def ofJson? (v : json.Form) : Option Link := do
  match ← json.fields? ["usage", "declaration"] v with
  | [usage, declaration] =>
    return ⟨← Codec.required (Usage.ofJson? json) usage,
      ← Codec.required (Declaration.ofJson? json) declaration⟩
  | _ => none

end Link

namespace Anchor

/-- An anchor is written as its text. -/
def toJson (a : Anchor) : json.Form := json.string a.text

def ofJson? (v : json.Form) : Option Anchor := (json.text? v).bind fun s => (parse s).toOption

end Anchor

/-! ## Reports -/

namespace Diagnostic

def toJson (d : Diagnostic) : json.Form :=
  json.object [("kind", d.kind.toJson json), ("detail", json.string d.detail)]

def ofJson? (v : json.Form) : Option Diagnostic := do
  match ← json.fields? ["kind", "detail"] v with
  | [kind, detail] =>
    return ⟨← Codec.required (DiagnosticKind.ofJson? json) kind,
      ← Codec.required json.text? detail⟩
  | _ => none

end Diagnostic

namespace FileOrdering

def toJson (o : FileOrdering) : json.Form :=
  json.object [("requested", o.requested.toJson json), ("applied", o.applied.toJson json),
    ("files", json.array (o.files.map json.string))]

def ofJson? (v : json.Form) : Option FileOrdering := do
  match ← json.fields? ["requested", "applied", "files"] v with
  | [requested, applied, files] =>
    return ⟨← Codec.required (OrderMode.ofJson? json) requested,
      ← Codec.required (OrderMode.ofJson? json) applied,
      ← Codec.required (json.list? json.text?) files⟩
  | _ => none

end FileOrdering

namespace FileReport

def toJson (r : FileReport) : json.Form :=
  json.object [("file", json.string r.file),
    ("declarations", json.array (r.declarations.map (·.toJson json))),
    ("links", json.array (r.links.map (·.toJson json)))]

def ofJson? (v : json.Form) : Option FileReport := do
  match ← json.fields? ["file", "declarations", "links"] v with
  | [file, declarations, links] =>
    return ⟨← Codec.required json.text? file,
      ← Codec.required (json.list? (Declaration.ofJson? json)) declarations,
      ← Codec.required (json.list? (Link.ofJson? json)) links⟩
  | _ => none

end FileReport

namespace ReportStats

def toJson (s : ReportStats) : json.Form :=
  json.object [("files", json.number s.files), ("declarations", json.number s.declarations),
    ("usages", json.number s.usages), ("links", json.number s.links),
    ("cross_file_links", json.number s.crossFileLinks), ("ambiguous", json.number s.ambiguous),
    ("unresolved", json.number s.unresolved), ("edges", json.number s.edges)]

def ofJson? (v : json.Form) : Option ReportStats := do
  match ← json.fields? ["files", "declarations", "usages", "links", "cross_file_links", "ambiguous",
      "unresolved", "edges"] v with
  | [files, declarations, usages, links, crossFileLinks, ambiguous, unresolved, edges] =>
    let count := Codec.required json.count?
    return ⟨← count files, ← count declarations, ← count usages, ← count links,
      ← count crossFileLinks, ← count ambiguous, ← count unresolved, ← count edges⟩
  | _ => none

end ReportStats

namespace Report

/-- The members the fingerprint is taken of. -/
def contentMembers (ordering : FileOrdering) (files : List FileReport)
    (diagnostics : List Diagnostic) : List (String × json.Form) :=
  [("ordering", ordering.toJson json), ("files", json.array (files.map (·.toJson json))),
    ("diagnostics", json.array (diagnostics.map (·.toJson json)))]

/-- The bytes the fingerprint is taken of. -/
def contentBytes (ordering : FileOrdering) (files : List FileReport)
    (diagnostics : List Diagnostic) : List UInt8 :=
  (json.compact (json.object (contentMembers json ordering files diagnostics))).toUTF8.toList

def toJson (r : Report) : json.Form :=
  json.object (contentMembers json r.ordering r.files r.diagnostics
    ++ [("stats", r.stats.toJson json), ("fingerprint", json.string r.fingerprint)])

def ofJson? (v : json.Form) : Option Report := do
  match ← json.fields? ["ordering", "files", "diagnostics", "stats", "fingerprint"] v with
  | [ordering, files, diagnostics, stats, fingerprint] =>
    return ⟨← Codec.required (FileOrdering.ofJson? json) ordering,
      ← Codec.required (json.list? (FileReport.ofJson? json)) files,
      ← Codec.required (json.list? (Diagnostic.ofJson? json)) diagnostics,
      ← Codec.required (ReportStats.ofJson? json) stats, ← Codec.required json.text? fingerprint⟩
  | _ => none

end Report

/-! ## Settings -/

namespace Config

/-- Settings that are absent are not written. -/
def toJson (c : Config) : json.Form :=
  json.object ((c.crossFile.toList.map fun b => ("cross_file", json.bool b))
    ++ (c.order.toList.map fun m => ("order", m.toJson json))
    ++ [("include", json.array (c.included.map json.string)),
      ("exclude", json.array (c.excluded.map json.string))])

def ofJson? (v : json.Form) : Option Config := do
  match ← json.fields? ["cross_file", "order", "include", "exclude"] v with
  | [crossFile, order, included, excluded] =>
    return ⟨← Codec.withDefault none (json.optional? json.flag?) crossFile,
      ← Codec.withDefault none (json.optional? (OrderMode.ofJson? json)) order,
      ← Codec.withDefault [] (json.list? json.text?) included,
      ← Codec.withDefault [] (json.list? json.text?) excluded⟩
  | _ => none

end Config

end CrossRef
