/-
  CrossRef.Adapter

  What is known of one file by itself, and the table that picks the reader
  of a file by its extension. A file that nothing reads has no declarations
  and no usages, but stays a file.
-/
import CrossRef.ExtractionWalk
import CrossRef.Path
import CrossRef.Syntax.Statement
import CrossRef.Usages

namespace CrossRef

open CrossRef.Syntax

/-! ## Analyses -/

/-- What one file declares and uses, with the scopes that say what a name means in it. -/
structure Analysis where
  declarations : Array Declaration
  usages : List Usage
  scopes : ScopeGraph

namespace Analysis

/-- The analysis of a file that nothing reads. -/
def empty : Analysis := ⟨#[], [], .empty⟩

instance : Inhabited Analysis := ⟨empty⟩

/-- The analysis of a file, given its text and its tree. -/
def ofTree (file text : String) (root : Node) : Analysis :=
  let src : Extraction.Source := ⟨file, .ofText text⟩
  let x := Extraction.ofTree src root
  ⟨x.declarations, Usages.ofTree src root x.declarations, x.scopes⟩

end Analysis

/-- A file with its analysis. -/
structure AnalyzedFile where
  file : String
  analysis : Analysis
deriving Inhabited

/-! ## Adapters -/

/-- A reader of source texts: its name, the extensions it takes, and its parser,
    which gives the tree of a text or nothing. -/
structure Adapter where
  name : String
  extensions : List String
  parse? : String → Option Node

namespace Adapter

/-- Whether the adapter takes a file, by the extension of its identifier. -/
def canHandle (a : Adapter) (file : String) : Bool :=
  match Path.extension? file with
  | some e => a.extensions.contains e
  | none => false

/-- The analysis of a file. A text without a tree is one that nothing reads. -/
def analyze (a : Adapter) (file text : String) : Analysis :=
  match a.parse? text with
  | some root => .ofTree file text root
  | none => .empty

/-- The adapter for Python modules and stubs, with the parser it has. -/
def python (parse? : String → Option Node) : Adapter := ⟨"Python", ["py", "pyi"], parse?⟩

end Adapter

/-! ## Registries -/

/-- Adapters in the order in which they are asked. -/
abbrev Registry := List Adapter

namespace Registry

/-- The registry with every adapter there is, given the parser for Python. -/
def ofParser (parse? : String → Option Node) : Registry := [.python parse?]

/-- The registry with this library's own parser. -/
def standard : Registry := .ofParser fun text => some (Syntax.parse text)

/-- The first adapter that takes a file. -/
def findAdapter? (r : Registry) (file : String) : Option Adapter :=
  r.find? (·.canHandle file)

/-- The analysis of a file by its adapter. -/
def analyze (r : Registry) (file text : String) : Analysis :=
  match r.findAdapter? file with
  | some a => a.analyze file text
  | none => .empty

end Registry

end CrossRef
