/-
  CrossRef.Symbol

  What files declare and use: declarations, usages, and the links from the
  one to the other.
-/
import CrossRef.Error
import CrossRef.Position

namespace CrossRef

/-- The number of a scope within one file. Zero is the module scope. -/
abbrev ScopeId := Nat

/-! ## Declarations -/

/-- What a declaration introduces. -/
inductive DeclarationKind where
  | function | classType | variable
deriving DecidableEq, Repr, Inhabited

namespace DeclarationKind

/-- The word that stands for the kind in anchors and reports. -/
def text : DeclarationKind → String
  | .function => "function"
  | .classType => "class"
  | .variable => "variable"

/-- The kind a word stands for, whatever the case of its letters. No letter
    outside ASCII has one of these words' letters as its lower case. -/
def parse (word : String) : Except Error DeclarationKind :=
  match word.toLower with
  | "function" | "fn" | "def" | "method" => .ok .function
  | "class" | "type" => .ok .classType
  | "variable" | "var" | "value" => .ok .variable
  | _ => .error (.unknownDeclarationKind word)

end DeclarationKind

/-- A name introduced by a file, with the place of the name and the scope that holds it. -/
structure Declaration where
  name : String
  kind : DeclarationKind
  file : String
  line : Nat
  column : Nat
  scope : ScopeId
deriving DecidableEq, Repr, Inhabited

namespace Declaration

def position (d : Declaration) : Position := ⟨d.line, d.column⟩

/-- Declared in the module scope, where other files can see it. -/
def isModuleScope (d : Declaration) : Bool := d.scope == 0

/-- One line for readers: what it is, its name, and where it stands. -/
def shortDescription (d : Declaration) : String :=
  s!"{d.kind.text} {d.name} ({d.file}:{d.line})"

end Declaration

/-! ## Usages -/

/-- How a name is used. -/
inductive UsageKind where
  | call | reference
deriving DecidableEq, Repr, Inhabited

namespace UsageKind

/-- The word that stands for the kind in reports. -/
def text : UsageKind → String
  | .call => "call"
  | .reference => "reference"

/-- The kind a word stands for, whatever the case of its letters. -/
def parse (word : String) : Except Error UsageKind :=
  match word.toLower with
  | "call" | "calls" => .ok .call
  | "reference" | "references" | "ref" => .ok .reference
  | _ => .error (.unknownUsageKind word)

end UsageKind

/-- A name used in a file, with the place of the name. -/
structure Usage where
  identifier : String
  file : String
  line : Nat
  column : Nat
  kind : UsageKind
deriving DecidableEq, Repr, Inhabited

namespace Usage

def position (u : Usage) : Position := ⟨u.line, u.column⟩

def isCallSite (u : Usage) : Bool := u.kind == .call

end Usage

/-! ## Links -/

/-- A usage with the one declaration it names. -/
structure Link where
  usage : Usage
  declaration : Declaration
deriving DecidableEq, Repr, Inhabited

/-- The usage and the declaration stand in different files. -/
def Link.isCrossFile (l : Link) : Bool := l.usage.file != l.declaration.file

end CrossRef
