/-
  CrossRef.Error

  What can go wrong, by cause, and the line of text each cause is shown as.
-/

namespace CrossRef

/-! ## Causes -/

/-- Why a text is no anchor. Texts in the causes are the offending parts. -/
inductive AnchorFault where
  | scheme
  | fragment
  | file
  | position
  | name
  | malformedPosition (text : String)
  | line (text : String)
  | column (text : String)
deriving DecidableEq, Repr

/-- Why the file system refused. -/
inductive IoFault where
  | notFound
  | notADirectory
  | isADirectory
  | linkLoop
  | nameTooLong
  | nulInName
  | notText
  | pathMissing (path : String)
deriving DecidableEq, Repr

/-- Why a text is no file pattern, and at which character that shows. -/
structure PatternFault where
  position : Nat
  reason : String
deriving DecidableEq, Repr

inductive Error where
  | invalidAnchor (fault : AnchorFault)
  | unknownDeclarationKind (text : String)
  | unknownUsageKind (text : String)
  | invalidOrderMode (text : String)
  | io (fault : IoFault)
  | malformedConfig
  | unwritableConfig
  | configExists (path : String)
  | invalidPattern (fault : PatternFault)
  | walk
deriving DecidableEq, Repr

/-! ## Wording -/

def AnchorFault.message : AnchorFault → String
  | scheme => "anchor must start with xref://"
  | fragment => "anchor must contain # fragment"
  | file => "anchor must name a file"
  | position => "fragment must contain @line:column"
  | name => "fragment must contain kind:name"
  | malformedPosition text => s!"invalid position: {text}"
  | line text => s!"invalid line number: {text}"
  | column text => s!"invalid column number: {text}"

def IoFault.message : IoFault → String
  | notFound => "No such file or directory (os error 2)"
  | notADirectory => "Not a directory (os error 20)"
  | isADirectory => "Is a directory (os error 21)"
  | linkLoop => "Too many levels of symbolic links (os error 40)"
  | nameTooLong => "File name too long (os error 36)"
  | nulInName => "file name contained an unexpected NUL byte"
  | notText => "stream did not contain valid UTF-8"
  | pathMissing path => s!"path does not exist: {path}"

def PatternFault.message (f : PatternFault) : String :=
  s!"Pattern syntax error near position {f.position}: {f.reason}"

def Error.message : Error → String
  | invalidAnchor fault => s!"Invalid URI: {fault.message}"
  | unknownDeclarationKind text => s!"Invalid URI: Unknown declaration kind: {text}"
  | unknownUsageKind text => s!"Invalid URI: Unknown usage kind: {text}"
  | invalidOrderMode text =>
    s!"Invalid order mode: {text} (expected dependency, dependency-rev, lexicographic or none)"
  | io fault => s!"IO error: {fault.message}"
  | malformedConfig => "Config error"
  | unwritableConfig => "Config serialization error"
  | configExists path => s!"Config already exists at {path} (use --force to overwrite)"
  | invalidPattern fault => s!"Invalid pattern: {fault.message}"
  | walk => "Walk error"

end CrossRef
