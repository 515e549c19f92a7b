/-
  CrossRef.Cli.Arguments

  The command line: which command it asks for, and with which options. Options
  are words behind two hyphens or letters behind one, letters may be joined,
  and a value follows its option directly, behind an equals sign or as the next
  argument.
-/
import CrossRef.Ordering

namespace CrossRef.Cli

/-! ## What can be asked for -/

inductive Format where
  | text | json
deriving DecidableEq, Repr

/-- One option with its value. -/
inductive Setting where
  | mode (m : OrderMode)
  | format (f : Format)
  | config (path : String)
  | withinFiles
  | force
  | verbose
  | version
  | help
deriving DecidableEq, Repr

/-- What a job is given on the command line. -/
structure JobRequest where
  paths : List String
  mode : Option OrderMode
  withinFiles : Bool
  format : Format
  config : Option String
deriving DecidableEq, Repr

inductive Request where
  | analyze (job : JobRequest)
  | order (job : JobRequest)
  | init (config : Option String) (force : Bool)
  | version
  | help
deriving DecidableEq, Repr

/-- Why a command line asks for nothing. -/
inductive UsageFault where
  | noCommand
  | unknownCommand (word : String)
  | unknownOption (text : String)
  | repeated (word : String)
  | noValue (word : String)
  | unexpectedValue (word : String)
  | invalidValue (word value : String)
  | unexpectedArgument (text : String)
  | noPaths
deriving DecidableEq, Repr

def UsageFault.message : UsageFault → String
  | noCommand => "a command is missing"
  | unknownCommand word => s!"unknown command: {word}"
  | unknownOption text => s!"unknown option: {text}"
  | repeated word => s!"option given twice: --{word}"
  | noValue word => s!"option without a value: --{word}"
  | unexpectedValue word => s!"option takes no value: --{word}"
  | invalidValue word value => s!"invalid value for --{word}: {value}"
  | unexpectedArgument text => s!"unexpected argument: {text}"
  | noPaths => "no paths are given"

/-! ## Options -/

/-- Whether an option stands by itself or how its value is read. -/
inductive OptionForm where
  | flag (s : Setting)
  | valued (read : String → Option Setting)

/-- An option a command knows, by its word and its letter. -/
structure OptionSpec where
  word : String
  letter : Option Char
  form : OptionForm

def pathValue? (value : String) : Option String := if value.isEmpty then none else some value

def formatValue? : String → Option Format
  | "text" => some .text
  | "json" => some .json
  | _ => none

def verboseOption : OptionSpec := ⟨"verbose", some 'v', .flag .verbose⟩
def helpOption : OptionSpec := ⟨"help", some 'h', .flag .help⟩
def configOption : OptionSpec :=
  ⟨"config", some 'c', .valued fun v => (pathValue? v).map .config⟩

/-- The options in front of the command. -/
def commonOptions : List OptionSpec :=
  [verboseOption, helpOption, ⟨"version", some 'V', .flag .version⟩]

/-- The options of the commands that run a job. -/
def jobOptions : List OptionSpec :=
  [verboseOption, helpOption, configOption,
    ⟨"mode", some 'm', .valued fun v => (OrderMode.parse v).toOption.map .mode⟩,
    ⟨"format", some 'f', .valued fun v => (formatValue? v).map .format⟩,
    ⟨"no-cross-file", none, .flag .withinFiles⟩]

/-- The options of the command that writes a starter file of settings. -/
def initOptions : List OptionSpec :=
  [verboseOption, helpOption, configOption, ⟨"force", some 'f', .flag .force⟩]

/-! ## Items -/

/-- A piece of a command line. Nothing is read behind a fault. -/
inductive Item where
  | setting (word : String) (s : Setting)
  | operand (text : String)
  | fault (f : UsageFault)
deriving DecidableEq, Repr

/-- An option with a value. -/
def valueItem (word : String) (read : String → Option Setting) (value : String) : Item :=
  match read value with
  | some s => .setting word s
  | none => .fault (.invalidValue word value)

/-- Whether an argument is taken for an option. A single hyphen is not. -/
def isOption (argument : String) : Bool :=
  match argument.toList with
  | '-' :: _ :: _ => true
  | _ => false

/-- The letters of one argument. An option that still waits for its value is returned. -/
def readLetters (specs : List OptionSpec) :
    List Char → List Item × Option (String × (String → Option Setting))
  | [] => ([], none)
  | c :: cs =>
    match specs.find? (·.letter == some c) with
    | none => ([.fault (.unknownOption (String.singleton c))], none)
    | some ⟨word, _, .flag s⟩ =>
      let (items, pending) := readLetters specs cs
      (.setting word s :: items, pending)
    | some ⟨word, _, .valued read⟩ =>
      match cs with
      | [] => ([], some (word, read))
      | '=' :: cs | cs => ([valueItem word read (String.ofList cs)], none)

/-- The word of one argument, which stands behind two hyphens. -/
def readWord (specs : List OptionSpec) (cs : List Char) :
    List Item × Option (String × (String → Option Setting)) :=
  let name := String.ofList (cs.takeWhile (· != '='))
  match specs.find? (·.word == name), cs.dropWhile (· != '=') with
  | none, _ => ([.fault (.unknownOption name)], none)
  | some ⟨word, _, .flag s⟩, [] => ([.setting word s], none)
  | some ⟨word, _, .flag _⟩, _ => ([.fault (.unexpectedValue word)], none)
  | some ⟨word, _, .valued read⟩, [] => ([], some (word, read))
  | some ⟨word, _, .valued read⟩, _ :: value =>
    ([valueItem word read (String.ofList value)], none)

/-- The items of a command line. Two hyphens by themselves end the options. -/
def readItems (specs : List OptionSpec) : List String → List Item
  | [] => []
  | argument :: arguments =>
    if argument = "--" then arguments.map .operand
    else if !isOption argument then .operand argument :: readItems specs arguments
    else
      let (items, pending) :=
        match argument.toList with
        | '-' :: '-' :: cs => readWord specs cs
        | cs => readLetters specs (cs.drop 1)
      match pending, arguments with
      | none, arguments => items ++ readItems specs arguments
      | some (word, _), [] => items ++ [.fault (.noValue word)]
      | some (word, read), value :: arguments =>
        if isOption value then items ++ [.fault (.noValue word)]
        else items ++ valueItem word read value :: readItems specs arguments

/-! ## Requests -/

/-- The options and operands of a command line. -/
structure Given where
  settings : List (String × Setting)
  operands : List String
deriving DecidableEq, Repr

/-- Collects items up to the first that asks for something by itself. No option
    may be given twice, and operands may not be empty. -/
def gather (given : Given) : List Item → Except UsageFault (Given ⊕ Request)
  | [] => .ok (.inl given)
  | .fault f :: _ => .error f
  | .setting _ .help :: _ => .ok (.inr .help)
  | .setting _ .version :: _ => .ok (.inr .version)
  | .setting word s :: items =>
    if given.settings.any (·.1 == word) then .error (.repeated word)
    else gather { given with settings := given.settings ++ [(word, s)] } items
  | .operand text :: items =>
    if text.isEmpty then .error (.unexpectedArgument text)
    else gather { given with operands := given.operands ++ [text] } items

/-- The value of the one setting of a kind. -/
def Given.value? {α : Type} (g : Given) (read : Setting → Option α) : Option α :=
  g.settings.findSome? (read ·.2)

def Given.config? (g : Given) : Option String :=
  g.value? fun | .config path => some path | _ => none

/-- Reads the arguments of a command with its options. -/
def readCommand (specs : List OptionSpec) (arguments : List String)
    (make : Given → Except UsageFault Request) : Except UsageFault Request := do
  match ← gather ⟨[], []⟩ (readItems specs arguments) with
  | .inl given => make given
  | .inr request => return request

/-- What a job is given. -/
def jobOf (g : Given) : Except UsageFault JobRequest :=
  if g.operands.isEmpty then .error .noPaths
  else .ok
    { paths := g.operands
      mode := g.value? fun | .mode m => some m | _ => none
      withinFiles := g.settings.any (·.2 == .withinFiles)
      format := (g.value? fun | .format f => some f | _ => none).getD .text
      config := g.config? }

/-- Reads what follows the options in front. -/
def readRequest : List String → Except UsageFault Request
  | [] => .error .noCommand
  | "analyze" :: arguments => readCommand jobOptions arguments fun g => (jobOf g).map .analyze
  | "order" :: arguments => readCommand jobOptions arguments fun g => (jobOf g).map .order
  | "init" :: arguments =>
    readCommand initOptions arguments fun g =>
      match g.operands with
      | [] => .ok (.init g.config? (g.settings.any (·.2 == .force)))
      | text :: _ => .error (.unexpectedArgument text)
  | ["help"] | ["help", "analyze"] | ["help", "order"] | ["help", "init"] | ["help", "help"] =>
    .ok .help
  | word :: _ => .error (.unknownCommand word)

/-- Reads a command line. -/
def Request.parse (arguments : List String) : Except UsageFault Request := do
  let front := arguments.takeWhile isOption
  match ← gather ⟨[], []⟩ (readItems commonOptions front) with
  | .inr request => return request
  | .inl _ =>
    if front.contains "--" then throw .noCommand
    else readRequest (arguments.dropWhile isOption)

end CrossRef.Cli
