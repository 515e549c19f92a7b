/-
  CrossRef.Syntax.Statement

  Statements, simple and compound, and the patterns of structural matching.
-/
import CrossRef.Syntax.Expression
import CrossRef.Syntax.Lexer

namespace CrossRef.Syntax

open Read

/-! ## Assignments and expression statements -/

/-- The operators that assign a changed value. -/
def augmentedOperators : List String :=
  ["+=", "-=", "*=", "/=", "@=", "//=", "%=", "**=", ">>=", "<<=", "&=", "^=", "|="]

/-- An assignment that goes on behind its targets. -/
def assignmentFrom (G : Rules) (parts : List Part) : Read Part := do
  match ← peek with
  | .word .operator "=" =>
    let left ← asTargets parts
    let sign ← operator "="
    return .build .assignment [left.as .left, sign, (← G .assigned).as .right]
  | .word .operator ":" =>
    if parts.length > 1 then failure
    let left ← asTargets parts
    let colon ← operator ":"
    let type := (← G .typeExpression).as .type
    if ← atOperator "=" then
      let sign ← operator "="
      return .build .assignment [left.as .left, colon, type, sign, (← G .assigned).as .right]
    else return .build .assignment [left.as .left, colon, type]
  | .word .operator t =>
    if augmentedOperators.contains t then
      let left ← asTargets parts
      let sign ← operator t
      return .build .augmentedAssignment
        [left.as .left, sign.as .operator, (← G .assigned).as .right]
    else failure
  | _ => failure

/-- What is assigned: values, a `yield`, or a further assignment. -/
def assigned (G : Rules) : Read Part :=
  yieldExpression G <|> do
    let parts ← commaSeparated (element G)
    match ← peek with
    | .word .operator ":" => return asExpressions parts
    | _ => assignmentFrom G parts <|> pure (asExpressions parts)

/-- Expressions, a `yield`, or an assignment. -/
def expressionStatement (G : Rules) : Read Part := do
  if ← atKeyword "yield" then return .build .expressionStatement [← yieldExpression G]
  let parts ← commaSeparated (element G)
  let assignment := do return .build .expressionStatement [← assignmentFrom G parts]
  assignment <|> pure (.build .expressionStatement parts)

/-- A reader that counts only when the statement ends behind it. -/
def wholeStatement (p : Read Part) : Read Part := do
  let part ← p
  if ← atStatementEnd then return part else failure

/-! ## Imports -/

/-- Names with dots between them. -/
def dottedName : Read Part := do
  let first ← identifier
  let more ← many do
    let dot ← operator "."
    return [dot, ← anyName]
  return .build .dottedName (first :: more.flatten)

/-- A module or name, perhaps under another name. -/
def importedName : Read Part := do
  let name ← dottedName
  if ← atKeyword "as" then
    let word ← keyword "as"
    return .build .aliasedImport [name.as .name, word, (← identifier).as .alias]
  else return name

/-- Imported names, each in the role of a name. -/
def importedNames : Read (List Part) := do
  let parts ← commaSeparated importedName
  return parts.map fun p => if p.isKind .token then p else p.as .name

/-- Imported names, with or without brackets around them. -/
def importList : Read (List Part) := do
  if ← atOperator "(" then
    let opening ← operator "("
    let names ← importedNames
    return [opening] ++ names ++ [← operator ")"]
  else importedNames

/-- The dots in front of a relative module. -/
def importDots : Read Part := do
  return .build .importDots (← many1 (operator "." <|> operator "..."))

/-- `from module import names` in its three forms. -/
def importFrom : Read Part := do
  let fromWord ← keyword "from"
  let future := do
    let module ← keyword "__future__"
    let word ← keyword "import"
    return .build .futureImportStatement ([fromWord, module, word] ++ (← importList))
  let relative := do
    let dots ← importDots
    return .build .relativeImport (dots :: (← perhaps dottedName))
  let ordinary := do
    let module := (← relative <|> dottedName).as .moduleName
    let word ← keyword "import"
    let names ← (do return [← operatorAs .wildcardImport "*"]) <|> importList
    return .build .importFromStatement ([fromWord, module, word] ++ names)
  future <|> ordinary

/-! ## Simple statements -/

/-- The keyword alone. -/
def bare (kind : Kind) (word : String) : Read Part := return .build kind [← keyword word]

/-- The keyword with names behind it. -/
def named (kind : Kind) (word : String) : Read Part := do
  let k ← keyword word
  return .build kind (k :: (← commaSeparated identifier))

/-- Expressions with commas between them, as one piece. -/
def expressions (G : Rules) : Read Part := return asExpressions (← commaSeparated (element G))

/-- `raise`, perhaps with an exception and its cause. -/
def raiseStatement (G : Rules) : Read Part := do
  let word ← keyword "raise"
  let raised ← perhaps (expressions G)
  let cause ← (do
    let source ← keyword "from"
    return [source, (← G (.expression false)).as .cause]) <|> pure []
  return .build .raiseStatement ([word] ++ raised ++ cause)

/-- The printing statement, to a given stream or not. -/
def printStatement (G : Rules) : Read Part := do
  let word ← keyword "print"
  let argument := return (← G (.expression false)).as .argument
  if ← atOperator ">>" then
    let stream := Part.build .chevron [← operator ">>", ← G (.expression false)]
    let more ← many do
      let comma ← operator ","
      return [comma, ← argument]
    return .build .printStatement
      ([word, stream] ++ more.flatten ++ (← perhaps (operator ",")))
  else return .build .printStatement (word :: (← commaSeparated argument))

/-- The statement that runs a piece of code, perhaps in given namespaces. -/
def execStatement (G : Rules) : Read Part := do
  let word ← keyword "exec"
  let code := (← strings <|> identifier).as .code
  if ← atKeyword "in" then
    let inWord ← keyword "in"
    return .build .execStatement
      ([word, code, inWord] ++ (← commaSeparated (G (.expression false))))
  else return .build .execStatement [word, code]

/-- `type name = definition` -/
def typeAlias (G : Rules) : Read Part := do
  let word ← keyword "type"
  let left ← typeExpression G
  let equals ← operator "="
  return .build .typeAliasStatement [word, left.as .left, equals, (← typeExpression G).as .right]

/-- One simple statement. Words that are keywords only here are tried as such
    where no expression statement fits. -/
def simpleStatement (G : Rules) : Read Part := do
  match ← peek with
  | .word .name "import" =>
    let word ← keyword "import"
    return .build .importStatement (word :: (← importedNames))
  | .word .name "from" => importFrom
  | .word .name "assert" =>
    let word ← keyword "assert"
    return .build .assertStatement (word :: (← commaSeparated (G (.expression false))))
  | .word .name "return" =>
    let word ← keyword "return"
    return .build .returnStatement (word :: (← perhaps (expressions G)))
  | .word .name "del" =>
    let word ← keyword "del"
    return .build .deleteStatement [word, ← expressions G]
  | .word .name "raise" => raiseStatement G
  | .word .name "pass" => bare .passStatement "pass"
  | .word .name "break" => bare .breakStatement "break"
  | .word .name "continue" => bare .continueStatement "continue"
  | .word .name "global" => named .globalStatement "global"
  | .word .name "nonlocal" => named .nonlocalStatement "nonlocal"
  | .word .name "print" =>
    if (← peekSecond) == .word .operator ">>" then printStatement G
    else wholeStatement (expressionStatement G) <|> printStatement G
  | .word .name "exec" => wholeStatement (expressionStatement G) <|> execStatement G
  | .word .name "type" => wholeStatement (typeAlias G) <|> expressionStatement G
  | _ => expressionStatement G

/-- Simple statements on one line, with the end of the line. -/
def simpleStatements (G : Rules) : Read (List Part) := do
  let first ← simpleStatement G
  let more ← many do
    let semicolon ← operator ";"
    return [semicolon, ← simpleStatement G]
  let last ← perhaps (operator ";")
  return [first] ++ more.flatten ++ last ++ [← mark .newline]

/-! ## Compound statements -/

/-- A colon and the block behind it, the block in the role `f`. -/
def body (G : Rules) (f : Field) : Read (List Part) := do
  let colon ← operator ":"
  return [colon, (← G .suite).as f]

def elseClause (G : Rules) : Read Part := do
  let word ← keyword "else"
  return (Part.build .elseClause (word :: (← body G .body))).as .alternative

def ifStatement (G : Rules) : Read Part := do
  let word ← keyword "if"
  let condition := (← G (.expression false)).as .condition
  let block ← body G .consequence
  let others ← many do
    let word ← keyword "elif"
    let condition := (← G (.expression false)).as .condition
    return (Part.build .elifClause ([word, condition] ++ (← body G .consequence))).as .alternative
  return .build .ifStatement ([word, condition] ++ block ++ others ++ (← perhaps (elseClause G)))

def whileStatement (G : Rules) : Read Part := do
  let word ← keyword "while"
  let condition := (← G (.expression false)).as .condition
  let block ← body G .body
  return .build .whileStatement ([word, condition] ++ block ++ (← perhaps (elseClause G)))

def forStatement (G : Rules) : Read Part := do
  let async ← perhaps (keyword "async")
  let word ← keyword "for"
  let left := (← targets (primaryRule G)).as .left
  let inWord ← keyword "in"
  let right := (← expressions G).as .right
  let block ← body G .body
  return .build .forStatement
    (async ++ [word, left, inWord, right] ++ block ++ (← perhaps (elseClause G)))

/-- What an `except` names: an exception, perhaps bound with `as`, perhaps starred. -/
def caught (G : Rules) : Read Part := do
  if ← atOperator "*" then
    let starred := Part.build .listSplat [← operator "*", ← G (.disjunction false)]
    asTail G false starred
  else G (.expression false)

def exceptClause (G : Rules) : Read Part := do
  let word ← keyword "except"
  let named := do
    let value := (← caught G).as .value
    if ← atOperator "," then
      let comma ← operator ","
      return [value, comma, (← G (.expression false)).as .alias]
    else return [value]
  let exception ← if ← atOperator ":" then pure [] else named
  let colon ← operator ":"
  return .build .exceptClause ([word] ++ exception ++ [colon, ← G .suite])

def tryStatement (G : Rules) : Read Part := do
  let word ← keyword "try"
  let block ← body G .body
  let handlers ← many (exceptClause G)
  let otherwise ← perhaps (elseClause G)
  let final ← perhaps do
    let word ← keyword "finally"
    let colon ← operator ":"
    return .build .finallyClause [word, colon, ← G .suite]
  return .build .tryStatement ([word] ++ block ++ handlers ++ otherwise ++ final)

/-- The context managers of a `with`. Brackets around several of them belong to the clause. -/
def withClause (G : Rules) : Read Part := do
  let item := return Part.build .withItem [(← G (.expression false)).as .value]
  let enclosed := do
    let opening ← operator "("
    let items ← commaSeparated item
    let closing ← operator ")"
    if (items.filter (·.isKind .withItem)).length < 2 then failure
    if ← atOperator ":" then return Part.build .withClause ([opening] ++ items ++ [closing])
    else failure
  enclosed <|> return .build .withClause (← commaSeparated item)

def withStatement (G : Rules) : Read Part := do
  let async ← perhaps (keyword "async")
  let word ← keyword "with"
  let clause ← withClause G
  return .build .withStatement (async ++ [word, clause] ++ (← body G .body))

/-- Type parameters in square brackets, if there are any. -/
def typeParameters (G : Rules) : Read (List Part) := do
  if ← atOperator "[" then return [(← typeParameter G).as .typeParameters] else return []

def functionDefinition (G : Rules) : Read Part := do
  let async ← perhaps (keyword "async")
  let word ← keyword "def"
  let name := (← anyName).as .name
  let types ← typeParameters G
  let opening ← operator "("
  let ps ← commaSeparatedOrNone (parameter G true)
  let parameters := (Part.build .parameters ([opening] ++ ps ++ [← operator ")"])).as .parameters
  let returns ← (do
    let arrow ← operator "->"
    return [arrow, (← G .typeExpression).as .returnType]) <|> pure []
  return .build .functionDefinition
    (async ++ [word, name] ++ types ++ [parameters] ++ returns ++ (← body G .body))

def classDefinition (G : Rules) : Read Part := do
  let word ← keyword "class"
  let name := (← anyName).as .name
  let types ← typeParameters G
  let bases ← perhaps (return (← argumentList G).as .superclasses)
  return .build .classDefinition ([word, name] ++ types ++ bases ++ (← body G .body))

def decoratedDefinition (G : Rules) : Read Part := do
  let decorators ← many1 do
    let sign ← operator "@"
    let value ← G (.expression false)
    return Part.build .decorator [sign, value, ← mark .newline]
  let definition ← classDefinition G <|> functionDefinition G
  return .build .decoratedDefinition (decorators ++ [definition.as .definition])

/-! ## Structural matching -/

/-- A pattern in brackets, as the node of kind `k`. -/
def patternsIn (G : Rules) (k : Kind) (opening closing : String) : Read Part := do
  let first ← operator opening
  let items ← commaSeparatedOrNone (G .casePattern)
  return .build k ([first] ++ items ++ [← operator closing])

/-- A starred name or a starred wildcard. -/
def splatPattern : Read Part := do
  let star ← operator "*" <|> operator "**"
  let name ← if ← atKeyword "_" then keyword "_" else identifier
  return .build .splatPattern [star, name]

/-- A pattern that is no alternative, as its pieces: a sign may stand in front of a number. -/
def closedPattern (G : Rules) (union : Read (List Part)) : Read (List Part) := do
  match ← peek with
  | .word .operator "*" | .word .operator "**" => return [← splatPattern]
  | .word .operator "[" => return [← patternsIn G .listPattern "[" "]"]
  | .word .operator "(" => return [← patternsIn G .tuplePattern "(" ")"]
  | .word .operator "\x7b" =>
    let pair := do
      let key ← union
      let colon ← operator ":"
      return key.map (·.as .key) ++ [colon, (← G .casePattern).as .value]
    let item := pair <|> return [← splatPattern]
    let opening ← operator "\x7b"
    let items ← (do
      let first ← item
      let more ← many do
        let comma ← operator ","
        return comma :: (← item)
      return first ++ more.flatten ++ (← perhaps (operator ","))) <|> pure []
    return [.build .dictPattern ([opening] ++ items ++ [← operator "\x7d"])]
  | .word .string _ => return [← strings]
  | .word .operator "-" | .word .integer _ | .word .float _ =>
    let sign ← perhaps (operator "-")
    let real ← number
    let complex := do
      let plus ← operator "+" <|> operator "-"
      return [Part.build .complexPattern (sign ++ [real, plus, ← number])]
    complex <|> pure (sign ++ [real])
  | .word .name "_" =>
    if (← peekSecond) == .word .operator "." then return [← dottedName] else return [← keyword "_"]
  | .word .name "True" | .word .name "False" | .word .name "None" => return [← nameOrConstant]
  | _ =>
    let name ← dottedName
    if ← atOperator "(" then
      let opening ← operator "("
      let items ← commaSeparatedOrNone (G .casePattern)
      return [.build .classPattern ([name, opening] ++ items ++ [← operator ")"])]
    else return [name]

/-- Alternatives with bars between them; `key` reads the keys of dictionary patterns. -/
def alternatives (G : Rules) (key : Read (List Part)) : Read (List Part) := do
  let first ← closedPattern G key
  let more ← many do
    let bar ← operator "|"
    return bar :: (← closedPattern G key)
  if more.isEmpty then return first
  else return [.build .unionPattern (first ++ more.flatten)]

/-- A pattern without a name bound to it. Keys of dictionaries hold no dictionaries. -/
def simplePattern (G : Rules) : Read (List Part) := alternatives G (alternatives G failure)

/-- A pattern, perhaps the value of a keyword, perhaps bound to a name. -/
def casePattern (G : Rules) : Read Part := do
  let keywordForm := do
    let name ← identifier
    let equals ← operator "="
    return [Part.build .keywordPattern ([name, equals] ++ (← simplePattern G))]
  let first := Part.build .casePattern (← keywordForm <|> simplePattern G)
  extend
    (fun p => do
      let word ← keyword "as"
      return .build .casePattern [.build .asPattern [p, word, ← anyName]])
    first

def caseClause (G : Rules) : Read Part := do
  let word ← keyword "case"
  let patterns ← commaSeparated (G .casePattern)
  let guard ← perhaps (return (← ifClause G false).as .guard)
  return (Part.build .caseClause ([word] ++ patterns ++ guard ++ (← body G .consequence))).as
    .alternative

/-- An empty block in place of the end of a line. -/
def emptyBlock : Read Part := do
  let l ← next
  if l.kind == .newline then return ⟨l.extras, some (.mk .block none l.span [])⟩ else failure

/-- The cases of a `match`. -/
def matchBlock (G : Rules) : Read Part := do
  let cases := do
    let opening ← mark .indent
    let clauses ← many1 (caseClause G)
    let block := Part.build .block (clauses ++ [← mark .dedent])
    return { block with leading := opening.leading ++ block.leading }
  cases <|> emptyBlock

def matchStatement (G : Rules) : Read Part := do
  let word ← keyword "match"
  let subjects ← commaSeparated (element G)
  let colon ← operator ":"
  let subjects := subjects.map fun p => if p.isKind .token then p else p.as .subject
  return .build .matchStatement ([word] ++ subjects ++ [colon, (← matchBlock G).as .body])

/-! ## Statements and blocks -/

/-- A statement as its pieces: simple statements share a line. -/
def statement (G : Rules) : Read (List Part) := do
  match ← peek with
  | .word .name "if" => return [← ifStatement G]
  | .word .name "for" => return [← forStatement G]
  | .word .name "while" => return [← whileStatement G]
  | .word .name "try" => return [← tryStatement G]
  | .word .name "with" => return [← withStatement G]
  | .word .name "def" => return [← functionDefinition G]
  | .word .name "class" => return [← classDefinition G]
  | .word .operator "@" => return [← decoratedDefinition G]
  | .word .name "match" =>
    (do return [← matchStatement G]) <|> simpleStatements G
  | .word .name "async" =>
    match ← peekSecond with
    | .word .name "def" => return [← functionDefinition G]
    | .word .name "for" => return [← forStatement G]
    | .word .name "with" => return [← withStatement G]
    | _ => simpleStatements G
  | _ => simpleStatements G

/-- A line the grammar does not know, kept as the bare words on it. -/
def unparsedLine : Read (List Part) := do
  let words ← many do
    let l ← next
    match l.kind with
    | .word kind text =>
      let named := kind != .operator && !hardKeywords.contains text
      let k : Kind :=
        if !named then .token
        else match kind with
          | .name => .identifier
          | .string => .string
          | .float => .float
          | _ => .integer
      return (⟨l.extras, some (.mk k none l.span [])⟩ : Part)
    | _ => failure
  if words.isEmpty then return [← mark .newline <|> mark .indent]
  else
    let ending ← perhaps (mark .newline)
    return [.build .unparsed words] ++ ending

/-- Statements up to the end of a block. -/
def statements (G : Rules) : Read (List Part) := do
  return (← many (statement G <|> unparsedLine)).flatten

/-- The block behind a colon: deeper lines, the rest of the line, or nothing. -/
def suite (G : Rules) : Read Part := do
  match ← peek with
  | .indent =>
    let opening ← mark .indent
    let inner ← statements G
    let block := Part.build .block (inner ++ [← mark .dedent])
    return { block with leading := opening.leading ++ block.leading }
  | .newline => emptyBlock
  | _ => return .build .block (← simpleStatements G)

/-! ## The whole grammar -/

/-- One unfolding of a recursive rule. -/
def unfoldRule (G : Rules) : Rule → Read Part
  | .expression inClause => expression G inClause
  | .disjunction inClause => disjunction G inClause
  | .negation inClause => negation G inClause
  | .binary level => binary G level
  | .typeExpression => typeExpression G
  | .assigned => assigned G
  | .suite => suite G
  | .casePattern => casePattern G

/-- The rules, unfolded at most `depth` times inside each other. -/
def rules : Nat → Rules
  | 0 => fun _ => failure
  | depth + 1 => unfoldRule (rules depth)

/-- The tree of a text. A rule comes back to itself only behind a word it has
    taken, so no nesting is deeper than the number of lexemes. -/
def parse (text : String) : Node :=
  let ls := lexemes (words text)
  let reader : Read (List Part) := do
    let inner ←
      many (statement (rules (ls.length + 1)) <|> unparsedLine <|> return [← mark .dedent])
    return inner.flatten ++ (← perhaps (mark .endOfText))
  let parts := ((reader ⟨ls, ls.length⟩).map (·.1)).getD []
  let children := parts.flatMap fun p => p.leading ++ p.node.toList
  let stop := (ls.getLast?.map (·.span)).getD default
  .mk .module none ⟨⟨0, 0⟩, stop.stop, 0, stop.stopByte⟩ children

end CrossRef.Syntax
