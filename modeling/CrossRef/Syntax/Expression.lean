/-
  CrossRef.Syntax.Expression

  Expressions, assignment targets, parameters and annotations. Every rule that
  recurs does so through `Rules`, a family of readers for the recursive rules,
  which is tied to itself once all of them are written down.
-/
import CrossRef.Syntax.Read

namespace CrossRef.Syntax

open Read

/-- The rules that other rules come back to. -/
inductive Rule where
  /-- An expression. In a clause of a comprehension `if` begins the next
      clause, so it is not taken as a condition. -/
  | expression (inClause : Bool)
  | disjunction (inClause : Bool)
  | negation (inClause : Bool)
  /-- Operators that bind at least as tightly as the level. -/
  | binary (level : Nat)
  | typeExpression
  | assigned
  | suite
  | casePattern
deriving DecidableEq, Repr

/-- A reader for every recursive rule. -/
abbrev Rules := Rule → Read Part

/-! ## Targets -/

mutual

/-- An expression read as what an assignment binds: tuples, lists and starred
    names become patterns; calls, literals and operators are no targets. -/
def Node.toPattern? : Node → Option Node
  | .mk .identifier f s cs => some (.mk .identifier f s cs)
  | .mk .member f s cs => some (.mk .member f s cs)
  | .mk .subscript f s cs => some (.mk .subscript f s cs)
  | .mk .listSplat f s cs => return .mk .listSplatPattern f s (← patterns? cs)
  | .mk .tuple f s cs => return .mk .tuplePattern f s (← patterns? cs)
  | .mk .parenthesizedExpression f s cs => return .mk .tuplePattern f s (← patterns? cs)
  | .mk .list f s cs => return .mk .listPattern f s (← patterns? cs)
  | .mk .token f s cs => some (.mk .token f s cs)
  | .mk .comment f s cs => some (.mk .comment f s cs)
  | .mk .lineContinuation f s cs => some (.mk .lineContinuation f s cs)
  | _ => none

/-- Every node of the list as a pattern. -/
def patterns? : List Node → Option (List Node)
  | [] => some []
  | c :: cs => return (← c.toPattern?) :: (← patterns? cs)

end

/-- The piece as a target. -/
def asTarget (p : Part) : Read Part := do
  match p.node with
  | none => pure p
  | some n =>
    match n.toPattern? with
    | some pattern => pure { p with node := some pattern }
    | none => failure

/-- The only piece, or a construct of several with the commas between them. -/
def oneOrList (kind : Kind) : List Part → Part
  | [only] => only
  | parts => .build kind parts

/-- One target, or a list of them, from expressions with the commas between them. -/
def asTargets (parts : List Part) : Read Part := do
  return oneOrList .patternList (← parts.mapM asTarget)

/-- One expression, or a list of them. -/
def asExpressions (parts : List Part) : Part := oneOrList .expressionList parts

/-! ## Elements -/

/-- An expression or a starred one. -/
def element (G : Rules) : Read Part := do
  if ← atOperator "*" then
    return .build .listSplat [← operator "*", ← G (.expression false)]
  else G (.expression false)

/-- `yield`, `yield from e` or `yield` with a list of expressions. -/
def yieldExpression (G : Rules) : Read Part := do
  let word ← keyword "yield"
  let source := do return [← keyword "from", ← G (.expression false)]
  let values := do return [asExpressions (← commaSeparated (element G))]
  let body ← source <|> values <|> pure []
  return .build .yield (word :: body)

/-- What may stand between brackets: an element or a `yield`. -/
def bracketed (G : Rules) : Read Part := yieldExpression G <|> element G

/-! ## Atoms and what may follow them -/

/-- One string, or several in a row. -/
def strings : Read Part := do
  let parts ← many1 (leaf .string fun kind _ => kind == .string)
  match parts with
  | [only] => return only
  | _ => return .build .concatenatedString parts

def number : Read Part :=
  leaf .integer (fun kind _ => kind == .integer) <|> leaf .float (fun kind _ => kind == .float)

/-- A name, or one of the three constants. -/
def nameOrConstant : Read Part := do
  match ← peek with
  | .word .name "True" => leaf .trueConstant fun _ _ => true
  | .word .name "False" => leaf .falseConstant fun _ _ => true
  | .word .name "None" => leaf .noneConstant fun _ _ => true
  | _ => identifier

def attributeOf (object : Part) : Read Part := do
  let dot ← operator "."
  return .build .member [object.as .object, dot, (← anyName).as .memberName]

/-- Something that can be a target: a name with attributes and subscripts
    behind it, or targets between brackets; perhaps starred. -/
def targetWith (primary : Read Part) : Read Part := do
  if ← atOperator "*" then
    let star ← operator "*"
    return .build .listSplatPattern [star, ← asTarget (← primary)]
  else asTarget (← primary)

/-- The targets of a loop. -/
def targets (primary : Read Part) : Read Part := do
  return oneOrList .patternList (← commaSeparated (targetWith primary))

/-- `for … in …` inside a comprehension. -/
def forInClause (G : Rules) (primary : Read Part) : Read Part := do
  let async ← perhaps (keyword "async")
  let word ← keyword "for"
  let left ← targets primary
  let inWord ← keyword "in"
  let sources ← commaSeparated (return (← G (.expression true)).as .right)
  return .build .forInClause (async ++ [word, left.as .left, inWord] ++ sources)

def ifClause (G : Rules) (inClause : Bool) : Read Part := do
  return .build .ifClause [← keyword "if", ← G (.expression inClause)]

/-- The clauses of a comprehension; there is at least one, and it is a `for`. -/
def clauses (G : Rules) (primary : Read Part) : Read (List Part) := do
  let first ← forInClause G primary
  return first :: (← many (forInClause G primary <|> ifClause G true))

/-- Whether a comprehension clause begins here. -/
def atClause : Read Bool := do
  return (← atKeyword "for")
    || ((← atKeyword "async") && (← peekSecond) == .word .name "for")

/-- What stands between round brackets: nothing, one expression, several, or a generator. -/
def parenthesized (G : Rules) (primary : Read Part) : Read Part := do
  let opening ← operator "("
  if ← atOperator ")" then return .build .tuple [opening, ← operator ")"]
  let first ← bracketed G
  if ← atClause then
    let cs ← clauses G primary
    return .build .generatorExpression ([opening, first.as .body] ++ cs ++ [← operator ")"])
  if ← atOperator ")" then
    return .build .parenthesizedExpression [opening, first, ← operator ")"]
  let comma ← operator ","
  let more ← commaSeparatedOrNone (bracketed G)
  return .build .tuple ([opening, first, comma] ++ more ++ [← operator ")"])

/-- A list or a list comprehension. -/
def listDisplay (G : Rules) (primary : Read Part) : Read Part := do
  let opening ← operator "["
  if ← atOperator "]" then return .build .list [opening, ← operator "]"]
  let first ← bracketed G
  if ← atClause then
    let cs ← clauses G primary
    return .build .listComprehension ([opening, first.as .body] ++ cs ++ [← operator "]"])
  let comma ← perhaps (operator ",")
  let more ← if comma.isEmpty then pure [] else commaSeparatedOrNone (bracketed G)
  return .build .list ([opening, first] ++ comma ++ more ++ [← operator "]"])

/-- A key with its value, or a merged dictionary. -/
def entry (G : Rules) : Read Part := do
  if ← atOperator "**" then
    return .build .dictionarySplat [← operator "**", ← G (.expression false)]
  let key ← G (.expression false)
  let colon ← operator ":"
  return .build .pair [key.as .key, colon, (← G (.expression false)).as .value]

/-- A dictionary, a set, or a comprehension of either. -/
def braceDisplay (G : Rules) (primary : Read Part) : Read Part := do
  let opening ← operator "\x7b"
  if ← atOperator "\x7d" then return .build .dictionary [opening, ← operator "\x7d"]
  let entries := do
    let first ← entry G
    if ← atClause then
      let cs ← clauses G primary
      return .build .dictionaryComprehension
        ([opening, first.as .body] ++ cs ++ [← operator "\x7d"])
    let comma ← perhaps (operator ",")
    let more ← if comma.isEmpty then pure [] else commaSeparatedOrNone (entry G)
    return .build .dictionary ([opening, first] ++ comma ++ more ++ [← operator "\x7d"])
  let members := do
    let first ← bracketed G
    if ← atClause then
      let cs ← clauses G primary
      return .build .setComprehension ([opening, first.as .body] ++ cs ++ [← operator "\x7d"])
    let comma ← perhaps (operator ",")
    let more ← if comma.isEmpty then pure [] else commaSeparatedOrNone (bracketed G)
    return .build .set ([opening, first] ++ comma ++ more ++ [← operator "\x7d"])
  entries <|> members

/-- An index or a slice. -/
def subscriptItem (G : Rules) : Read Part := do
  let bound := perhaps (G (.expression false))
  let slice := do
    let lower ← bound
    let colon ← operator ":"
    let upper ← bound
    let second ← perhaps (operator ":")
    let step ← if second.isEmpty then pure [] else bound
    return .build .slice (lower ++ [colon] ++ upper ++ second ++ step)
  slice <|> element G

def subscriptOf (G : Rules) (value : Part) : Read Part := do
  let opening ← operator "["
  let items ← commaSeparated (return (← subscriptItem G).as .subscript)
  return .build .subscript ([value.as .value, opening] ++ items ++ [← operator "]"])

/-- An argument: starred, named or plain. -/
def argument (G : Rules) : Read Part := do
  if ← atOperator "**" then
    return .build .dictionarySplat [← operator "**", ← G (.expression false)]
  if (← peekSecond) == .word .operator "=" then
    let name ← identifier
    let equals ← operator "="
    return .build .keywordArgument [name.as .name, equals, (← G (.expression false)).as .value]
  element G

/-- Arguments between round brackets. -/
def argumentList (G : Rules) : Read Part := do
  let opening ← operator "("
  let arguments ← commaSeparatedOrNone (argument G)
  return .build .argumentList ([opening] ++ arguments ++ [← operator ")"])

/-- A lone generator takes the brackets of the call. -/
def generatorArgument (G : Rules) (primary : Read Part) : Read Part := do
  let opening ← operator "("
  let first ← G (.expression false)
  let cs ← clauses G primary
  return .build .generatorExpression ([opening, first.as .body] ++ cs ++ [← operator ")"])

def callOf (G : Rules) (primary : Read Part) (function : Part) : Read Part := do
  let arguments ← argumentList G <|> generatorArgument G primary
  return .build .call [function.as .function, arguments.as .arguments]

/-! ## Primaries -/

/-- An atom. `primary` reads the targets of the comprehensions in it. -/
def atom (G : Rules) (primary : Read Part) : Read Part := do
  match ← peek with
  | .word .name _ => nameOrConstant
  | .word .string _ => strings
  | .word .integer _ => number
  | .word .float _ => number
  | .word .operator "(" => parenthesized G primary
  | .word .operator "[" => listDisplay G primary
  | .word .operator "\x7b" => braceDisplay G primary
  | .word .operator "..." => operatorAs .ellipsis "..."
  | .word .operator "*" => return .build .listSplat [← operator "*", ← G (.binary 22)]
  | _ => failure

/-- The binding strength of names with attributes, subscripts and calls behind them. -/
def callLevel : Nat := 22

/-- Targets of loops are read as primaries. -/
def primaryRule (G : Rules) : Read Part := G (.binary callLevel)

/-- An atom with attributes, subscripts and calls behind it. -/
def primary (G : Rules) : Read Part := do
  extend (fun p => attributeOf p <|> subscriptOf G p <|> callOf G (primaryRule G) p)
    (← atom G (primaryRule G))

/-! ## Operators -/

/-- How tightly an operator binds. -/
def binaryLevel : String → Option Nat
  | "|" => some 14
  | "&" => some 15
  | "^" => some 16
  | "<<" => some 17
  | ">>" => some 17
  | "+" => some 18
  | "-" => some 18
  | "*" => some 19
  | "@" => some 19
  | "/" => some 19
  | "%" => some 19
  | "//" => some 19
  | "**" => some 21
  | _ => none

/-- The level of a power, which alone associates to the right. -/
def powerLevel : Nat := 21

/-- A sign, an `await`, or a primary. -/
def unary (G : Rules) : Read Part := do
  match ← peek with
  | .word .operator "+" | .word .operator "-" | .word .operator "~" =>
    let sign ← leaf .token fun _ _ => true
    return .build .unaryOperator
      [sign.as .operator, (← G (.binary powerLevel)).as .argument]
  | .word .name "await" =>
    let awaited := do return .build .await [← keyword "await", ← G (.binary powerLevel)]
    awaited <|> primary G
  | _ => primary G

/-- Operators at least as strong as `level`. -/
def binary (G : Rules) (level : Nat) : Read Part := do
  if level ≥ callLevel then primary G
  else
    extend
      (fun left => do
        match ← peek with
        | .word .operator t =>
          match binaryLevel t with
          | some l =>
            if l < level then failure
            else
              let sign ← operator t
              let right ← G (.binary (if l = powerLevel then l else l + 1))
              return .build .binaryOperator
                [left.as .left, sign.as .operator, right.as .right]
          | none => failure
        | _ => failure)
      (← unary G)

/-- The operators that compare, one word or two. -/
def comparisonSign : Read (List Part) := do
  match ← peek with
  | .word .operator t =>
    if ["<", "<=", "==", "!=", ">=", ">", "<>"].contains t then return [← operator t] else failure
  | .word .name "in" => return [← keyword "in"]
  | .word .name "not" => return [← keyword "not", ← keyword "in"]
  | .word .name "is" => return (← keyword "is") :: (← perhaps (keyword "not"))
  | _ => failure

/-- A chain of comparisons is one construct. -/
def comparison (G : Rules) : Read Part := do
  let first ← binary G 14
  let more ← many do
    let sign ← comparisonSign
    return sign ++ [← binary G 14]
  if more.isEmpty then return first
  else return .build .comparisonOperator (first :: more.flatten)

/-! ## Parameters -/

/-- A name behind one star or two, or the bare separators. -/
def splatParameter (star : String) (kind : Kind) : Read Part := do
  let sign ← operator star
  return .build kind [sign, ← identifier]

/-- A parameter with what follows it: an annotation if those are allowed, and a default. -/
def parameter (G : Rules) (annotated : Bool) : Read Part := do
  let typed : Read (List Part) := do
    if annotated && (← atOperator ":") then
      return [← operator ":", (← G .typeExpression).as .type]
    else return []
  match ← peek with
  | .word .operator "/" => operatorAs .positionalSeparator "/"
  | .word .operator "(" =>
    let tuple ← asTarget (← parenthesized G (primaryRule G))
    if ← atOperator "=" then
      let equals ← operator "="
      return .build .defaultParameter
        [tuple.as .name, equals, (← G (.expression false)).as .value]
    else return tuple
  | .word .operator "*" =>
    let starred := do
      let p ← splatParameter "*" .listSplatPattern
      let type ← typed
      return if type.isEmpty then p else .build .typedParameter (p :: type)
    starred <|> operatorAs .keywordSeparator "*"
  | .word .operator "**" =>
    let p ← splatParameter "**" .dictionarySplatPattern
    let type ← typed
    return if type.isEmpty then p else .build .typedParameter (p :: type)
  | _ =>
    let name ← identifier
    let type ← typed
    if ← atOperator "=" then
      let equals ← operator "="
      let value := (← G (.expression false)).as .value
      return .build (if type.isEmpty then .defaultParameter else .typedDefaultParameter)
        ([name.as .name] ++ type ++ [equals, value])
    else return if type.isEmpty then name else .build .typedParameter (name :: type)

/-- `lambda parameters: body`; the parameters carry no annotations. -/
def lambda (G : Rules) (inClause : Bool) : Read Part := do
  let word ← keyword "lambda"
  let ps ← commaSeparatedOrNone (parameter G false)
  let parameters := if ps.isEmpty then [] else [(Part.build .lambdaParameters ps).as .parameters]
  let colon ← operator ":"
  return .build .lambda ([word] ++ parameters ++ [colon, (← G (.expression inClause)).as .body])

/-! ## Expressions -/

/-- `name := value` -/
def namedExpression (G : Rules) (inClause : Bool) : Read Part := do
  let name ← identifier
  let sign ← operator ":="
  return .build .namedExpression [name.as .name, sign, (← G (.disjunction inClause)).as .value]

/-- `not e`, a lambda, a named expression, or a comparison. -/
def negation (G : Rules) (inClause : Bool) : Read Part := do
  match ← peek with
  | .word .name "not" =>
    return .build .notOperator [← keyword "not", (← G (.negation inClause)).as .argument]
  | .word .name "lambda" => lambda G inClause
  | .word .name _ =>
    if (← peekSecond) == .word .operator ":=" then namedExpression G inClause else comparison G
  | _ => comparison G

/-- Operands joined by a logical word, grouped to the left. -/
def joined (word : String) (operand : Read Part) : Read Part := do
  extend
    (fun left => do
      let sign ← keyword word
      return .build .booleanOperator
        [left.as .left, sign.as .operator, (← operand).as .right])
    (← operand)

def disjunction (G : Rules) (inClause : Bool) : Read Part :=
  joined "or" (joined "and" (negation G inClause))

/-- `left as target`, any number of times. -/
def asTail (G : Rules) (inClause : Bool) (left : Part) : Read Part :=
  extend
    (fun p => do
      let word ← keyword "as"
      let target := Part.build .asPatternTarget [← G (.disjunction inClause)]
      return .build .asPattern [p, word, target.as .alias])
    left

/-- An expression: alternatives joined by `or` and `and`, perhaps bound by
    `as`, perhaps chosen by a condition. -/
def expression (G : Rules) (inClause : Bool) : Read Part := do
  let value ← asTail G inClause (← disjunction G inClause)
  if !inClause && (← atKeyword "if") then
    let conditional := do
      let ifWord ← keyword "if"
      let condition ← G (.expression false)
      let elseWord ← keyword "else"
      return .build .conditionalExpression
        [value, ifWord, condition, elseWord, ← G (.expression false)]
    conditional <|> pure value
  else return value

/-! ## Annotations -/

/-- What stands in brackets behind a type name, each perhaps with a bound. -/
def typeParameter (G : Rules) : Read Part := do
  let bounded : Read Part := do
    let type ← G .typeExpression
    if ← atOperator ":" then
      let colon ← operator ":"
      let bound ← G .typeExpression
      return .build .type [.build .constrainedType [type, colon, bound]]
    else return type
  let opening ← operator "["
  let items ← commaSeparated bounded
  return .build .typeParameter ([opening] ++ items ++ [← operator "]"])

/-- A name with type parameters, perhaps a member of it or a union with more. -/
def genericType (G : Rules) : Read Part := do
  let name ← identifier
  let generic := Part.build .genericType [name, ← typeParameter G]
  let whole ← extend
    (fun p => do
      let wrapped := Part.build .type [p]
      if ← atOperator "|" then
        let sign ← operator "|"
        return .build .unionType [wrapped, sign, ← G .typeExpression]
      else
        let dot ← operator "."
        return .build .memberType [wrapped, dot, ← anyName])
    generic
  match ← peek with
  | .word .operator "(" | .word .operator "[" => failure
  | _ => return whole

/-- An annotation. A name in front of a square bracket takes type parameters;
    anything else is an expression. -/
def typeExpression (G : Rules) : Read Part := do
  let starred (star : String) : Read Part := do
    return .build .splatType [← operator star, ← identifier]
  let inner ← starred "*" <|> starred "**" <|> genericType G <|> element G
  return .build .type [inner]

end CrossRef.Syntax
