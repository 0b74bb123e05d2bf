import Lox.Syntax.Parser

/-! # Reading by position

The rules of the grammar once more, for a reader that stands at a position in a list of tokens: it looks at the token
there and at the one before, and moves on by one.  The list is closed by an end-of-file token, at which the reader
stays.  Three exits are told apart: a fault of the text, a look beyond the end of the list, and fuel that runs out.

A reader keeps a record, from which nothing is decided: its position at every look, and from where to where every
declaration was read. -/

namespace Lox

/-- The place of a fault at a token. -/
def Token.place (t : Token) : Place := if t.kind = .eof then .atEnd t.line else .at t.toLexeme

/-- A list of tokens that ends in an end-of-file token, which stands on the line of the last token where it is
added. -/
def closed (tokens : List Token) : List Token :=
  match tokens.getLast? with
  | some last => if last.kind = .eof then tokens else tokens ++ [Token.eof last.line]
  | none => [Token.eof 1]

/-- The ways to leave a rule before its end. -/
inductive Reader.Exit where
  | fault (e : ParseError)
  /-- There is no token at the place that was looked at. -/
  | outOfRange
  /-- The fuel ran out. -/
  | exhausted

/-- Where a reader stands, the faults so far, and the record. -/
structure Reader.State where
  position : Nat
  errors : List ParseError
  /-- The position at each look, the latest first. -/
  looks : List Nat
  /-- Where each declaration began and ended, the latest first. -/
  declared : List (Nat × Nat)

/-- Reads in a list of tokens. -/
abbrev Reader := ReaderT (List Token) (EStateM Reader.Exit Reader.State)

namespace Reader

variable {α β : Type}

open Lox.Parser (Level equality comparison sum product prefixOp literalValue conjunctionOp disjunctionOp maxArity
  forLoop startsStatement)

/-! ### Single tokens -/

/-- The token at an index. -/
def look (index : Nat) : Reader Token := fun tokens s =>
  match tokens[index]? with
  | some t => .ok t { s with looks := s.position :: s.looks }
  | none => .error .outOfRange s

/-- The token at the position. -/
def peek : Reader Token := do look (← get).position

/-- The token before the position; at the start, the first one. -/
def previous : Reader Token := do look ((← get).position - 1)

/-- Does the reader stand at an end-of-file token? -/
def atEnd : Reader Bool := return (← peek).kind = .eof

/-- Is the next token of a category? -/
def nextIs (kind : Kind) : Reader Bool := do
  if ← atEnd then return false
  else return (← peek).kind = kind

/-- Moves on by one, unless at the end, and yields the token before. -/
def advance : Reader Token := do
  unless ← atEnd do modify fun s => { s with position := s.position + 1 }
  previous

/-- Takes the next token if it is of a category, and says whether it did. -/
def accept (kind : Kind) : Reader Bool := do
  if ← nextIs kind then
    let _ ← advance
    return true
  else return false

/-- Takes the next token if it is of a category. -/
def accept? (kind : Kind) : Reader (Option Lexeme) := do
  if ← accept kind then return some (← previous).toLexeme
  else return none

/-- Takes the next token if its category is wanted. -/
def take? (want : Kind → Option β) : Reader (Option (β × Lexeme)) := do
  if ← atEnd then return none
  else match want (← peek).kind with
    | some b => return some (b, (← advance).toLexeme)
    | none => return none

/-- Gives up at the next token. -/
def fail (fault : ParseFault) : Reader α := do throw (.fault ⟨fault, (← peek).place⟩)

/-- Reports a fault and goes on. -/
def report (e : ParseError) : Reader Unit := modify fun s => { s with errors := s.errors ++ [e] }

/-- Reports a fault at the next token and goes on. -/
def reportHere (fault : ParseFault) : Reader Unit := do report ⟨fault, (← peek).place⟩

/-- Takes the next token, which must be of a category. -/
def expect (kind : Kind) (fault : ParseFault) : Reader Lexeme := do
  if ← nextIs kind then return (← advance).toLexeme
  else fail fault

/-- Repeats a step until it declines, with fuel for so many rounds. -/
def loop (step : α → Reader (Option α)) : (fuel : Nat) → α → Reader α
  | 0, _ => throw .exhausted
  | fuel + 1, a => do
    match ← step a with
    | some b => loop step fuel b
    | none => return a

/-! ### Expressions -/

def leftJoined (op? : Kind → Option β) (join : β → Lexeme → PlainExpr → PlainExpr → PlainExpr) (fuel : Nat)
    (operand : Reader PlainExpr) : Reader PlainExpr := do
  let first ← operand
  loop (fun left => do
    match ← take? op? with
    | some (op, sign) => return some (join op sign left (← operand))
    | none => return none) fuel first

def commaSeparated (tooMany : ParseFault) (fuel : Nat) (item : Reader α) : Reader (List α) := do
  let checked (count : Nat) : Reader α := do
    if maxArity ≤ count then reportHere tooMany
    item
  let first ← checked 0
  let items ← loop (fun items => do
    if ← accept .comma then return some ((← checked items.length) :: items)
    else return none) fuel [first]
  return items.reverse

def arguments (fuel : Nat) (nested : Reader PlainExpr) : Reader (List PlainExpr × Lexeme) := do
  let values ←
    if ← nextIs .rightParen then pure []
    else commaSeparated .tooManyArguments fuel nested
  return (values, ← expect .rightParen .argumentsEnd)

def primary (nested : Reader PlainExpr) : Reader PlainExpr := do
  if let some (value, _) ← take? literalValue then
    return .literal () value
  if let some keyword ← accept? (.keyword .super) then
    let _ ← expect .dot .superDot
    return .super ⟨(), keyword⟩ (← expect .identifier .superMethodName)
  if let some keyword ← accept? (.keyword .this) then
    return .this ⟨(), keyword⟩
  if let some name ← accept? .identifier then
    return .name ⟨(), name⟩
  if ← accept .leftParen then
    let inner ← nested
    let _ ← expect .rightParen .groupEnd
    return .group () inner
  fail .expression

def postfixed (fuel : Nat) (nested : Reader PlainExpr) : Reader PlainExpr := do
  let first ← primary nested
  loop (fun e => do
    if ← accept .leftParen then
      let (values, closing) ← arguments fuel nested
      return some (.call () e closing values)
    else if ← accept .dot then
      return some (.get () e (← expect .identifier .propertyName))
    else return none) fuel first

def prefixed (fuel : Nat) (nested : Reader PlainExpr) : Reader PlainExpr := do
  let ops ← loop (fun ops => return (← take? prefixOp).map (· :: ops)) fuel []
  let operand ← postfixed fuel nested
  return ops.foldl (fun e (op, sign) => .unary () op sign e) operand

def operation (fuel : Nat) (nested : Reader PlainExpr) : Reader PlainExpr :=
  leftJoined equality (.binary ()) fuel <|
  leftJoined comparison (.binary ()) fuel <|
  leftJoined sum (.binary ()) fuel <|
  leftJoined product (.binary ()) fuel <|
  prefixed fuel nested

def disjunction (fuel : Nat) (nested : Reader PlainExpr) : Reader PlainExpr :=
  leftJoined disjunctionOp (.logical ()) fuel <|
  leftJoined conjunctionOp (.logical ()) fuel <|
  operation fuel nested

def assignment (fuel : Nat) (nested : Reader PlainExpr) : Reader PlainExpr := do
  let target ← disjunction fuel nested
  match ← accept? .equal with
  | none => return target
  | some sign =>
    let value ← nested
    match target with
    | .name ref => return .assign ref value
    | .get _ object name => return .set () object name value
    | _ =>
      report ⟨.assignmentTarget, .at sign⟩
      return target

def expression : (fuel : Nat) → Reader PlainExpr
  | 0 => throw .exhausted
  | fuel + 1 => assignment fuel (expression fuel)

/-! ### Statements -/

def expressionThen (fault : ParseFault) (expr : Reader PlainExpr) : Reader PlainExpr := do
  let value ← expr
  let _ ← expect .semicolon fault
  return value

def unlessNext (kind : Kind) (expr : Reader PlainExpr) : Reader (Option PlainExpr) := do
  if ← nextIs kind then return none else return some (← expr)

def variableDeclaration (expr : Reader PlainExpr) : Reader PlainStmt := do
  let name ← expect .identifier .variableName
  let initializer ← if ← accept .equal then some <$> expr else pure none
  let _ ← expect .semicolon .variableEnd
  return .var name initializer

def block (fuel : Nat) (decl : Reader (Option PlainStmt)) : Reader (List PlainStmt) := do
  let body ← loop (fun body => do
    if (← nextIs .rightBrace) || (← atEnd) then return none
    else return some ((← decl).toList ++ body)) fuel []
  let _ ← expect .rightBrace .blockEnd
  return body.reverse

def routine (sort : Routine) (fuel : Nat) (decl : Reader (Option PlainStmt)) : Reader (FunDecl Unit) := do
  let name ← expect .identifier (.routineName sort)
  let _ ← expect .leftParen (.parametersStart sort)
  let params ←
    if ← nextIs .rightParen then pure []
    else commaSeparated .tooManyParameters fuel (expect .identifier .parameterName)
  let _ ← expect .rightParen .parametersEnd
  let _ ← expect .leftBrace (.bodyStart sort)
  return .mk name params (← block fuel decl)

def classDeclaration (fuel : Nat) (decl : Reader (Option PlainStmt)) : Reader PlainStmt := do
  let name ← expect .identifier .className
  let superclass ←
    if ← accept .less then
      let lexeme ← expect .identifier .superclassName
      pure (some ⟨(), lexeme⟩)
    else pure none
  let _ ← expect .leftBrace .classBodyStart
  let methods ← loop (fun methods => do
    if (← nextIs .rightBrace) || (← atEnd) then return none
    else return some ((← routine .method fuel decl) :: methods)) fuel []
  let _ ← expect .rightBrace .classBodyEnd
  return .cls name superclass methods.reverse

def forInitializer (expr : Reader PlainExpr) : Reader (Option PlainStmt) := do
  if ← accept .semicolon then return none
  else if ← accept (.keyword .var) then some <$> variableDeclaration expr
  else (some ∘ .expression) <$> expressionThen .expressionEnd expr

def forStatement (expr : Reader PlainExpr) (stmt : Reader PlainStmt) : Reader PlainStmt := do
  let _ ← expect .leftParen .forStart
  let initializer ← forInitializer expr
  let condition ← unlessNext .semicolon expr
  let _ ← expect .semicolon .forConditionEnd
  let increment ← unlessNext .rightParen expr
  let _ ← expect .rightParen .forClausesEnd
  return forLoop initializer condition increment (← stmt)

def ifStatement (expr : Reader PlainExpr) (stmt : Reader PlainStmt) : Reader PlainStmt := do
  let _ ← expect .leftParen .ifStart
  let condition ← expr
  let _ ← expect .rightParen .ifConditionEnd
  let yes ← stmt
  let no ← if ← accept (.keyword .else_) then some <$> stmt else pure none
  return .ite condition yes no

def whileStatement (expr : Reader PlainExpr) (stmt : Reader PlainStmt) : Reader PlainStmt := do
  let _ ← expect .leftParen .whileStart
  let condition ← expr
  let _ ← expect .rightParen .whileConditionEnd
  return .while condition (← stmt)

def statementWith (fuel : Nat) (stmt : Reader PlainStmt) (decl : Reader (Option PlainStmt)) : Reader PlainStmt := do
  let expr := expression fuel
  if ← accept (.keyword .for_) then forStatement expr stmt
  else if ← accept (.keyword .if_) then ifStatement expr stmt
  else if ← accept (.keyword .print) then .print <$> expressionThen .printEnd expr
  else if let some keyword ← accept? (.keyword .return_) then
    let value ← unlessNext .semicolon expr
    let _ ← expect .semicolon .returnEnd
    return .ret keyword value
  else if ← accept (.keyword .while_) then whileStatement expr stmt
  else if ← accept .leftBrace then .block <$> block fuel decl
  else .expression <$> expressionThen .expressionEnd expr

def declarationWith (fuel : Nat) (stmt : Reader PlainStmt) (decl : Reader (Option PlainStmt)) :
    Reader PlainStmt := do
  if ← accept (.keyword .class_) then classDeclaration fuel decl
  else if ← accept (.keyword .fun_) then .function <$> routine .function fuel decl
  else if ← accept (.keyword .var) then variableDeclaration (expression fuel)
  else stmt

/-! ### Recovery -/

/-- Moves on to a token that follows a semicolon or starts a statement, or to the end. -/
def skip : (fuel : Nat) → Reader Unit
  | 0 => throw .exhausted
  | fuel + 1 => do
    if ← atEnd then return
    else if (← previous).kind = .semicolon then return
    else if startsStatement (← peek).kind then return
    else
      let _ ← advance
      skip fuel

/-- Moves on by one, and then to a likely start of a declaration. -/
def synchronize (fuel : Nat) : Reader Unit := do
  let _ ← advance
  skip fuel

/-- Reads on after a fault: reports it and skips to where a declaration may start. -/
def recovering (fuel : Nat) (r : Reader α) : Reader (Option α) := fun tokens s =>
  match r tokens s with
  | .ok a s => .ok (some a) s
  | .error (.fault e) s => (do report e; synchronize fuel; return none : Reader (Option α)) tokens s
  | .error exit s => .error exit s

/-- Records from where to where something is read. -/
def recorded (r : Reader α) : Reader α := do
  let start := (← get).position
  let a ← r
  modify fun s => { s with declared := (start, s.position) :: s.declared }
  return a

mutual

def statement : (fuel : Nat) → Reader PlainStmt
  | 0 => throw .exhausted
  | fuel + 1 => statementWith fuel (statement fuel) (declaration fuel)

def declaration : (fuel : Nat) → Reader (Option PlainStmt)
  | 0 => throw .exhausted
  | fuel + 1 => recorded (recovering fuel (declarationWith fuel (statement fuel) (declaration fuel)))

end

/-! ### Whole inputs -/

/-- All declarations up to the end. -/
def declarations (fuel : Nat) : Reader (List PlainStmt) := do
  let body ← loop (fun body => do
    if ← atEnd then return none
    else return some ((← declaration fuel).toList ++ body)) fuel []
  return body.reverse

/-- One expression, and nothing after it. -/
def soleExpression (fuel : Nat) : Reader PlainExpr := do
  let e ← expression fuel
  if ← atEnd then return e else fail .endOfExpression

/-- The start of a list of tokens. -/
def start : State := ⟨0, [], [], []⟩

end Reader

end Lox
