import Lox.Diagnostic
import Lox.Recursion
import Lox.Syntax

/-! # From tokens to trees

A recursive descent over the tokens before the first end-of-file token.  Every rule of the grammar is a
function of the rules it nests, so that the recursion is tied in three places only: `expression`,
`statement` and `declaration`, each with a depth that the number of tokens bounds.

A declaration that fails is reported and skipped up to a likely start of the next one.  Three faults are
reported without giving up on the declaration: an assignment to something that cannot be assigned to,
and too many parameters or arguments. -/

namespace Lox

/-- What is left to read: the tokens up to the end, the line of the end, and the faults so far. -/
structure Cursor where
  rest : List Token
  endLine : Nat
  errors : List ParseError
  deriving DecidableEq, Repr

namespace Cursor

/-- The start of a token list.  An end-of-file token closes it; where there is none, the list ends on
the line of its last token. -/
def ofTokens (tokens : List Token) : Cursor where
  rest := tokens.takeWhile (·.kind ≠ .eof)
  endLine :=
    match tokens.dropWhile (·.kind ≠ .eof), tokens.getLast? with
    | eof :: _, _ => eof.line
    | [], some last => last.line
    | [], none => 1
  errors := []

/-- The place of the next token. -/
def place (c : Cursor) : Place :=
  match c.rest with
  | [] => .atEnd c.endLine
  | t :: _ => .at t.toLexeme

/-- Adds a fault to those found so far. -/
def report (c : Cursor) (e : ParseError) : Cursor := { c with errors := c.errors ++ [e] }

end Cursor

/-- Reads from a cursor, and may give up with a fault. -/
abbrev Parser := EStateM ParseError Cursor

namespace Parser

variable {α β : Type}

/-! ### Single tokens -/

/-- Gives up at the next token. -/
def fail (fault : ParseFault) : Parser α := fun c => .error ⟨fault, c.place⟩ c

/-- Reports a fault and goes on. -/
def report (e : ParseError) : Parser Unit := modify (·.report e)

/-- Reports a fault at the next token and goes on. -/
def reportHere (fault : ParseFault) : Parser Unit := modify fun c => c.report ⟨fault, c.place⟩

/-- Is there no token left? -/
def atEnd : Parser Bool := return (← get).rest.isEmpty

/-- Takes the next token if its category is wanted. -/
def take? (want : Kind → Option β) : Parser (Option (β × Lexeme)) := fun c =>
  match c.rest with
  | [] => .ok none c
  | t :: rest =>
    match want t.kind with
    | some b => .ok (some (b, t.toLexeme)) { c with rest := rest }
    | none => .ok none c

/-- Takes the next token if it is of a category. -/
def accept? (kind : Kind) : Parser (Option Lexeme) := fun c =>
  match c.rest with
  | [] => .ok none c
  | t :: rest => if t.kind = kind then .ok (some t.toLexeme) { c with rest := rest } else .ok none c

/-- Takes the next token if it is of a category, and says whether it did. -/
def accept (kind : Kind) : Parser Bool := return (← accept? kind).isSome

/-- Takes the next token, which must be of a category. -/
def expect (kind : Kind) (fault : ParseFault) : Parser Lexeme := do
  match ← accept? kind with
  | some lexeme => pure lexeme
  | none => fail fault

/-- Is the next token of a category? -/
def nextIs (kind : Kind) : Parser Bool := do
  match (← get).rest with
  | [] => pure false
  | t :: _ => pure (t.kind = kind)

/-- Repeats a step until it declines, at most `limit` times. -/
def loop (step : α → Parser (Option α)) : (limit : Nat) → α → Parser α
  | 0, a => pure a
  | limit + 1, a => do
    match ← step a with
    | some b => loop step limit b
    | none => pure a

/-! ### Expressions -/

/-- The operators of a level of the grammar. -/
abbrev Level := Kind → Option BinaryOp

/-- Equality is the loosest of the levels. -/
def equality : Level
  | .bangEqual => some .notEqual
  | .equalEqual => some .equal
  | _ => none

/-- Comparison binds tighter than equality. -/
def comparison : Level
  | .greater => some .greater
  | .greaterEqual => some .greaterEqual
  | .less => some .less
  | .lessEqual => some .lessEqual
  | _ => none

/-- Sums bind tighter than comparisons. -/
def sum : Level
  | .minus => some .subtract
  | .plus => some .add
  | _ => none

/-- Products bind tighter than sums. -/
def product : Level
  | .slash => some .divide
  | .star => some .multiply
  | _ => none

/-- The operators that stand before their operand. -/
def prefixOp : Kind → Option UnaryOp
  | .bang => some .not
  | .minus => some .negate
  | _ => none

/-- The tokens that are an expression by themselves and hold a value. -/
def literalValue : Kind → Option Literal
  | .keyword .false => some (.bool false)
  | .keyword .true => some (.bool true)
  | .keyword .nil => some .nil
  | .number value => some (.number value)
  | .string value => some (.string value)
  | _ => none

/-- Operands joined by operators of one kind, which group to the left. -/
def leftJoined (op? : Kind → Option β) (join : β → Lexeme → PlainExpr → PlainExpr → PlainExpr)
    (limit : Nat) (operand : Parser PlainExpr) : Parser PlainExpr := do
  let first ← operand
  loop (fun left => do
    match ← take? op? with
    | some (op, sign) => return some (join op sign left (← operand))
    | none => return none) limit first

/-- At most this many parameters and arguments are allowed. -/
def maxArity : Nat := 255

/-- Items with commas between them, at least one; each from the 256th on is reported. -/
def commaSeparated (tooMany : ParseFault) (limit : Nat) (item : Parser α) : Parser (List α) := do
  let checked (count : Nat) : Parser α := do
    if maxArity ≤ count then reportHere tooMany
    item
  let first ← checked 0
  let items ← loop (fun items => do
    if ← accept .comma then return some ((← checked items.length) :: items)
    else return none) limit [first]
  return items.reverse

/-- The arguments of a call, after its opening parenthesis, and the closing one. -/
def arguments (limit : Nat) (nested : Parser PlainExpr) : Parser (List PlainExpr × Lexeme) := do
  let values ←
    if ← nextIs .rightParen then pure []
    else commaSeparated .tooManyArguments limit nested
  return (values, ← expect .rightParen .argumentsEnd)

/-- Literals, names and parenthesised expressions. -/
def primary (nested : Parser PlainExpr) : Parser PlainExpr := do
  if let some (value, _) ← take? literalValue then
    return .literal () value
  if let some keyword ← accept? (.keyword .super) then
    let _ ← expect .dot .superDot
    return .super ⟨(), keyword⟩ (← expect .identifier .superMethodName)
  if let some keyword ← accept? (.keyword .this) then
    return .this ⟨(), keyword⟩
  if let some name ← accept? .identifier then
    return .name ⟨(), name⟩
  if ← accept .leftParen then
    let inner ← nested
    let _ ← expect .rightParen .groupEnd
    return .group () inner
  fail .expression

/-- A primary expression followed by calls and property reads. -/
def postfixed (limit : Nat) (nested : Parser PlainExpr) : Parser PlainExpr := do
  let first ← primary nested
  loop (fun e => do
    if ← accept .leftParen then
      let (values, closing) ← arguments limit nested
      return some (.call () e closing values)
    else if ← accept .dot then
      return some (.get () e (← expect .identifier .propertyName))
    else return none) limit first

/-- Prefix operators before an operand; the one nearest to the operand applies first. -/
def prefixed (limit : Nat) (nested : Parser PlainExpr) : Parser PlainExpr := do
  let ops ← loop (fun ops => return (← take? prefixOp).map (· :: ops)) limit []
  let operand ← postfixed limit nested
  return ops.foldl (fun e (op, sign) => .unary () op sign e) operand

/-- The levels from equality down. -/
def operation (limit : Nat) (nested : Parser PlainExpr) : Parser PlainExpr :=
  leftJoined equality (.binary ()) limit <|
  leftJoined comparison (.binary ()) limit <|
  leftJoined sum (.binary ()) limit <|
  leftJoined product (.binary ()) limit <|
  prefixed limit nested

/-- The word `and` joins operations. -/
def conjunctionOp : Kind → Option LogicalOp
  | .keyword .and => some .and
  | _ => none

/-- The word `or` joins conjunctions. -/
def disjunctionOp : Kind → Option LogicalOp
  | .keyword .or => some .or
  | _ => none

/-- Operations joined by `and` and `or`. -/
def disjunction (limit : Nat) (nested : Parser PlainExpr) : Parser PlainExpr :=
  leftJoined disjunctionOp (.logical ()) limit <|
  leftJoined conjunctionOp (.logical ()) limit <|
  operation limit nested

/-- An assignment, which groups to the right, or a disjunction.  What stands before the sign is read as
an expression and must turn out to be a name or a property; if not, it stays the expression. -/
def assignment (limit : Nat) (nested : Parser PlainExpr) : Parser PlainExpr := do
  let target ← disjunction limit nested
  match ← accept? .equal with
  | none => return target
  | some sign =>
    let value ← nested
    match target with
    | .name ref => return .assign ref value
    | .get _ object name => return .set () object name value
    | _ =>
      report ⟨.assignmentTarget, .at sign⟩
      return target

/-- An expression nested at most `depth` deep. -/
def expression : (depth : Nat) → Parser PlainExpr
  | 0 => fail .expression
  | depth + 1 => fun c => relay 512 depth fun _ => assignment depth (expression depth) c

theorem expression_succ (depth : Nat) :
    expression (depth + 1) = assignment depth (expression depth) := by
  funext c
  simp [expression]

/-! ### Statements -/

/-- An expression and the semicolon after it. -/
def expressionThen (fault : ParseFault) (expr : Parser PlainExpr) : Parser PlainExpr := do
  let value ← expr
  let _ ← expect .semicolon fault
  return value

/-- An expression, unless a given token comes first. -/
def unlessNext (kind : Kind) (expr : Parser PlainExpr) : Parser (Option PlainExpr) := do
  if ← nextIs kind then return none else return some (← expr)

/-- A variable declaration, after its keyword. -/
def variableDeclaration (expr : Parser PlainExpr) : Parser PlainStmt := do
  let name ← expect .identifier .variableName
  let initializer ← if ← accept .equal then some <$> expr else pure none
  let _ ← expect .semicolon .variableEnd
  return .var name initializer

/-- Declarations up to a closing brace, after the opening one. -/
def block (limit : Nat) (decl : Parser (Option PlainStmt)) : Parser (List PlainStmt) := do
  let body ← loop (fun body => do
    if (← nextIs .rightBrace) || (← atEnd) then return none
    else return some ((← decl).toList ++ body)) limit []
  let _ ← expect .rightBrace .blockEnd
  return body.reverse

/-- A function or method, from its name on. -/
def routine (sort : Routine) (limit : Nat) (decl : Parser (Option PlainStmt)) :
    Parser (FunDecl Unit) := do
  let name ← expect .identifier (.routineName sort)
  let _ ← expect .leftParen (.parametersStart sort)
  let params ←
    if ← nextIs .rightParen then pure []
    else commaSeparated .tooManyParameters limit (expect .identifier .parameterName)
  let _ ← expect .rightParen .parametersEnd
  let _ ← expect .leftBrace (.bodyStart sort)
  return .mk name params (← block limit decl)

/-- A class, after its keyword. -/
def classDeclaration (limit : Nat) (decl : Parser (Option PlainStmt)) : Parser PlainStmt := do
  let name ← expect .identifier .className
  let superclass ←
    if ← accept .less then
      let lexeme ← expect .identifier .superclassName
      pure (some ⟨(), lexeme⟩)
    else pure none
  let _ ← expect .leftBrace .classBodyStart
  let methods ← loop (fun methods => do
    if (← nextIs .rightBrace) || (← atEnd) then return none
    else return some ((← routine .method limit decl) :: methods)) limit []
  let _ ← expect .rightBrace .classBodyEnd
  return .cls name superclass methods.reverse

/-- A loop with an initializer, a condition and an increment, written with `while`: a block of the
initializer and a loop whose body is a block of the body and the increment.  An absent condition is
true; an absent initializer or increment leaves out its block. -/
def forLoop (initializer : Option PlainStmt) (condition increment : Option PlainExpr)
    (body : PlainStmt) : PlainStmt :=
  let body := match increment with
    | some step => .block [body, .expression step]
    | none => body
  let loop := .while (condition.getD (.literal () (.bool true))) body
  match initializer with
  | some start => .block [start, loop]
  | none => loop

/-- The first clause of a `for`, with its semicolon. -/
def forInitializer (expr : Parser PlainExpr) : Parser (Option PlainStmt) := do
  if ← accept .semicolon then return none
  else if ← accept (.keyword .var) then some <$> variableDeclaration expr
  else (some ∘ .expression) <$> expressionThen .expressionEnd expr

/-- A `for` statement, after its keyword. -/
def forStatement (expr : Parser PlainExpr) (stmt : Parser PlainStmt) : Parser PlainStmt := do
  let _ ← expect .leftParen .forStart
  let initializer ← forInitializer expr
  let condition ← unlessNext .semicolon expr
  let _ ← expect .semicolon .forConditionEnd
  let increment ← unlessNext .rightParen expr
  let _ ← expect .rightParen .forClausesEnd
  return forLoop initializer condition increment (← stmt)

/-- An `if` statement, after its keyword; an `else` belongs to the nearest `if`. -/
def ifStatement (expr : Parser PlainExpr) (stmt : Parser PlainStmt) : Parser PlainStmt := do
  let _ ← expect .leftParen .ifStart
  let condition ← expr
  let _ ← expect .rightParen .ifConditionEnd
  let yes ← stmt
  let no ← if ← accept (.keyword .else_) then some <$> stmt else pure none
  return .ite condition yes no

/-- A `while` statement, after its keyword. -/
def whileStatement (expr : Parser PlainExpr) (stmt : Parser PlainStmt) : Parser PlainStmt := do
  let _ ← expect .leftParen .whileStart
  let condition ← expr
  let _ ← expect .rightParen .whileConditionEnd
  return .while condition (← stmt)

/-- A statement, given the rules for what it nests. -/
def statementWith (limit : Nat) (stmt : Parser PlainStmt) (decl : Parser (Option PlainStmt)) :
    Parser PlainStmt := do
  let expr := expression limit
  if ← accept (.keyword .for_) then forStatement expr stmt
  else if ← accept (.keyword .if_) then ifStatement expr stmt
  else if ← accept (.keyword .print) then .print <$> expressionThen .printEnd expr
  else if let some keyword ← accept? (.keyword .return_) then
    let value ← unlessNext .semicolon expr
    let _ ← expect .semicolon .returnEnd
    return .ret keyword value
  else if ← accept (.keyword .while_) then whileStatement expr stmt
  else if ← accept .leftBrace then .block <$> block limit decl
  else .expression <$> expressionThen .expressionEnd expr

/-- A declaration, given the rules for what it nests. -/
def declarationWith (limit : Nat) (stmt : Parser PlainStmt) (decl : Parser (Option PlainStmt)) :
    Parser PlainStmt := do
  if ← accept (.keyword .class_) then classDeclaration limit decl
  else if ← accept (.keyword .fun_) then .function <$> routine .function limit decl
  else if ← accept (.keyword .var) then variableDeclaration (expression limit)
  else stmt

/-! ### Recovery -/

/-- The words that start a declaration or a statement. -/
def startsStatement : Kind → Bool
  | .keyword .class_ | .keyword .fun_ | .keyword .var | .keyword .for_ | .keyword .if_
  | .keyword .while_ | .keyword .print | .keyword .return_ => true
  | _ => false

/-- Drops tokens up to one that follows a semicolon or starts a statement. -/
def skipAfter (previous : Token) : List Token → List Token
  | [] => []
  | t :: rest =>
    if previous.kind = .semicolon || startsStatement t.kind then t :: rest
    else skipAfter t rest

/-- Drops the next token, and all after it up to a likely start of a declaration. -/
def synchronize (c : Cursor) : Cursor :=
  match c.rest with
  | [] => c
  | t :: rest => { c with rest := skipAfter t rest }

/-- Reads on after a fault: reports it and skips to where a declaration may start. -/
def recovering (p : Parser α) : Parser (Option α) := fun c =>
  match p c with
  | .ok a c => .ok (some a) c
  | .error e c => .ok none (synchronize (c.report e))

mutual

/-- A statement nested at most `depth` deep. -/
def statement : (depth : Nat) → Parser PlainStmt
  | 0 => fail .expression
  | depth + 1 => fun c =>
    relay 512 depth fun _ => statementWith depth (statement depth) (declaration depth) c

/-- A declaration nested at most `depth` deep; nothing when it was faulty, which is then reported. -/
def declaration : (depth : Nat) → Parser (Option PlainStmt)
  | 0 => pure none
  | depth + 1 => fun c =>
    relay 512 depth fun _ =>
      recovering (declarationWith depth (statement depth) (declaration depth)) c

end

theorem statement_succ (depth : Nat) :
    statement (depth + 1) = statementWith depth (statement depth) (declaration depth) := by
  funext c
  simp [statement]

theorem declaration_succ (depth : Nat) :
    declaration (depth + 1) =
      recovering (declarationWith depth (statement depth) (declaration depth)) := by
  funext c
  simp [declaration]

/-! ### Whole inputs -/

/-- A depth that no parse of these tokens reaches: each level of nesting takes a token, and at most
two levels go without one. -/
def depthFor (tokens : List Token) : Nat := 2 * tokens.length + 2

/-- All declarations up to the end. -/
def declarations (depth : Nat) : Parser (List PlainStmt) := do
  let body ← loop (fun body => do
    if ← atEnd then return none
    else return some ((← declaration depth).toList ++ body)) depth []
  return body.reverse

/-- One expression, and nothing after it. -/
def soleExpression (depth : Nat) : Parser PlainExpr := do
  let e ← expression depth
  if ← atEnd then return e else fail .endOfExpression

end Parser

/-- What a parser yields from a list of tokens, or all the faults it found. -/
def runParser {α : Type} (p : Parser α) (tokens : List Token) : Except (List ParseError) α :=
  match p (Cursor.ofTokens tokens) with
  | .ok a c => if c.errors.isEmpty then .ok a else .error c.errors
  | .error e c => .error (c.errors ++ [e])

/-- Reads a list of tokens as a program. -/
def parseProgram (tokens : List Token) : Except (List ParseError) (List PlainStmt) :=
  runParser (Parser.declarations (Parser.depthFor tokens)) tokens

/-- Reads a list of tokens as one expression. -/
def parseExpression (tokens : List Token) : Except (List ParseError) PlainExpr :=
  runParser (Parser.soleExpression (Parser.depthFor tokens)) tokens

end Lox
