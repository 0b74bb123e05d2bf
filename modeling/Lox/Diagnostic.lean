import Lox.Token

/-! # Diagnostics

What can be wrong with a program, by cause, and how a cause is worded.  The first four kinds belong to a
line of the source; the last says that the output could not be written.  `Diagnostic.render` is the text
that a user sees. -/

namespace Lox

/-! ### Faults of the text -/

/-- What is wrong with a stretch of text that is no token. -/
inductive LexFault where
  | unexpectedCharacter
  | unterminatedString
  deriving DecidableEq, Repr

/-- The wording of a fault of the text. -/
def LexFault.message : LexFault → String
  | .unexpectedCharacter => "Unexpected character."
  | .unterminatedString => "Unterminated string."

/-- A fault of the text and the line on which its stretch ends. -/
structure LexError where
  fault : LexFault
  line : Nat
  deriving DecidableEq, Repr

/-! ### Faults of the grammar -/

/-- Function declarations are of two sorts, which differ in wording only. -/
inductive Routine where
  | function
  | method
  deriving DecidableEq, Repr

/-- The word for a sort of function declaration. -/
def Routine.word : Routine → String
  | .function => "function"
  | .method => "method"

/-- What the grammar asks for and the tokens do not give. -/
inductive ParseFault where
  | className
  | superclassName
  | classBodyStart
  | classBodyEnd
  | routineName (sort : Routine)
  | parametersStart (sort : Routine)
  | parameterName
  | parametersEnd
  | tooManyParameters
  | bodyStart (sort : Routine)
  | variableName
  | variableEnd
  | forStart
  | forConditionEnd
  | forClausesEnd
  | ifStart
  | ifConditionEnd
  | whileStart
  | whileConditionEnd
  | printEnd
  | returnEnd
  | expressionEnd
  | blockEnd
  | assignmentTarget
  | propertyName
  | argumentsEnd
  | tooManyArguments
  | superDot
  | superMethodName
  | groupEnd
  | expression
  | endOfExpression
  deriving DecidableEq, Repr

/-- The wording of a fault of the grammar. -/
def ParseFault.message : ParseFault → String
  | .className => "Expect class name."
  | .superclassName => "Expect superclass name."
  | .classBodyStart => "Expect '\x7b' before class body."
  | .classBodyEnd => "Expect '\x7d' after class body."
  | .routineName sort => "Expect " ++ sort.word ++ " name."
  | .parametersStart sort => "Expect '(' after " ++ sort.word ++ " name."
  | .parameterName => "Expect parameter name."
  | .parametersEnd => "Expect ')' after parameters."
  | .tooManyParameters => "Can't have more than 255 parameters."
  | .bodyStart sort => "Expect '\x7b' before " ++ sort.word ++ " body."
  | .variableName => "Expect variable name."
  | .variableEnd => "Expect ';' after variable declaration."
  | .forStart => "Expect '(' after 'for'."
  | .forConditionEnd => "Expect ';' after loop condition."
  | .forClausesEnd => "Expect ')' after for clauses."
  | .ifStart => "Expect '(' after 'if'."
  | .ifConditionEnd => "Expect ')' after if condition."
  | .whileStart => "Expect '(' after 'while'."
  | .whileConditionEnd => "Expect ')' after condition."
  | .printEnd => "Expect ';' after value."
  | .returnEnd => "Expect ';' after return value."
  | .expressionEnd => "Expect ';' after expression."
  | .blockEnd => "Expect '\x7d' after block."
  | .assignmentTarget => "Invalid assignment target."
  | .propertyName => "Expect property name after '.'."
  | .argumentsEnd => "Expect ')' after arguments."
  | .tooManyArguments => "Can't have more than 255 arguments."
  | .superDot => "Expect '.' after 'super'."
  | .superMethodName => "Expect superclass method name."
  | .groupEnd => "Expect ')' after expression."
  | .expression => "Expect expression."
  | .endOfExpression => "Expect end of expression."

/-- Where in the token stream a fault was found: at a token, or at its end. -/
inductive Place where
  | at (lexeme : Lexeme)
  | atEnd (line : Nat)
  deriving DecidableEq, Repr

/-- The line of a place. -/
def Place.line : Place → Nat
  | .at lexeme => lexeme.line
  | .atEnd line => line

/-- A place as it stands in a diagnostic. -/
def Place.text : Place → String
  | .at lexeme => " at '" ++ lexeme.text ++ "'"
  | .atEnd _ => " at end"

/-- A fault of the grammar and its place. -/
structure ParseError where
  fault : ParseFault
  place : Place
  deriving DecidableEq, Repr

/-! ### Faults of scope -/

/-- What the rules on names, classes and functions forbid. -/
inductive ScopeFault where
  | redeclared
  | readInOwnInitializer
  | returnOutsideFunction
  | inheritsFromItself
  | thisOutsideClass
  | superOutsideClass
  | superWithoutSuperclass
  deriving DecidableEq, Repr

/-- The wording of a fault of scope. -/
def ScopeFault.message : ScopeFault → String
  | .redeclared => "Already a variable with this name in this scope."
  | .readInOwnInitializer => "Can't read local variable in its own initializer."
  | .returnOutsideFunction => "Can't return from top-level code."
  | .inheritsFromItself => "A class can't inherit from itself."
  | .thisOutsideClass => "Can't use 'this' outside of a class."
  | .superOutsideClass => "Can't use 'super' outside of a class."
  | .superWithoutSuperclass => "Can't use 'super' in a class with no superclass."

/-- A fault of scope and the lexeme that has it. -/
structure ScopeError where
  fault : ScopeFault
  lexeme : Lexeme
  deriving DecidableEq, Repr

/-! ### Faults of a run -/

/-- What can go wrong while a program runs. -/
inductive RuntimeFault where
  | operandNotNumber
  | operandsNotNumbers
  | notCallable
  | arity (expected got : Nat)
  | stackOverflow
  | noProperties
  | noFields
  | undefinedProperty (name : String)
  | undefinedVariable (name : String)
  | superclassNotClass
  deriving DecidableEq, Repr

/-- The wording of a fault of a run. -/
def RuntimeFault.message : RuntimeFault → String
  | .operandNotNumber => "Operand must be a number."
  | .operandsNotNumbers => "Operands must be numbers."
  | .notCallable => "Can only call functions and classes."
  | .arity expected got =>
    "Expected " ++ toString expected ++ " arguments but got " ++ toString got ++ "."
  | .stackOverflow => "Stack overflow."
  | .noProperties => "Only instances have properties."
  | .noFields => "Only instances have fields."
  | .undefinedProperty name => "Undefined property '" ++ name ++ "'."
  | .undefinedVariable name => "Undefined variable '" ++ name ++ "'."
  | .superclassNotClass => "Superclass must be a class."

/-- A fault of a run and its line. -/
structure RuntimeError where
  fault : RuntimeFault
  line : Nat
  deriving DecidableEq, Repr

/-- Why output was refused: there is no room for it, or it cannot be passed on. -/
inductive SinkFault where
  | full
  | closed
  deriving DecidableEq, Repr

/-- The wording of a refusal. -/
def SinkFault.message : SinkFault → String
  | .full => "sink full"
  | .closed => "sink closed"

/-! ### All of them -/

/-- Anything that is reported to the user of a program. -/
inductive Diagnostic where
  | lex (e : LexError)
  | parse (e : ParseError)
  | scope (e : ScopeError)
  | runtime (e : RuntimeError)
  | sink (fault : SinkFault)
  deriving DecidableEq, Repr

namespace Diagnostic

/-- The line of a diagnostic, if it has one. -/
def line? : Diagnostic → Option Nat
  | lex e => some e.line
  | parse e => some e.place.line
  | scope e => some e.lexeme.line
  | runtime e => some e.line
  | sink _ => none

/-- The place of a static diagnostic, as it stands in its text. -/
def location : Diagnostic → String
  | parse e => e.place.text
  | scope e => (Place.at e.lexeme).text
  | _ => ""

/-- The wording of a diagnostic, without its place. -/
def message : Diagnostic → String
  | lex e => e.fault.message
  | parse e => e.fault.message
  | scope e => e.fault.message
  | runtime e => e.fault.message
  | sink fault => fault.message

/-- The line number as it stands in a text. -/
def lineTag (line : Nat) : String := "[line " ++ toString line ++ "]"

/-- The text of a diagnostic: a static one on one line after its line number, one of a run with its
line number on a second line. -/
def render (d : Diagnostic) : String :=
  match d with
  | sink fault => fault.message
  | runtime e => e.fault.message ++ "\n" ++ lineTag e.line
  | lex e => lineTag e.line ++ " Error" ++ d.location ++ ": " ++ d.message
  | parse e => lineTag e.place.line ++ " Error" ++ d.location ++ ": " ++ d.message
  | scope e => lineTag e.lexeme.line ++ " Error" ++ d.location ++ ": " ++ d.message

end Diagnostic

/-- The texts of several diagnostics, a line apart. -/
def renderAll (ds : List Diagnostic) : String := "\n".intercalate (ds.map Diagnostic.render)

end Lox
