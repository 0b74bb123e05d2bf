import Lox.Decimal.Notation

/-! # Tokens

The lexical categories of the language, the reserved words, and tokens: a lexeme with its category.
A string or number token carries the value it denotes.  `Token.render` is the line that shows a token. -/

namespace Lox

/-- The reserved words. -/
inductive Keyword where
  | and | class_ | else_ | false | fun_ | for_ | if_ | nil
  | or | print | return_ | super | this | true | var | while_
  deriving DecidableEq, Repr

namespace Keyword

/-- All reserved words. -/
def all : List Keyword :=
  [.and, .class_, .else_, .false, .fun_, .for_, .if_, .nil,
   .or, .print, .return_, .super, .this, .true, .var, .while_]

/-- The word itself. -/
def text : Keyword → String
  | .and => "and"
  | .class_ => "class"
  | .else_ => "else"
  | .false => "false"
  | .fun_ => "fun"
  | .for_ => "for"
  | .if_ => "if"
  | .nil => "nil"
  | .or => "or"
  | .print => "print"
  | .return_ => "return"
  | .super => "super"
  | .this => "this"
  | .true => "true"
  | .var => "var"
  | .while_ => "while"

/-- The reserved word with this text, if there is one. -/
def ofText? (s : String) : Option Keyword := all.find? (·.text == s)

/-- Every reserved word is recognised by its text. -/
theorem ofText?_text (k : Keyword) : ofText? k.text = some k := by
  cases k <;> rfl

/-- Only the text of a reserved word is recognised as that word. -/
theorem text_of_ofText? {s : String} {k : Keyword} (h : ofText? s = some k) : k.text = s := by
  simpa using List.find?_some h

end Keyword

/-- The category of a token, with the value of a string or number. -/
inductive Kind where
  | leftParen | rightParen | leftBrace | rightBrace
  | comma | dot | minus | plus | semicolon | slash | star
  | bang | bangEqual | equal | equalEqual | greater | greaterEqual | less | lessEqual
  | identifier
  | string (value : String)
  | number (value : Float)
  | keyword (word : Keyword)
  | eof
  deriving DecidableEq, Repr

/-- The name of a category, in capitals. -/
def Kind.name : Kind → String
  | .leftParen => "LEFT_PAREN"
  | .rightParen => "RIGHT_PAREN"
  | .leftBrace => "LEFT_BRACE"
  | .rightBrace => "RIGHT_BRACE"
  | .comma => "COMMA"
  | .dot => "DOT"
  | .minus => "MINUS"
  | .plus => "PLUS"
  | .semicolon => "SEMICOLON"
  | .slash => "SLASH"
  | .star => "STAR"
  | .bang => "BANG"
  | .bangEqual => "BANG_EQUAL"
  | .equal => "EQUAL"
  | .equalEqual => "EQUAL_EQUAL"
  | .greater => "GREATER"
  | .greaterEqual => "GREATER_EQUAL"
  | .less => "LESS"
  | .lessEqual => "LESS_EQUAL"
  | .identifier => "IDENTIFIER"
  | .string _ => "STRING"
  | .number _ => "NUMBER"
  | .keyword word => word.text.toUpper
  | .eof => "EOF"

/-- A piece of source text and the line on which it ends, counted from one. -/
structure Lexeme where
  text : String
  line : Nat
  deriving DecidableEq, Repr

/-- A lexeme with its category. -/
structure Token extends Lexeme where
  kind : Kind
  deriving DecidableEq, Repr

/-- The token that closes every stream. -/
def Token.eof (line : Nat) : Token := ⟨⟨"", line⟩, .eof⟩

/-- The value a token denotes, as it is shown. -/
def Kind.literal : Kind → String
  | .string value => value
  | .number value => Number.literalText value
  | _ => "null"

/-- A token on one line: its category, its lexeme and its value. -/
def Token.render (t : Token) : String :=
  t.kind.name ++ " " ++ t.text ++ " " ++ t.kind.literal

end Lox
