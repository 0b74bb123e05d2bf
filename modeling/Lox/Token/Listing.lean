import Lox.Token

/-! # Listings of tokens

Tokens as indented JSON text.  A token is an object of its category, its lexeme and its line; the
category of a string or number is an object that holds the value under the category's name. -/

namespace Lox

/-- A document: texts already written, quoted texts, lists and objects. -/
inductive Document where
  | plain (text : String)
  | quoted (text : String)
  | list (items : List Document)
  | object (fields : List (String × Document))

namespace Document

/-- The hexadecimal digit of a number below sixteen, in lower case. -/
def hexDigit (n : Nat) : Char := Nat.digitChar n

/-- A character inside quotes: quotes, backslashes and control characters are escaped. -/
def escape (c : Char) : List Char :=
  if c = '"' then ['\\', '"']
  else if c = '\\' then ['\\', '\\']
  else if c = '\x08' then ['\\', 'b']
  else if c = '\x0c' then ['\\', 'f']
  else if c = '\n' then ['\\', 'n']
  else if c = '\r' then ['\\', 'r']
  else if c = '\t' then ['\\', 't']
  else if c.toNat < 32 then
    ['\\', 'u', '0', '0', hexDigit (c.toNat / 16), hexDigit (c.toNat % 16)]
  else [c]

/-- A text in quotes. -/
def quote (s : String) : String := String.ofList ('"' :: s.toList.flatMap escape ++ ['"'])

/-- The start of a line: two blanks for each level. -/
def indent (level : Nat) : String := "\n" ++ String.ofList (List.replicate (2 * level) ' ')

mutual

/-- A document whose inner lines start at a level. -/
def render (level : Nat) : Document → String
  | plain text => text
  | quoted text => quote text
  | list [] => "[]"
  | list (item :: items) =>
    "[" ++ indent (level + 1) ++ item.render (level + 1) ++ renderItems level items ++
      indent level ++ "]"
  | object [] => "\x7b\x7d"
  | object ((name, value) :: fields) =>
    "\x7b" ++ indent (level + 1) ++ quote name ++ ": " ++ value.render (level + 1) ++
      renderFields level fields ++ indent level ++ "\x7d"

/-- The items of a list after its first. -/
def renderItems (level : Nat) : List Document → String
  | [] => ""
  | item :: items =>
    "," ++ indent (level + 1) ++ item.render (level + 1) ++ renderItems level items

/-- The fields of an object after its first. -/
def renderFields (level : Nat) : List (String × Document) → String
  | [] => ""
  | (name, value) :: fields =>
    "," ++ indent (level + 1) ++ quote name ++ ": " ++ value.render (level + 1) ++
      renderFields level fields

end

end Document

/-- A category as a document. -/
def Kind.document : Kind → Document
  | .string value => .object [("STRING", .quoted value)]
  | .number value => .object [("NUMBER", .plain (Number.jsonText value))]
  | kind => .quoted kind.name

/-- A token as a document. -/
def Token.document (t : Token) : Document :=
  .object [("token_type", t.kind.document), ("lexeme", .quoted t.text),
    ("line", .plain (toString t.line))]

/-- A listing of tokens. -/
def listing (tokens : List Token) : String := (Document.list (tokens.map Token.document)).render 0

end Lox
