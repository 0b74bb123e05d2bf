import Lox.Token

/-! # Syntax trees

Expressions, statements and function declarations.  A tree is labelled by a type: the grammar yields
trees with no label (`PlainExpr`, `PlainStmt`), and `Syntax.Numbering` gives every expression node a
number of its own, so that two equal references at different places can be told apart.

Operators are stored as what they compute together with their lexeme, which is kept for diagnostics.
There is no `for` statement: the grammar writes it with a block and a `while`. -/

namespace Lox

/-- The values a program can write down. -/
inductive Literal where
  | number (value : Float)
  | string (value : String)
  | bool (value : Bool)
  | nil
  deriving DecidableEq, Repr

/-- The operators of one operand. -/
inductive UnaryOp where
  | not
  | negate
  deriving DecidableEq, Repr

/-- The operators that evaluate both operands. -/
inductive BinaryOp where
  | add | subtract | multiply | divide
  | greater | greaterEqual | less | lessEqual
  | equal | notEqual
  deriving DecidableEq, Repr

/-- The operators that may leave their second operand alone. -/
inductive LogicalOp where
  | and
  | or
  deriving DecidableEq, Repr

/-- A use of a name: the label of its node and the name's lexeme. -/
structure Reference (ι : Type) where
  id : ι
  name : Lexeme
  deriving DecidableEq, Repr

/-- Expressions, with a label at every node. -/
inductive Expr (ι : Type) where
  | literal (id : ι) (value : Literal)
  | group (id : ι) (inner : Expr ι)
  | unary (id : ι) (op : UnaryOp) (sign : Lexeme) (operand : Expr ι)
  | binary (id : ι) (op : BinaryOp) (sign : Lexeme) (left right : Expr ι)
  | logical (id : ι) (op : LogicalOp) (sign : Lexeme) (left right : Expr ι)
  | name (ref : Reference ι)
  | assign (target : Reference ι) (value : Expr ι)
  | call (id : ι) (callee : Expr ι) (closing : Lexeme) (arguments : List (Expr ι))
  | get (id : ι) (object : Expr ι) (name : Lexeme)
  | set (id : ι) (object : Expr ι) (name : Lexeme) (value : Expr ι)
  | this (ref : Reference ι)
  | super (ref : Reference ι) (method : Lexeme)
  deriving Repr

mutual

/-- Statements and declarations. -/
inductive Stmt (ι : Type) where
  | expression (value : Expr ι)
  | print (value : Expr ι)
  | var (name : Lexeme) (initializer : Option (Expr ι))
  | block (body : List (Stmt ι))
  | ite (condition : Expr ι) (yes : Stmt ι) (no : Option (Stmt ι))
  | while (condition : Expr ι) (body : Stmt ι)
  | function (decl : FunDecl ι)
  | ret (keyword : Lexeme) (value : Option (Expr ι))
  | cls (name : Lexeme) (superclass : Option (Reference ι)) (methods : List (FunDecl ι))

/-- A named function or method: its parameters and its body. -/
inductive FunDecl (ι : Type) where
  | mk (name : Lexeme) (params : List Lexeme) (body : List (Stmt ι))

end

namespace FunDecl

variable {ι : Type}

/-- The name of a declared function. -/
def name : FunDecl ι → Lexeme
  | mk name _ _ => name

/-- The parameters of a declared function. -/
def params : FunDecl ι → List Lexeme
  | mk _ params _ => params

/-- The statements of a declared function. -/
def body : FunDecl ι → List (Stmt ι)
  | mk _ _ body => body

end FunDecl

/-- An expression as the grammar yields it. -/
abbrev PlainExpr := Expr Unit

/-- A statement as the grammar yields it. -/
abbrev PlainStmt := Stmt Unit

end Lox
