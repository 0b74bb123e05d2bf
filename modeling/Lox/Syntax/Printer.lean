import Lox.Syntax

/-! # Expressions in prefix form

`Expr.render` writes an expression with every operation in parentheses and its operator first, so that
`1 + 2 * 3` becomes `(+ 1.0 (* 2.0 3.0))`. -/

namespace Lox

/-- A literal as a tree shows it: a string without its quotes, a number in its literal text. -/
def Literal.render : Literal → String
  | .number value => Number.literalText value
  | .string value => value
  | .bool true => "true"
  | .bool false => "false"
  | .nil => "nil"

variable {ι : Type}

mutual

/-- An expression in prefix form. -/
def Expr.render : Expr ι → String
  | .literal _ value => value.render
  | .group _ inner => "(group " ++ inner.render ++ ")"
  | .unary _ _ sign operand => "(" ++ sign.text ++ " " ++ operand.render ++ ")"
  | .binary _ _ sign left right =>
    "(" ++ sign.text ++ " " ++ left.render ++ " " ++ right.render ++ ")"
  | .logical _ _ sign left right =>
    "(" ++ sign.text ++ " " ++ left.render ++ " " ++ right.render ++ ")"
  | .name ref => ref.name.text
  | .assign target value => "(= " ++ target.name.text ++ " " ++ value.render ++ ")"
  | .call _ callee _ arguments => "(call " ++ callee.render ++ Expr.renderEach arguments ++ ")"
  | .get _ object property => "(. " ++ property.text ++ " " ++ object.render ++ ")"
  | .set _ object property value =>
    "(set " ++ property.text ++ " " ++ object.render ++ " " ++ value.render ++ ")"
  | .this _ => "this"
  | .super _ method => "(super " ++ method.text ++ ")"

/-- Expressions in prefix form, each after a blank. -/
def Expr.renderEach : List (Expr ι) → String
  | [] => ""
  | e :: rest => " " ++ e.render ++ Expr.renderEach rest

end

end Lox
