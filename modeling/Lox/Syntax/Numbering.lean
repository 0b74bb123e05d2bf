import Lox.Syntax

/-! # Numbering the nodes of a tree

`Expr.number` and `Stmt.numberAll` give every expression node a number of its own, counting up from a
given one in the order in which the nodes are written down, and return the next number. -/

namespace Lox

/-- The number of an expression node. -/
abbrev NodeId := Nat

mutual

/-- Numbers the nodes of an expression from `next` on. -/
def Expr.number (next : NodeId) : PlainExpr → Expr NodeId × NodeId
  | .literal _ value => (.literal next value, next + 1)
  | .group _ inner =>
    let (inner, last) := inner.number (next + 1)
    (.group next inner, last)
  | .unary _ op sign operand =>
    let (operand, last) := operand.number (next + 1)
    (.unary next op sign operand, last)
  | .binary _ op sign left right =>
    let (left, middle) := left.number (next + 1)
    let (right, last) := right.number middle
    (.binary next op sign left right, last)
  | .logical _ op sign left right =>
    let (left, middle) := left.number (next + 1)
    let (right, last) := right.number middle
    (.logical next op sign left right, last)
  | .name ref => (.name ⟨next, ref.name⟩, next + 1)
  | .assign target value =>
    let (value, last) := value.number (next + 1)
    (.assign ⟨next, target.name⟩ value, last)
  | .call _ callee closing arguments =>
    let (callee, middle) := callee.number (next + 1)
    let (arguments, last) := Expr.numberEach middle arguments
    (.call next callee closing arguments, last)
  | .get _ object property =>
    let (object, last) := object.number (next + 1)
    (.get next object property, last)
  | .set _ object property value =>
    let (object, middle) := object.number (next + 1)
    let (value, last) := value.number middle
    (.set next object property value, last)
  | .this ref => (.this ⟨next, ref.name⟩, next + 1)
  | .super ref method => (.super ⟨next, ref.name⟩ method, next + 1)

/-- Numbers the nodes of a list of expressions. -/
def Expr.numberEach (next : NodeId) : List PlainExpr → List (Expr NodeId) × NodeId
  | [] => ([], next)
  | e :: rest =>
    let (e, middle) := e.number next
    let (rest, last) := Expr.numberEach middle rest
    (e :: rest, last)

end

/-- Numbers the nodes of an expression that may be absent. -/
def Expr.number? (next : NodeId) : Option PlainExpr → Option (Expr NodeId) × NodeId
  | none => (none, next)
  | some e =>
    let (e, last) := e.number next
    (some e, last)

/-- Numbers a reference that may be absent. -/
def Reference.number? (next : NodeId) : Option (Reference Unit) → Option (Reference NodeId) × NodeId
  | none => (none, next)
  | some ref => (some ⟨next, ref.name⟩, next + 1)

mutual

/-- Numbers the expression nodes of a statement from `next` on. -/
def Stmt.number (next : NodeId) : PlainStmt → Stmt NodeId × NodeId
  | .expression value =>
    let (value, last) := value.number next
    (.expression value, last)
  | .print value =>
    let (value, last) := value.number next
    (.print value, last)
  | .var name initializer =>
    let (initializer, last) := Expr.number? next initializer
    (.var name initializer, last)
  | .block body =>
    let (body, last) := Stmt.numberAll next body
    (.block body, last)
  | .ite condition yes none =>
    let (condition, middle) := condition.number next
    let (yes, last) := yes.number middle
    (.ite condition yes none, last)
  | .ite condition yes (some no) =>
    let (condition, middle) := condition.number next
    let (yes, middle) := yes.number middle
    let (no, last) := no.number middle
    (.ite condition yes (some no), last)
  | .while condition body =>
    let (condition, middle) := condition.number next
    let (body, last) := body.number middle
    (.while condition body, last)
  | .function decl =>
    let (decl, last) := decl.number next
    (.function decl, last)
  | .ret keyword value =>
    let (value, last) := Expr.number? next value
    (.ret keyword value, last)
  | .cls name superclass methods =>
    let (superclass, middle) := Reference.number? next superclass
    let (methods, last) := FunDecl.numberEach middle methods
    (.cls name superclass methods, last)

/-- Numbers the expression nodes of a list of statements. -/
def Stmt.numberAll (next : NodeId) : List PlainStmt → List (Stmt NodeId) × NodeId
  | [] => ([], next)
  | s :: rest =>
    let (s, middle) := s.number next
    let (rest, last) := Stmt.numberAll middle rest
    (s :: rest, last)

/-- Numbers the expression nodes of a function. -/
def FunDecl.number (next : NodeId) : FunDecl Unit → FunDecl NodeId × NodeId
  | .mk name params body =>
    let (body, last) := Stmt.numberAll next body
    (.mk name params body, last)

/-- Numbers the expression nodes of a list of functions. -/
def FunDecl.numberEach (next : NodeId) : List (FunDecl Unit) → List (FunDecl NodeId) × NodeId
  | [] => ([], next)
  | decl :: rest =>
    let (decl, middle) := decl.number next
    let (rest, last) := FunDecl.numberEach middle rest
    (decl :: rest, last)

end

end Lox
