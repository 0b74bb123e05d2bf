import Lox.Syntax.Parser

/-! # The grammar

Which lists of tokens are texts of which trees.  Every rule of the grammar is a constructor; an
expression belongs to a grade, from assignments, which bind loosest, to primary expressions.  A statement
is dangling when it ends with an `if` that has no `else`: no `else` may follow it, so that an `else`
belongs to the nearest `if`. -/

namespace Lox

open Lox.Parser

/-! ### Expressions -/

/-- How tightly an expression binds. -/
inductive Grade where
  | assignment
  | disjunction
  | conjunction
  | equality
  | comparison
  | sum
  | product
  | unary
  | call
  | primary
  deriving DecidableEq, Repr

namespace Grade

/-- The next tighter grade. -/
def tighter : Grade → Grade
  | assignment => disjunction
  | disjunction => conjunction
  | conjunction => equality
  | equality => comparison
  | comparison => sum
  | sum => product
  | product => unary
  | unary => call
  | call => primary
  | primary => primary

/-- The operators that join two operands at a grade and evaluate both. -/
def binary? : Grade → Kind → Option BinaryOp
  | equality => Parser.equality
  | comparison => Parser.comparison
  | sum => Parser.sum
  | product => Parser.product
  | _ => fun _ => none

/-- The words that join two operands at a grade. -/
def logical? : Grade → Kind → Option LogicalOp
  | disjunction => disjunctionOp
  | conjunction => conjunctionOp
  | _ => fun _ => none

end Grade

mutual

/-- `ExprText grade ts e`: the tokens `ts` are a text of `e`, which binds at least as tightly as `grade`. -/
inductive ExprText : Grade → List Token → PlainExpr → Prop
  | literal {t : Token} {v : Literal} (h : literalValue t.kind = some v) :
      ExprText .primary [t] (.literal () v)
  | name {t : Token} (h : t.kind = .identifier) : ExprText .primary [t] (.name ⟨(), t.toLexeme⟩)
  | this {t : Token} (h : t.kind = .keyword .this) :
      ExprText .primary [t] (.this ⟨(), t.toLexeme⟩)
  | super {t d n : Token} (h : t.kind = .keyword .super) (hd : d.kind = .dot)
      (hn : n.kind = .identifier) :
      ExprText .primary [t, d, n] (.super ⟨(), t.toLexeme⟩ n.toLexeme)
  | group {l r : Token} {ts : List Token} {e : PlainExpr} (hl : l.kind = .leftParen)
      (h : ExprText .assignment ts e) (hr : r.kind = .rightParen) :
      ExprText .primary (l :: (ts ++ [r])) (.group () e)
  | call {l r : Token} {ts us : List Token} {f : PlainExpr} {args : List PlainExpr}
      (h : ExprText .call ts f) (hl : l.kind = .leftParen) (ha : ArgsText us args)
      (hr : r.kind = .rightParen) (hn : args.length ≤ maxArity) :
      ExprText .call (ts ++ l :: (us ++ [r])) (.call () f r.toLexeme args)
  | get {d n : Token} {ts : List Token} {e : PlainExpr} (h : ExprText .call ts e)
      (hd : d.kind = .dot) (hn : n.kind = .identifier) :
      ExprText .call (ts ++ [d, n]) (.get () e n.toLexeme)
  | unary {t : Token} {op : UnaryOp} {ts : List Token} {e : PlainExpr} (ht : prefixOp t.kind = some op)
      (h : ExprText .unary ts e) : ExprText .unary (t :: ts) (.unary () op t.toLexeme e)
  | binary {grade : Grade} {t : Token} {op : BinaryOp} {ts us : List Token} {a b : PlainExpr}
      (ha : ExprText grade ts a) (ht : grade.binary? t.kind = some op)
      (hb : ExprText grade.tighter us b) :
      ExprText grade (ts ++ t :: us) (.binary () op t.toLexeme a b)
  | logical {grade : Grade} {t : Token} {op : LogicalOp} {ts us : List Token} {a b : PlainExpr}
      (ha : ExprText grade ts a) (ht : grade.logical? t.kind = some op)
      (hb : ExprText grade.tighter us b) :
      ExprText grade (ts ++ t :: us) (.logical () op t.toLexeme a b)
  | assign {t : Token} {ts us : List Token} {ref : Reference Unit} {value : PlainExpr}
      (h : ExprText .disjunction ts (.name ref)) (ht : t.kind = .equal)
      (hv : ExprText .assignment us value) :
      ExprText .assignment (ts ++ t :: us) (.assign ref value)
  | set {t : Token} {ts us : List Token} {object value : PlainExpr} {property : Lexeme}
      (h : ExprText .disjunction ts (.get () object property)) (ht : t.kind = .equal)
      (hv : ExprText .assignment us value) :
      ExprText .assignment (ts ++ t :: us) (.set () object property value)
  | tighter {grade : Grade} {ts : List Token} {e : PlainExpr} (h : ExprText grade.tighter ts e) :
      ExprText grade ts e

/-- Texts of arguments: expressions with commas between them, or nothing. -/
inductive ArgsText : List Token → List PlainExpr → Prop
  | none : ArgsText [] []
  | one {ts : List Token} {e : PlainExpr} (h : ExprText .assignment ts e) : ArgsText ts [e]
  | more {c : Token} {ts us : List Token} {e e' : PlainExpr} {es : List PlainExpr}
      (h : ExprText .assignment ts e) (hc : c.kind = .comma) (hs : ArgsText us (e' :: es)) :
      ArgsText (ts ++ c :: us) (e :: e' :: es)

end

/-- Texts of an expression that may be absent. -/
inductive ExprText? : List Token → Option PlainExpr → Prop
  | none : ExprText? [] none
  | some {ts : List Token} {e : PlainExpr} (h : ExprText .assignment ts e) : ExprText? ts (some e)

/-! ### Statements -/

/-- Texts of parameters: names with commas between them, or nothing. -/
inductive ParamsText : List Token → List Lexeme → Prop
  | none : ParamsText [] []
  | one {t : Token} (h : t.kind = .identifier) : ParamsText [t] [t.toLexeme]
  | more {t c : Token} {us : List Token} {p : Lexeme} {ps : List Lexeme} (h : t.kind = .identifier)
      (hc : c.kind = .comma) (hs : ParamsText us (p :: ps)) :
      ParamsText (t :: c :: us) (t.toLexeme :: p :: ps)

/-- Texts of a variable declaration. -/
inductive VarText : List Token → PlainStmt → Prop
  | plain {k n s : Token} (hk : k.kind = .keyword .var) (hn : n.kind = .identifier)
      (hs : s.kind = .semicolon) : VarText [k, n, s] (.var n.toLexeme none)
  | initialized {k n q s : Token} {ts : List Token} {e : PlainExpr} (hk : k.kind = .keyword .var)
      (hn : n.kind = .identifier) (hq : q.kind = .equal) (h : ExprText .assignment ts e)
      (hs : s.kind = .semicolon) : VarText (k :: n :: q :: (ts ++ [s])) (.var n.toLexeme (some e))

/-- Texts of the first clause of a `for`, with its semicolon. -/
inductive StartText : List Token → Option PlainStmt → Prop
  | none {s : Token} (hs : s.kind = .semicolon) : StartText [s] none
  | var {ts : List Token} {v : PlainStmt} (h : VarText ts v) : StartText ts (some v)
  | expression {ts : List Token} {s : Token} {e : PlainExpr} (h : ExprText .assignment ts e)
      (hs : s.kind = .semicolon) : StartText (ts ++ [s]) (some (.expression e))

mutual

/-- `StmtText dangling ts s`: the tokens `ts` are a text of the statement `s`; when it is dangling, no
`else` may follow. -/
inductive StmtText : Bool → List Token → PlainStmt → Prop
  | expression {ts : List Token} {s : Token} {e : PlainExpr} (h : ExprText .assignment ts e)
      (hs : s.kind = .semicolon) : StmtText false (ts ++ [s]) (.expression e)
  | print {k s : Token} {ts : List Token} {e : PlainExpr} (hk : k.kind = .keyword .print)
      (h : ExprText .assignment ts e) (hs : s.kind = .semicolon) :
      StmtText false (k :: (ts ++ [s])) (.print e)
  | ret {k s : Token} {ts : List Token} {e : Option PlainExpr} (hk : k.kind = .keyword .return_)
      (h : ExprText? ts e) (hs : s.kind = .semicolon) :
      StmtText false (k :: (ts ++ [s])) (.ret k.toLexeme e)
  | block {l r : Token} {ts : List Token} {body : List PlainStmt} (hl : l.kind = .leftBrace)
      (h : BodyText ts body) (hr : r.kind = .rightBrace) :
      StmtText false (l :: (ts ++ [r])) (.block body)
  | ite {dangling : Bool} {k l r : Token} {ts ys : List Token} {c : PlainExpr} {yes : PlainStmt}
      (hk : k.kind = .keyword .if_) (hl : l.kind = .leftParen) (hc : ExprText .assignment ts c)
      (hr : r.kind = .rightParen) (hy : StmtText dangling ys yes) :
      StmtText true (k :: l :: (ts ++ r :: ys)) (.ite c yes none)
  | iteElse {dangling : Bool} {k l r n : Token} {ts ys ns : List Token} {c : PlainExpr}
      {yes no : PlainStmt} (hk : k.kind = .keyword .if_) (hl : l.kind = .leftParen)
      (hc : ExprText .assignment ts c) (hr : r.kind = .rightParen) (hy : StmtText false ys yes)
      (hn : n.kind = .keyword .else_) (h : StmtText dangling ns no) :
      StmtText dangling (k :: l :: (ts ++ r :: (ys ++ n :: ns))) (.ite c yes (some no))
  | while {dangling : Bool} {k l r : Token} {ts bs : List Token} {c : PlainExpr} {body : PlainStmt}
      (hk : k.kind = .keyword .while_) (hl : l.kind = .leftParen) (hc : ExprText .assignment ts c)
      (hr : r.kind = .rightParen) (hb : StmtText dangling bs body) :
      StmtText dangling (k :: l :: (ts ++ r :: bs)) (.while c body)
  | for {dangling : Bool} {k l s r : Token} {is cs us bs : List Token} {start : Option PlainStmt}
      {c step : Option PlainExpr} {body : PlainStmt} (hk : k.kind = .keyword .for_)
      (hl : l.kind = .leftParen) (hi : StartText is start) (hc : ExprText? cs c)
      (hs : s.kind = .semicolon) (hu : ExprText? us step) (hr : r.kind = .rightParen)
      (hb : StmtText dangling bs body) :
      StmtText dangling (k :: l :: (is ++ (cs ++ s :: (us ++ r :: bs)))) (forLoop start c step body)

/-- Texts of declarations and statements. -/
inductive DeclText : Bool → List Token → PlainStmt → Prop
  | base {k n l r : Token} {ts : List Token} {methods : List (FunDecl Unit)}
      (hk : k.kind = .keyword .class_) (hn : n.kind = .identifier) (hl : l.kind = .leftBrace)
      (h : MethodsText ts methods) (hr : r.kind = .rightBrace) :
      DeclText false (k :: n :: l :: (ts ++ [r])) (.cls n.toLexeme none methods)
  | derived {k n q p l r : Token} {ts : List Token} {methods : List (FunDecl Unit)}
      (hk : k.kind = .keyword .class_) (hn : n.kind = .identifier) (hq : q.kind = .less)
      (hp : p.kind = .identifier) (hl : l.kind = .leftBrace) (h : MethodsText ts methods)
      (hr : r.kind = .rightBrace) :
      DeclText false (k :: n :: q :: p :: l :: (ts ++ [r]))
        (.cls n.toLexeme (some ⟨(), p.toLexeme⟩) methods)
  | function {k : Token} {ts : List Token} {decl : FunDecl Unit} (hk : k.kind = .keyword .fun_)
      (h : RoutineText ts decl) : DeclText false (k :: ts) (.function decl)
  | var {ts : List Token} {s : PlainStmt} (h : VarText ts s) : DeclText false ts s
  | statement {dangling : Bool} {ts : List Token} {s : PlainStmt} (h : StmtText dangling ts s) :
      DeclText dangling ts s

/-- Texts of declarations in order. -/
inductive BodyText : List Token → List PlainStmt → Prop
  | nil : BodyText [] []
  | cons {dangling : Bool} {ts us : List Token} {s : PlainStmt} {body : List PlainStmt}
      (h : DeclText dangling ts s) (hs : BodyText us body) : BodyText (ts ++ us) (s :: body)

/-- Texts of a function or method, from its name on. -/
inductive RoutineText : List Token → FunDecl Unit → Prop
  | mk {n l r b e : Token} {ps ts : List Token} {params : List Lexeme} {body : List PlainStmt}
      (hn : n.kind = .identifier) (hl : l.kind = .leftParen) (hp : ParamsText ps params)
      (hm : params.length ≤ maxArity) (hr : r.kind = .rightParen) (hb : b.kind = .leftBrace)
      (h : BodyText ts body) (he : e.kind = .rightBrace) :
      RoutineText (n :: l :: (ps ++ r :: b :: (ts ++ [e]))) (.mk n.toLexeme params body)

/-- Texts of methods in order. -/
inductive MethodsText : List Token → List (FunDecl Unit) → Prop
  | nil : MethodsText [] []
  | cons {ts us : List Token} {decl : FunDecl Unit} {decls : List (FunDecl Unit)}
      (h : RoutineText ts decl) (hs : MethodsText us decls) :
      MethodsText (ts ++ us) (decl :: decls)

end

/-! ### No text is empty -/

theorem StmtText.ne_nil {dangling : Bool} {ts : List Token} {s : PlainStmt}
    (h : StmtText dangling ts s) : ts ≠ [] := by
  cases h <;> simp

theorem VarText.ne_nil {ts : List Token} {s : PlainStmt} (h : VarText ts s) : ts ≠ [] := by
  cases h <;> simp

theorem RoutineText.ne_nil {ts : List Token} {decl : FunDecl Unit} (h : RoutineText ts decl) :
    ts ≠ [] := by
  cases h
  simp

theorem DeclText.ne_nil {dangling : Bool} {ts : List Token} {s : PlainStmt}
    (h : DeclText dangling ts s) : ts ≠ [] := by
  cases h with
  | var h => exact h.ne_nil
  | statement h => exact h.ne_nil
  | _ => simp

end Lox
