import Lox.Proofs.Grammar
import Lox.Proofs.Lines
import Lox.Proofs.Relabelling

/-! # Texts with other lexemes

The grammar looks only at the categories of tokens.  So when the lexemes of a text are changed, it is a text
of the tree with its lexemes changed in the same way (`BodyText.map`). -/

namespace Lox

open Lox.Parser

section map

variable (g : Lexeme → Lexeme)

mutual

theorem ExprText.map : ∀ {grade : Grade} {ts : List Token} {e : PlainExpr}, ExprText grade ts e →
    ExprText grade (ts.map (Token.map g)) (e.map id g)
  | _, _, _, .literal h => .literal h
  | _, _, _, @ExprText.name t h => @ExprText.name (t.map g) h
  | _, _, _, @ExprText.this t h => @ExprText.this (t.map g) h
  | _, _, _, @ExprText.super t d n h hd hn => @ExprText.super (t.map g) (d.map g) (n.map g) h hd hn
  | _, _, _, @ExprText.group l r _ _ hl h hr => by
      rw [List.map_cons, List.map_append]
      exact @ExprText.group (l.map g) (r.map g) _ _ hl h.map hr
  | _, _, _, @ExprText.call l r _ _ _ args h hl ha hr hn => by
      rw [List.map_append, List.map_cons, List.map_append]
      refine @ExprText.call (l.map g) (r.map g) _ _ _ _ h.map hl ha.map hr ?_
      rwa [Expr.length_mapEach]
  | _, _, _, @ExprText.get d n _ _ h hd hn => by
      rw [List.map_append]
      exact @ExprText.get (d.map g) (n.map g) _ _ h.map hd hn
  | _, _, _, @ExprText.unary t _ _ _ ht h => @ExprText.unary (t.map g) _ _ _ ht h.map
  | _, _, _, @ExprText.binary _ t _ _ _ _ _ ha ht hb => by
      rw [List.map_append, List.map_cons]
      exact @ExprText.binary _ (t.map g) _ _ _ _ _ ha.map ht hb.map
  | _, _, _, @ExprText.logical _ t _ _ _ _ _ ha ht hb => by
      rw [List.map_append, List.map_cons]
      exact @ExprText.logical _ (t.map g) _ _ _ _ _ ha.map ht hb.map
  | _, _, _, @ExprText.assign t _ _ _ _ h ht hv => by
      rw [List.map_append, List.map_cons]
      exact @ExprText.assign (t.map g) _ _ _ _ h.map ht hv.map
  | _, _, _, @ExprText.set t _ _ _ _ _ h ht hv => by
      rw [List.map_append, List.map_cons]
      exact @ExprText.set (t.map g) _ _ _ _ _ h.map ht hv.map
  | _, _, _, .tighter h => .tighter h.map

theorem ArgsText.map : ∀ {ts : List Token} {es : List PlainExpr}, ArgsText ts es →
    ArgsText (ts.map (Token.map g)) (Expr.mapEach id g es)
  | _, _, .none => .none
  | _, _, .one h => .one h.map
  | _, _, @ArgsText.more c _ _ _ _ _ h hc hs => by
      rw [List.map_append, List.map_cons]
      exact @ArgsText.more (c.map g) _ _ _ _ _ h.map hc hs.map

end

theorem ExprText?.map {ts : List Token} {e : Option PlainExpr} (h : ExprText? ts e) :
    ExprText? (ts.map (Token.map g)) (e.map (·.map id g)) := by
  cases h with
  | none => exact .none
  | some h => exact .some (h.map g)

theorem ParamsText.map : ∀ {ts : List Token} {ps : List Lexeme}, ParamsText ts ps →
    ParamsText (ts.map (Token.map g)) (ps.map g)
  | _, _, .none => .none
  | _, _, @ParamsText.one t h => @ParamsText.one (t.map g) h
  | _, _, @ParamsText.more t c _ _ _ h hc hs =>
      @ParamsText.more (t.map g) (c.map g) _ _ _ h hc hs.map

theorem VarText.map {ts : List Token} {s : PlainStmt} (h : VarText ts s) :
    VarText (ts.map (Token.map g)) (s.map id g) := by
  cases h with
  | @plain k n s hk hn hs => exact @VarText.plain (k.map g) (n.map g) (s.map g) hk hn hs
  | @initialized k n q s ts e hk hn hq h hs =>
      rw [List.map_cons, List.map_cons, List.map_cons, List.map_append]
      exact @VarText.initialized (k.map g) (n.map g) (q.map g) (s.map g) _ _ hk hn hq (h.map g) hs

theorem StartText.map {ts : List Token} {s : Option PlainStmt} (h : StartText ts s) :
    StartText (ts.map (Token.map g)) (s.map (·.map id g)) := by
  cases h with
  | @none s hs => exact @StartText.none (s.map g) hs
  | var h => exact .var (h.map g)
  | @expression ts s e h hs =>
      rw [List.map_append]
      exact @StartText.expression _ (s.map g) _ (h.map g) hs

/-- Changing the lexemes of a `for` loop changes those of its clauses and its body. -/
theorem forLoop_map (start : Option PlainStmt) (c step : Option PlainExpr) (body : PlainStmt) :
    (forLoop start c step body).map id g =
      forLoop (start.map (·.map id g)) (c.map (·.map id g)) (step.map (·.map id g)) (body.map id g) := by
  unfold forLoop
  cases start <;> cases c <;> cases step <;> rfl

mutual

theorem StmtText.map : ∀ {dangling : Bool} {ts : List Token} {s : PlainStmt}, StmtText dangling ts s →
    StmtText dangling (ts.map (Token.map g)) (s.map id g)
  | _, _, _, @StmtText.expression _ s _ h hs => by
      rw [List.map_append]
      exact @StmtText.expression _ (s.map g) _ (h.map g) hs
  | _, _, _, @StmtText.print k s _ _ hk h hs => by
      rw [List.map_cons, List.map_append]
      exact @StmtText.print (k.map g) (s.map g) _ _ hk (h.map g) hs
  | _, _, _, @StmtText.ret k s _ _ hk h hs => by
      rw [List.map_cons, List.map_append]
      exact @StmtText.ret (k.map g) (s.map g) _ _ hk (h.map g) hs
  | _, _, _, @StmtText.block l r _ _ hl h hr => by
      rw [List.map_cons, List.map_append]
      exact @StmtText.block (l.map g) (r.map g) _ _ hl h.map hr
  | _, _, _, @StmtText.ite _ k l r _ _ _ _ hk hl hc hr hy => by
      rw [List.map_cons, List.map_cons, List.map_append, List.map_cons]
      exact @StmtText.ite _ (k.map g) (l.map g) (r.map g) _ _ _ _ hk hl (hc.map g) hr hy.map
  | _, _, _, @StmtText.iteElse _ k l r n _ _ _ _ _ _ hk hl hc hr hy hn h => by
      rw [List.map_cons, List.map_cons, List.map_append, List.map_cons, List.map_append, List.map_cons]
      exact @StmtText.iteElse _ (k.map g) (l.map g) (r.map g) (n.map g) _ _ _ _ _ _ hk hl (hc.map g) hr
        hy.map hn h.map
  | _, _, _, @StmtText.while _ k l r _ _ _ _ hk hl hc hr hb => by
      rw [List.map_cons, List.map_cons, List.map_append, List.map_cons]
      exact @StmtText.while _ (k.map g) (l.map g) (r.map g) _ _ _ _ hk hl (hc.map g) hr hb.map
  | _, _, _, @StmtText.for _ k l s r _ _ _ _ _ _ _ _ hk hl hi hc hs hu hr hb => by
      rw [List.map_cons, List.map_cons, List.map_append, List.map_append, List.map_cons, List.map_append,
        List.map_cons, forLoop_map]
      exact @StmtText.for _ (k.map g) (l.map g) (s.map g) (r.map g) _ _ _ _ _ _ _ _ hk hl (hi.map g)
        (hc.map g) hs (hu.map g) hr hb.map

theorem DeclText.map : ∀ {dangling : Bool} {ts : List Token} {s : PlainStmt}, DeclText dangling ts s →
    DeclText dangling (ts.map (Token.map g)) (s.map id g)
  | _, _, _, @DeclText.base k n l r _ _ hk hn hl h hr => by
      rw [List.map_cons, List.map_cons, List.map_cons, List.map_append]
      exact @DeclText.base (k.map g) (n.map g) (l.map g) (r.map g) _ _ hk hn hl h.map hr
  | _, _, _, @DeclText.derived k n q p l r _ _ hk hn hq hp hl h hr => by
      rw [List.map_cons, List.map_cons, List.map_cons, List.map_cons, List.map_cons, List.map_append]
      exact @DeclText.derived (k.map g) (n.map g) (q.map g) (p.map g) (l.map g) (r.map g) _ _ hk hn hq hp
        hl h.map hr
  | _, _, _, @DeclText.function k _ _ hk h => @DeclText.function (k.map g) _ _ hk h.map
  | _, _, _, .var h => .var (h.map g)
  | _, _, _, .statement h => .statement h.map

/-- A body with other lexemes is a text of the program with the same other lexemes. -/
theorem BodyText.map : ∀ {ts : List Token} {body : List PlainStmt}, BodyText ts body →
    BodyText (ts.map (Token.map g)) (Stmt.mapAll id g body)
  | _, _, .nil => .nil
  | _, _, .cons h hs => by
      rw [List.map_append]
      exact .cons h.map hs.map

theorem RoutineText.map : ∀ {ts : List Token} {decl : FunDecl Unit}, RoutineText ts decl →
    RoutineText (ts.map (Token.map g)) (decl.map id g)
  | _, _, @RoutineText.mk n l r b e _ _ _ _ hn hl hp hm hr hb h he => by
      rw [List.map_cons, List.map_cons, List.map_append, List.map_cons, List.map_cons, List.map_append]
      refine @RoutineText.mk (n.map g) (l.map g) (r.map g) (b.map g) (e.map g) _ _ _ _ hn hl (hp.map g) ?_
        hr hb h.map he
      rwa [List.length_map]

theorem MethodsText.map : ∀ {ts : List Token} {decls : List (FunDecl Unit)}, MethodsText ts decls →
    MethodsText (ts.map (Token.map g)) (FunDecl.mapEach id g decls)
  | _, _, .nil => .nil
  | _, _, .cons h hs => by
      rw [List.map_append]
      exact .cons h.map hs.map

end

end map

/-- A body may follow another one. -/
theorem BodyText.append : ∀ {ts us : List Token} {body body' : List PlainStmt}, BodyText ts body →
    BodyText us body' → BodyText (ts ++ us) (body ++ body')
  | _, _, _, _, .nil, h' => h'
  | _, _, _, _, .cons h hs, h' => by
      rw [List.append_assoc]
      exact .cons h (hs.append h')

end Lox
