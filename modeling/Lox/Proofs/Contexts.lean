import Lox.Proofs.Braces

/-! # Statements in their contexts

A context of the grammar is a text with a hole where a statement may stand: at top level, in a block, as a branch, as
the body of a loop, or inside a function or method.  The clauses of a `for` have no hole.  A statement that fills the
hole of a context makes a text (`BodyContext.fill`).  So does the statement in braces, and the tree of that text is
the tree of the other one with the statement in braces (`BodyContext.bracing`). -/

namespace Lox

open Lox.Parser

section contexts

variable (d : Bool)

mutual

/-- `StmtContext d dangling pre post tree`: a statement between the tokens `pre` and `post` makes a statement, the one
that `tree` tells.  The statement may be dangling only if `d` says so, and what it makes only if `dangling` does. -/
inductive StmtContext : Bool → List Token → List Token → (PlainStmt → PlainStmt) → Prop
  | here : StmtContext d [] [] fun s => s
  | block {l r : Token} {pre post : List Token} {trees : PlainStmt → List PlainStmt}
      (hl : l.kind = .leftBrace) (h : BodyContext pre post trees) (hr : r.kind = .rightBrace) :
      StmtContext false (l :: pre) (post ++ [r]) fun s => .block (trees s)
  | ite {dangling : Bool} {k l r : Token} {ts pre post : List Token} {c : PlainExpr} {tree : PlainStmt → PlainStmt}
      (hk : k.kind = .keyword .if_) (hl : l.kind = .leftParen) (hc : ExprText .assignment ts c)
      (hr : r.kind = .rightParen) (h : StmtContext dangling pre post tree) :
      StmtContext true (k :: l :: (ts ++ r :: pre)) post fun s => .ite c (tree s) none
  | yes {dangling : Bool} {k l r n : Token} {ts pre post ns : List Token} {c : PlainExpr}
      {tree : PlainStmt → PlainStmt} {no : PlainStmt} (hk : k.kind = .keyword .if_) (hl : l.kind = .leftParen)
      (hc : ExprText .assignment ts c) (hr : r.kind = .rightParen) (h : StmtContext false pre post tree)
      (hn : n.kind = .keyword .else_) (hs : StmtText dangling ns no) :
      StmtContext dangling (k :: l :: (ts ++ r :: pre)) (post ++ n :: ns) fun s => .ite c (tree s) (some no)
  | no {dangling : Bool} {k l r n : Token} {ts ys pre post : List Token} {c : PlainExpr} {yes : PlainStmt}
      {tree : PlainStmt → PlainStmt} (hk : k.kind = .keyword .if_) (hl : l.kind = .leftParen)
      (hc : ExprText .assignment ts c) (hr : r.kind = .rightParen) (hy : StmtText false ys yes)
      (hn : n.kind = .keyword .else_) (h : StmtContext dangling pre post tree) :
      StmtContext dangling (k :: l :: (ts ++ r :: (ys ++ n :: pre))) post fun s => .ite c yes (some (tree s))
  | while {dangling : Bool} {k l r : Token} {ts pre post : List Token} {c : PlainExpr}
      {tree : PlainStmt → PlainStmt} (hk : k.kind = .keyword .while_) (hl : l.kind = .leftParen)
      (hc : ExprText .assignment ts c) (hr : r.kind = .rightParen) (h : StmtContext dangling pre post tree) :
      StmtContext dangling (k :: l :: (ts ++ r :: pre)) post fun s => .while c (tree s)
  | for {dangling : Bool} {k l m r : Token} {is cs us pre post : List Token} {start : Option PlainStmt}
      {c step : Option PlainExpr} {tree : PlainStmt → PlainStmt} (hk : k.kind = .keyword .for_)
      (hl : l.kind = .leftParen) (hi : StartText is start) (hc : ExprText? cs c) (hm : m.kind = .semicolon)
      (hu : ExprText? us step) (hr : r.kind = .rightParen) (h : StmtContext dangling pre post tree) :
      StmtContext dangling (k :: l :: (is ++ (cs ++ m :: (us ++ r :: pre)))) post
        fun s => forLoop start c step (tree s)

/-- Contexts of a statement in a declaration or statement. -/
inductive DeclContext : Bool → List Token → List Token → (PlainStmt → PlainStmt) → Prop
  | base {k n l r : Token} {pre post : List Token} {methods : PlainStmt → List (FunDecl Unit)}
      (hk : k.kind = .keyword .class_) (hn : n.kind = .identifier) (hl : l.kind = .leftBrace)
      (h : MethodsContext pre post methods) (hr : r.kind = .rightBrace) :
      DeclContext false (k :: n :: l :: pre) (post ++ [r]) fun s => .cls n.toLexeme none (methods s)
  | derived {k n q p l r : Token} {pre post : List Token} {methods : PlainStmt → List (FunDecl Unit)}
      (hk : k.kind = .keyword .class_) (hn : n.kind = .identifier) (hq : q.kind = .less)
      (hp : p.kind = .identifier) (hl : l.kind = .leftBrace) (h : MethodsContext pre post methods)
      (hr : r.kind = .rightBrace) :
      DeclContext false (k :: n :: q :: p :: l :: pre) (post ++ [r])
        fun s => .cls n.toLexeme (some ⟨(), p.toLexeme⟩) (methods s)
  | function {k : Token} {pre post : List Token} {decl : PlainStmt → FunDecl Unit}
      (hk : k.kind = .keyword .fun_) (h : RoutineContext pre post decl) :
      DeclContext false (k :: pre) post fun s => .function (decl s)
  | statement {dangling : Bool} {pre post : List Token} {tree : PlainStmt → PlainStmt}
      (h : StmtContext dangling pre post tree) : DeclContext dangling pre post tree

/-- Contexts of a statement in declarations in order. -/
inductive BodyContext : List Token → List Token → (PlainStmt → List PlainStmt) → Prop
  | head {dangling : Bool} {pre post us : List Token} {tree : PlainStmt → PlainStmt} {body : List PlainStmt}
      (h : DeclContext dangling pre post tree) (hs : BodyText us body) :
      BodyContext pre (post ++ us) fun s => tree s :: body
  | tail {dangling : Bool} {ts pre post : List Token} {first : PlainStmt} {trees : PlainStmt → List PlainStmt}
      (h : DeclText dangling ts first) (hs : BodyContext pre post trees) :
      BodyContext (ts ++ pre) post fun s => first :: trees s

/-- Contexts of a statement in a function or method. -/
inductive RoutineContext : List Token → List Token → (PlainStmt → FunDecl Unit) → Prop
  | mk {n l r b e : Token} {ps pre post : List Token} {params : List Lexeme}
      {trees : PlainStmt → List PlainStmt} (hn : n.kind = .identifier) (hl : l.kind = .leftParen)
      (hp : ParamsText ps params) (hm : params.length ≤ maxArity) (hr : r.kind = .rightParen)
      (hb : b.kind = .leftBrace) (h : BodyContext pre post trees) (he : e.kind = .rightBrace) :
      RoutineContext (n :: l :: (ps ++ r :: b :: pre)) (post ++ [e]) fun s => .mk n.toLexeme params (trees s)

/-- Contexts of a statement in methods in order. -/
inductive MethodsContext : List Token → List Token → (PlainStmt → List (FunDecl Unit)) → Prop
  | head {pre post us : List Token} {decl : PlainStmt → FunDecl Unit} {decls : List (FunDecl Unit)}
      (h : RoutineContext pre post decl) (hs : MethodsText us decls) :
      MethodsContext pre (post ++ us) fun s => decl s :: decls
  | tail {ts pre post : List Token} {first : FunDecl Unit} {decls : PlainStmt → List (FunDecl Unit)}
      (h : RoutineText ts first) (hs : MethodsContext pre post decls) :
      MethodsContext (ts ++ pre) post fun s => first :: decls s

end

end contexts

/-! ### Texts in contexts -/

section fill

variable {d d' : Bool} {xs : List Token} {s : PlainStmt}

mutual

/-- A statement in a context makes a statement. -/
theorem StmtContext.fill (hs : StmtText d' xs s) : ∀ {dangling : Bool} {pre post : List Token}
    {tree : PlainStmt → PlainStmt}, StmtContext d dangling pre post tree → (d' → d) →
    ∃ e : Bool, (e → dangling) ∧ StmtText e (pre ++ (xs ++ post)) (tree s)
  | _, _, _, _, .here, hd => ⟨d', hd, by simpa using hs⟩
  | _, _, _, _, .block hl h hr, hd =>
      ⟨false, id, by simpa using StmtText.block hl (h.fill hs hd) hr⟩
  | _, _, _, _, .ite hk hl hc hr h, hd => by
      obtain ⟨_, -, ht⟩ := h.fill hs hd
      exact ⟨true, fun _ => rfl, by simpa using StmtText.ite hk hl hc hr ht⟩
  | _, _, _, _, .yes hk hl hc hr h hn hno, hd => by
      obtain ⟨e, he, ht⟩ := h.fill hs hd
      obtain rfl : e = false := by simpa using he
      exact ⟨_, id, by simpa using StmtText.iteElse hk hl hc hr ht hn hno⟩
  | _, _, _, _, .no hk hl hc hr hy hn h, hd => by
      obtain ⟨e, he, ht⟩ := h.fill hs hd
      exact ⟨e, he, by simpa using StmtText.iteElse hk hl hc hr hy hn ht⟩
  | _, _, _, _, .while hk hl hc hr h, hd => by
      obtain ⟨e, he, ht⟩ := h.fill hs hd
      exact ⟨e, he, by simpa using StmtText.while hk hl hc hr ht⟩
  | _, _, _, _, .for hk hl hi hc hm hu hr h, hd => by
      obtain ⟨e, he, ht⟩ := h.fill hs hd
      exact ⟨e, he, by simpa using StmtText.for hk hl hi hc hm hu hr ht⟩

theorem DeclContext.fill (hs : StmtText d' xs s) : ∀ {dangling : Bool} {pre post : List Token}
    {tree : PlainStmt → PlainStmt}, DeclContext d dangling pre post tree → (d' → d) →
    ∃ e, DeclText e (pre ++ (xs ++ post)) (tree s)
  | _, _, _, _, .base hk hn hl h hr, hd =>
      ⟨false, by simpa using DeclText.base hk hn hl (h.fill hs hd) hr⟩
  | _, _, _, _, .derived hk hn hq hp hl h hr, hd =>
      ⟨false, by simpa using DeclText.derived hk hn hq hp hl (h.fill hs hd) hr⟩
  | _, _, _, _, .function hk h, hd => ⟨false, .function hk (h.fill hs hd)⟩
  | _, _, _, _, .statement h, hd => by
      obtain ⟨e, -, ht⟩ := h.fill hs hd
      exact ⟨e, .statement ht⟩

/-- A statement in a context makes a program. -/
theorem BodyContext.fill (hs : StmtText d' xs s) : ∀ {pre post : List Token}
    {trees : PlainStmt → List PlainStmt}, BodyContext d pre post trees → (d' → d) →
    BodyText (pre ++ (xs ++ post)) (trees s)
  | _, _, _, .head h hrest, hd => by
      obtain ⟨_, ht⟩ := h.fill hs hd
      simpa using BodyText.cons ht hrest
  | _, _, _, .tail h hrest, hd => by simpa using BodyText.cons h (hrest.fill hs hd)

theorem RoutineContext.fill (hs : StmtText d' xs s) : ∀ {pre post : List Token}
    {decl : PlainStmt → FunDecl Unit}, RoutineContext d pre post decl → (d' → d) →
    RoutineText (pre ++ (xs ++ post)) (decl s)
  | _, _, _, .mk hn hl hp hm hr hb h he, hd => by
      simpa using RoutineText.mk hn hl hp hm hr hb (h.fill hs hd) he

theorem MethodsContext.fill (hs : StmtText d' xs s) : ∀ {pre post : List Token}
    {decls : PlainStmt → List (FunDecl Unit)}, MethodsContext d pre post decls → (d' → d) →
    MethodsText (pre ++ (xs ++ post)) (decls s)
  | _, _, _, .head h hrest, hd => by simpa using MethodsText.cons (h.fill hs hd) hrest
  | _, _, _, .tail h hrest, hd => by simpa using MethodsText.cons h (hrest.fill hs hd)

end

end fill

/-! ### Trees in contexts -/

/-- A loop whose body has a statement in braces. -/
theorem forLoop_bracing {S body body' : PlainStmt} (start : Option PlainStmt) (c step : Option PlainExpr)
    (h : S.Bracing body body') : S.Bracing (forLoop start c step body) (forLoop start c step body') := by
  have hloop : S.Bracing (forLoop none c step body) (forLoop none c step body') := by
    cases step with
    | none => exact .while _ h
    | some step => exact .while _ (.block (.head _ h))
  cases start with
  | none => exact hloop
  | some start => exact .block (.tail start (.head [] hloop))

section bracing

variable {d : Bool} {s : PlainStmt}

mutual

/-- To put a statement in braces in a context is to put one occurrence of it in braces. -/
theorem StmtContext.bracing (hs : s.declared? = none) : ∀ {dangling : Bool} {pre post : List Token}
    {tree : PlainStmt → PlainStmt}, StmtContext d dangling pre post tree → s.Bracing (tree s) (tree (.block [s]))
  | _, _, _, _, .here => .here hs
  | _, _, _, _, .block _ h _ => .block (h.bracing hs)
  | _, _, _, _, .ite _ _ _ _ h => .yes _ none (h.bracing hs)
  | _, _, _, _, .yes _ _ _ _ h _ _ => .yes _ (some _) (h.bracing hs)
  | _, _, _, _, .no _ _ _ _ _ _ h => .no _ _ (h.bracing hs)
  | _, _, _, _, .while _ _ _ _ h => .while _ (h.bracing hs)
  | _, _, _, _, .for _ _ _ _ _ _ _ h => forLoop_bracing _ _ _ (h.bracing hs)

theorem DeclContext.bracing (hs : s.declared? = none) : ∀ {dangling : Bool} {pre post : List Token}
    {tree : PlainStmt → PlainStmt}, DeclContext d dangling pre post tree → s.Bracing (tree s) (tree (.block [s]))
  | _, _, _, _, .base _ _ _ h _ => .cls _ none (h.bracing hs)
  | _, _, _, _, .derived _ _ _ _ _ h _ => .cls _ (some _) (h.bracing hs)
  | _, _, _, _, .function _ h => .function (h.bracing hs)
  | _, _, _, _, .statement h => h.bracing hs

theorem BodyContext.bracing (hs : s.declared? = none) : ∀ {pre post : List Token}
    {trees : PlainStmt → List PlainStmt}, BodyContext d pre post trees →
    s.BracingAll (trees s) (trees (.block [s]))
  | _, _, _, .head h _ => .head _ (h.bracing hs)
  | _, _, _, .tail _ h => .tail _ (h.bracing hs)

theorem RoutineContext.bracing (hs : s.declared? = none) : ∀ {pre post : List Token}
    {decl : PlainStmt → FunDecl Unit}, RoutineContext d pre post decl →
    FunDecl.Bracing s (decl s) (decl (.block [s]))
  | _, _, _, .mk _ _ _ _ _ _ h _ => .mk _ _ (h.bracing hs)

theorem MethodsContext.bracing (hs : s.declared? = none) : ∀ {pre post : List Token}
    {decls : PlainStmt → List (FunDecl Unit)}, MethodsContext d pre post decls →
    FunDecl.BracingEach s (decls s) (decls (.block [s]))
  | _, _, _, .head h _ => .head _ (h.bracing hs)
  | _, _, _, .tail _ h => .tail _ (h.bracing hs)

end

end bracing

/-! ### Where statements end -/

/-- The last token of a statement is a semicolon or a brace. -/
theorem StmtText.last : ∀ {dangling : Bool} {ts : List Token} {s : PlainStmt}, StmtText dangling ts s →
    ∃ us t, ts = us ++ [t] ∧ (t.kind = .semicolon ∨ t.kind = .rightBrace)
  | _, _, _, .block _ _ hr => ⟨_ :: _, _, rfl, .inr hr⟩
  | _, _, _, .expression _ hs => ⟨_, _, rfl, .inl hs⟩
  | _, _, _, .print _ _ hs => ⟨_ :: _, _, rfl, .inl hs⟩
  | _, _, _, .ret _ _ hs => ⟨_ :: _, _, rfl, .inl hs⟩
  | _, _, _, @StmtText.ite _ k l r ts _ _ _ _ _ _ _ hy => by
      obtain ⟨us, t, rfl, ht⟩ := hy.last
      exact ⟨k :: l :: (ts ++ r :: us), t, by simp, ht⟩
  | _, _, _, @StmtText.iteElse _ k l r n ts ys _ _ _ _ _ _ _ _ _ _ h => by
      obtain ⟨us, t, rfl, ht⟩ := h.last
      exact ⟨k :: l :: (ts ++ r :: (ys ++ n :: us)), t, by simp, ht⟩
  | _, _, _, @StmtText.while _ k l r ts _ _ _ _ _ _ _ hb => by
      obtain ⟨us, t, rfl, ht⟩ := hb.last
      exact ⟨k :: l :: (ts ++ r :: us), t, by simp, ht⟩
  | _, _, _, @StmtText.for _ k l m r is cs us _ _ _ _ _ _ _ _ _ _ _ _ hb => by
      obtain ⟨vs, t, rfl, ht⟩ := hb.last
      exact ⟨k :: l :: (is ++ (cs ++ m :: (us ++ r :: vs))), t, by simp, ht⟩

end Lox
