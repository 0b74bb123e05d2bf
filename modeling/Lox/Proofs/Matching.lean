import Lox.Eval

/-! # Trees that match

Two programs of one shape, run side by side.  `MatchExpr` and `MatchStmt` say that two trees have the
same shape and that their uses of names, at every place, are linked: what that means is left open
(`Links`), so that one theorem about runs serves programs that differ in names, in lines or in node
numbers, and a single program run in two ways.

The place of a piece of code is described by its levels, one for each local scope around it.  A level
says what its frame is for (`Role`) and which of its names are declared before the place. -/

namespace Lox

/-! ### Roles and levels -/

/-- What a frame is for: the globals, the names that a block or function declares, or one of the two
names that calls of methods rely on.  A name of the first program is `twin` of it in the second. -/
inductive Role where
  | globals
  | names (declared : List String) (twin : String → String)
  | this
  | super

namespace Role

/-- The name in the second program for a name in the first. -/
def twin : Role → String → String
  | names _ twin => twin
  | _ => id

/-- May a frame of this role bind a name of the first program? -/
def Declares : Role → String → Prop
  | globals, _ => True
  | names declared _, n => n ∈ declared
  | this, n => n = "this"
  | super, n => n = "super"

/-- What a frame of this role may bind a name to: `this` to an instance, `super` to a class. -/
def Holds : Role → Value → Prop
  | this, v => ∃ id c, v = .instance_ id c
  | super, v => ∃ c, v = .cls c
  | _, _ => True

end Role

/-- A local scope as seen from a place: what its frame is for, and the names that are declared before
the place and may be used there. -/
structure Level where
  role : Role
  ready : List String

/-- The scope of a method around its parameters. -/
def Level.this : Level := ⟨.this, ["this"]⟩

/-- The scope around the methods of a class with a superclass. -/
def Level.super : Level := ⟨.super, ["super"]⟩

/-- The local scopes around a place, innermost first. -/
abbrev Levels := List Level

namespace Levels

/-- The name of the innermost scope that an initializer may not use yet; a global has none. -/
def pending : Levels → String → Option String
  | [], _ => none
  | _ :: _, n => some n

/-- `Γ.Declare n n' Γ'`: declaring `n`, or its twin `n'`, takes the levels `Γ` to `Γ'`. -/
inductive Declare : Levels → String → String → Levels → Prop
  | globals (n : String) : Declare [] n n []
  | level {declared : List String} {twin : String → String} {ready : List String} {Γ : Levels}
      {n : String} (h : n ∈ declared) :
      Declare (⟨.names declared twin, ready⟩ :: Γ) n (twin n)
        (⟨.names declared twin, n :: ready⟩ :: Γ)

end Levels

/-! ### Links -/

/-- How two programs may use names at the same place, how the names of a scope may change from one to the
other, at which two tokens the same fault may be reported, and which two declarations may stand for the
same function. -/
structure Links where
  /-- Reads of a variable, also of `this`; the second argument is the name whose initializer is being
  evaluated. -/
  read : Levels → Option String → Reference NodeId → Reference NodeId → Prop
  /-- Assignments. -/
  write : Levels → Option String → Reference NodeId → Reference NodeId → Prop
  /-- Uses of `super`. -/
  super : Levels → Reference NodeId → Reference NodeId → Prop
  /-- Assignments that may find the name not bound yet. -/
  early : Reference NodeId → Reference NodeId → Prop
  /-- Lines at which a fault of a node may be reported. -/
  site : NodeId → Nat → NodeId → Nat → Prop
  /-- Declarations of the same function. -/
  decl : FunDecl NodeId → FunDecl NodeId → Prop
  /-- Changes of the names of a scope. -/
  renames : (String → String) → Prop

/-- The names of a scope change as the links allow, and different names stay different. -/
structure Links.Allows (U : Links) (declared : List String) (twin : String → String) : Prop where
  renames : U.renames twin
  injective : ∀ a ∈ declared, ∀ b ∈ declared, twin a = twin b → a = b

/-- The names that a frame of this role may bind change as the links allow. -/
def Role.Proper (U : Links) : Role → Prop
  | names declared twin => U.Allows declared twin
  | _ => True

/-- Different names of a scope have different twins. -/
theorem Role.Proper.injective {U : Links} {r : Role} (h : r.Proper U) {a b : String}
    (ha : r.Declares a) (hb : r.Declares b) (ht : r.twin a = r.twin b) : a = b := by
  cases r with
  | names declared twin => exact Links.Allows.injective h a ha b hb ht
  | _ => exact ht

variable (U : Links)

mutual

/-- Expressions that match, at a place with given levels. -/
inductive MatchExpr (Γ : Levels) (pending : Option String) : Expr NodeId → Expr NodeId → Prop
  | literal (i i' : NodeId) (v : Literal) : MatchExpr Γ pending (.literal i v) (.literal i' v)
  | group (i i' : NodeId) {e e' : Expr NodeId} (h : MatchExpr Γ pending e e') :
      MatchExpr Γ pending (.group i e) (.group i' e')
  | unary {i i' : NodeId} (op : UnaryOp) {t t' : Lexeme} {e e' : Expr NodeId}
      (ht : U.site i t.line i' t'.line) (h : MatchExpr Γ pending e e') :
      MatchExpr Γ pending (.unary i op t e) (.unary i' op t' e')
  | binary {i i' : NodeId} (op : BinaryOp) {t t' : Lexeme} {a a' b b' : Expr NodeId}
      (ht : U.site i t.line i' t'.line) (ha : MatchExpr Γ pending a a')
      (hb : MatchExpr Γ pending b b') :
      MatchExpr Γ pending (.binary i op t a b) (.binary i' op t' a' b')
  | logical (i i' : NodeId) (op : LogicalOp) (t t' : Lexeme) {a a' b b' : Expr NodeId}
      (ha : MatchExpr Γ pending a a') (hb : MatchExpr Γ pending b b') :
      MatchExpr Γ pending (.logical i op t a b) (.logical i' op t' a' b')
  | name {r r' : Reference NodeId} (h : U.read Γ pending r r') :
      MatchExpr Γ pending (.name r) (.name r')
  | assign {r r' : Reference NodeId} {e e' : Expr NodeId} (hr : U.write Γ pending r r')
      (h : MatchExpr Γ pending e e') : MatchExpr Γ pending (.assign r e) (.assign r' e')
  | call {i i' : NodeId} {t t' : Lexeme} {f f' : Expr NodeId} {args args' : List (Expr NodeId)}
      (ht : U.site i t.line i' t'.line) (hf : MatchExpr Γ pending f f')
      (ha : MatchEach Γ pending args args') :
      MatchExpr Γ pending (.call i f t args) (.call i' f' t' args')
  | get {i i' : NodeId} {t t' : Lexeme} {e e' : Expr NodeId} (hn : t'.text = t.text)
      (ht : U.site i t.line i' t'.line) (h : MatchExpr Γ pending e e') :
      MatchExpr Γ pending (.get i e t) (.get i' e' t')
  | set {i i' : NodeId} {t t' : Lexeme} {a a' b b' : Expr NodeId} (hn : t'.text = t.text)
      (ht : U.site i t.line i' t'.line) (ha : MatchExpr Γ pending a a')
      (hb : MatchExpr Γ pending b b') : MatchExpr Γ pending (.set i a t b) (.set i' a' t' b')
  | this {r r' : Reference NodeId} (h : U.read Γ pending r r') :
      MatchExpr Γ pending (.this r) (.this r')
  | super {r r' : Reference NodeId} {t t' : Lexeme} (hn : t'.text = t.text)
      (ht : U.site r.id t.line r'.id t'.line) (h : U.super Γ r r') :
      MatchExpr Γ pending (.super r t) (.super r' t')

/-- Lists of expressions that match one by one. -/
inductive MatchEach (Γ : Levels) (pending : Option String) :
    List (Expr NodeId) → List (Expr NodeId) → Prop
  | nil : MatchEach Γ pending [] []
  | cons {e e' : Expr NodeId} {es es' : List (Expr NodeId)} (h : MatchExpr Γ pending e e')
      (hs : MatchEach Γ pending es es') : MatchEach Γ pending (e :: es) (e' :: es')

end

/-- Expressions that match or are both absent. -/
inductive MatchExpr? (Γ : Levels) (pending : Option String) :
    Option (Expr NodeId) → Option (Expr NodeId) → Prop
  | none : MatchExpr? Γ pending none none
  | some {e e' : Expr NodeId} (h : MatchExpr U Γ pending e e') :
      MatchExpr? Γ pending (some e) (some e')

mutual

/-- `MatchStmt U inFunction Γ s s' Γ'`: statements that match and take the levels `Γ` to `Γ'`.  A branch
or a loop body declares nothing in the scope around it. -/
inductive MatchStmt : Bool → Levels → Stmt NodeId → Stmt NodeId → Levels → Prop
  | expression {b : Bool} {Γ : Levels} {e e' : Expr NodeId} (h : MatchExpr U Γ none e e') :
      MatchStmt b Γ (.expression e) (.expression e') Γ
  | print {b : Bool} {Γ : Levels} {e e' : Expr NodeId} (h : MatchExpr U Γ none e e') :
      MatchStmt b Γ (.print e) (.print e') Γ
  | var {b : Bool} {Γ Γ' : Levels} {t t' : Lexeme} {e e' : Option (Expr NodeId)}
      (hd : Γ.Declare t.text t'.text Γ') (h : MatchExpr? U Γ (Γ.pending t.text) e e') :
      MatchStmt b Γ (.var t e) (.var t' e') Γ'
  | block {b : Bool} {Γ Γ' : Levels} {declared : List String} {twin : String → String}
      {body body' : List (Stmt NodeId)} (hp : U.Allows declared twin)
      (h : MatchStmts b (⟨.names declared twin, []⟩ :: Γ) body body' Γ') :
      MatchStmt b Γ (.block body) (.block body') Γ
  | ite {b : Bool} {Γ : Levels} {c c' : Expr NodeId} {yes yes' : Stmt NodeId}
      (hc : MatchExpr U Γ none c c') (hy : MatchStmt b Γ yes yes' Γ) :
      MatchStmt b Γ (.ite c yes none) (.ite c' yes' none) Γ
  | iteElse {b : Bool} {Γ : Levels} {c c' : Expr NodeId} {yes yes' no no' : Stmt NodeId}
      (hc : MatchExpr U Γ none c c') (hy : MatchStmt b Γ yes yes' Γ) (hn : MatchStmt b Γ no no' Γ) :
      MatchStmt b Γ (.ite c yes (some no)) (.ite c' yes' (some no')) Γ
  | while {b : Bool} {Γ : Levels} {c c' : Expr NodeId} {body body' : Stmt NodeId}
      (hc : MatchExpr U Γ none c c') (hb : MatchStmt b Γ body body' Γ) :
      MatchStmt b Γ (.while c body) (.while c' body') Γ
  | function {b : Bool} {Γ Γ' : Levels} {d d' : FunDecl NodeId}
      (hd : Γ.Declare d.name.text d'.name.text Γ') (h : MatchFun Γ' d d') :
      MatchStmt b Γ (.function d) (.function d') Γ'
  | ret {Γ : Levels} (t t' : Lexeme) {e e' : Option (Expr NodeId)} (h : MatchExpr? U Γ none e e') :
      MatchStmt true Γ (.ret t e) (.ret t' e') Γ
  | base {b : Bool} {Γ Γ' : Levels} {t t' : Lexeme} {ms ms' : List (FunDecl NodeId)}
      (hn : t'.text = t.text) (hd : Γ.Declare t.text t'.text Γ')
      (hm : MatchFuns (.this :: Γ') ms ms') : MatchStmt b Γ (.cls t none ms) (.cls t' none ms') Γ'
  | derived {b : Bool} {Γ Γ' : Levels} {t t' : Lexeme} {r r' : Reference NodeId}
      {ms ms' : List (FunDecl NodeId)} (hn : t'.text = t.text) (hd : Γ.Declare t.text t'.text Γ')
      (hr : U.read Γ none r r') (hm : MatchFuns (.this :: .super :: Γ') ms ms') :
      MatchStmt b Γ (.cls t (some r) ms) (.cls t' (some r') ms') Γ'

/-- Statements in order that match one by one. -/
inductive MatchStmts : Bool → Levels → List (Stmt NodeId) → List (Stmt NodeId) → Levels → Prop
  | nil (b : Bool) (Γ : Levels) : MatchStmts b Γ [] [] Γ
  | cons {b : Bool} {Γ Γ' Γ'' : Levels} {s s' : Stmt NodeId} {ss ss' : List (Stmt NodeId)}
      (h : MatchStmt b Γ s s' Γ') (hs : MatchStmts b Γ' ss ss' Γ'') :
      MatchStmts b Γ (s :: ss) (s' :: ss') Γ''

/-- Function declarations that match, inside given levels: parameters and body share a scope. -/
inductive MatchFun : Levels → FunDecl NodeId → FunDecl NodeId → Prop
  | mk {Γ Γ' : Levels} {declared : List String} {twin : String → String} {t t' : Lexeme}
      {params params' : List Lexeme} {body body' : List (Stmt NodeId)} (hn : t'.text = t.text)
      (hu : U.decl (.mk t params body) (.mk t' params' body'))
      (hp : U.Allows declared twin) (hd : ∀ p ∈ params, p.text ∈ declared)
      (ht : params'.map Lexeme.text = params.map fun p => twin p.text)
      (h : MatchStmts true (⟨.names declared twin, params.map Lexeme.text⟩ :: Γ) body body' Γ') :
      MatchFun Γ (.mk t params body) (.mk t' params' body')

/-- Function declarations that match one by one. -/
inductive MatchFuns : Levels → List (FunDecl NodeId) → List (FunDecl NodeId) → Prop
  | nil (Γ : Levels) : MatchFuns Γ [] []
  | cons {Γ : Levels} {d d' : FunDecl NodeId} {ds ds' : List (FunDecl NodeId)}
      (h : MatchFun Γ d d') (hs : MatchFuns Γ ds ds') : MatchFuns Γ (d :: ds) (d' :: ds')

end

variable {U}

theorem MatchFun.name_text {Γ : Levels} {d d' : FunDecl NodeId} (h : MatchFun U Γ d d') :
    d'.name.text = d.name.text := by
  cases h with
  | mk hn => exact hn

theorem MatchFun.params_length {Γ : Levels} {d d' : FunDecl NodeId} (h : MatchFun U Γ d d') :
    d'.params.length = d.params.length := by
  cases h with
  | mk _ _ _ _ ht => simpa [FunDecl.params] using congrArg List.length ht

theorem MatchFun.decl {Γ : Levels} {d d' : FunDecl NodeId} (h : MatchFun U Γ d d') : U.decl d d' := by
  cases h with
  | mk _ hu => exact hu

end Lox
