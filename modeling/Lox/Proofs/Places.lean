import Lox.Syntax.Numbering

/-! # Expressions at their places

Where the expressions of a program stand: the local scopes around each of them, with the names that are
declared before it, and the local variable whose initializer it is, if it is one.  Resolution gives a use
of a name the distance that can be read off its place (`Use.distance?`). -/

namespace Lox

/-! ### Names in expressions -/

/-- What an expression does with a name. -/
inductive UseKind where
  | read
  | write
  | this
  | super
  deriving DecidableEq, Repr

mutual

/-- The uses of names in an expression, in the order in which they are resolved. -/
def Expr.references {ι : Type} : Expr ι → List (UseKind × Reference ι)
  | .literal _ _ => []
  | .group _ inner => inner.references
  | .unary _ _ _ operand => operand.references
  | .binary _ _ _ left right => left.references ++ right.references
  | .logical _ _ _ left right => left.references ++ right.references
  | .name ref => [(.read, ref)]
  | .assign target value => value.references ++ [(.write, target)]
  | .call _ callee _ arguments => callee.references ++ Expr.referencesEach arguments
  | .get _ object _ => object.references
  | .set _ object _ value => value.references ++ object.references
  | .this ref => [(.this, ref)]
  | .super ref _ => [(.super, ref)]

/-- The uses of names in expressions, in order. -/
def Expr.referencesEach {ι : Type} : List (Expr ι) → List (UseKind × Reference ι)
  | [] => []
  | e :: rest => e.references ++ Expr.referencesEach rest

end

mutual

/-- The lexemes of an expression, other than the names it uses, at which a fault may be reported. -/
def Expr.marks {ι : Type} : Expr ι → List (Reference ι)
  | .literal _ _ => []
  | .group _ inner => inner.marks
  | .unary id _ sign operand => ⟨id, sign⟩ :: operand.marks
  | .binary id _ sign left right => ⟨id, sign⟩ :: (left.marks ++ right.marks)
  | .logical _ _ _ left right => left.marks ++ right.marks
  | .name _ => []
  | .assign _ value => value.marks
  | .call id callee closing arguments => ⟨id, closing⟩ :: (callee.marks ++ Expr.marksEach arguments)
  | .get id object property => ⟨id, property⟩ :: object.marks
  | .set id object property value => ⟨id, property⟩ :: (value.marks ++ object.marks)
  | .this _ => []
  | .super ref method => [⟨ref.id, method⟩]

/-- The lexemes of expressions at which a fault may be reported. -/
def Expr.marksEach {ι : Type} : List (Expr ι) → List (Reference ι)
  | [] => []
  | e :: rest => e.marks ++ Expr.marksEach rest

end

/-! ### Declarations -/

namespace Stmt

variable {ι : Type}

/-- The name that a statement declares in the scope it stands in. -/
def declared? : Stmt ι → Option Lexeme
  | .var name _ => some name
  | .function decl => some decl.name
  | .cls name _ _ => some name
  | _ => none

/-- The names that statements declare in the scope they stand in. -/
def declarations (body : List (Stmt ι)) : List Lexeme := body.filterMap declared?

theorem declarations_cons (s : Stmt ι) (body : List (Stmt ι)) :
    declarations (s :: body) = s.declared?.toList ++ declarations body := by
  rw [declarations, List.filterMap_cons]
  cases s.declared? <;> rfl

end Stmt

/-! ### Surroundings -/

/-- A local scope around a place.  A block or function declares names, some of them before the place;
the other two are the scopes around the methods of a class. -/
inductive Enclosure where
  | names (all before : List Lexeme)
  | this
  | super
  deriving DecidableEq, Repr

namespace Enclosure

/-- Is a name declared before the place? -/
def binds : Enclosure → String → Bool
  | names _ before, n => before.any (·.text == n)
  | this, n => n == "this"
  | super, n => n == "super"

/-- Is a name declared anywhere in the scope? -/
def declares : Enclosure → String → Bool
  | names all _, n => all.any (·.text == n)
  | this, n => n == "this"
  | super, n => n == "super"

end Enclosure

/-- The local scopes around a place, innermost first. -/
abbrev Surroundings := List Enclosure

namespace Surroundings

/-- The surroundings after a declaration. -/
def declare : Surroundings → Lexeme → Surroundings
  | .names all before :: outer, name => .names all (name :: before) :: outer
  | around, _ => around

/-- The surroundings after a declaration, if there is one. -/
def declare? (around : Surroundings) : Option Lexeme → Surroundings
  | none => around
  | some name => around.declare name

/-- How far out a name is declared before the place. -/
def distance? (around : Surroundings) (n : String) : Option Nat := around.findIdx? (·.binds n)

/-- The variable that its own initializer may not read: a local one. -/
def initializing : Surroundings → Lexeme → Option Lexeme
  | [], _ => none
  | _ :: _, name => some name

end Surroundings

/-- The surroundings after a statement. -/
def Stmt.after {ι : Type} (around : Surroundings) (s : Stmt ι) : Surroundings :=
  around.declare? s.declared?

/-- The surroundings after statements. -/
def Stmt.afterAll {ι : Type} (around : Surroundings) (body : List (Stmt ι)) : Surroundings :=
  body.foldl Stmt.after around

/-! ### Places -/

/-- An expression, the scopes around it, and the local variable whose initializer it is, if it is one. -/
structure Placed where
  around : Surroundings
  initializing : Option Lexeme
  expr : Expr NodeId

/-- A use of a name, the scopes around it, and the local variable in whose initializer it stands. -/
structure Use where
  kind : UseKind
  ref : Reference NodeId
  around : Surroundings
  initializing : Option Lexeme
  deriving DecidableEq, Repr

namespace Use

/-- Does the use name the local variable in whose initializer it stands? -/
def isOwn (u : Use) : Bool := u.initializing.any (·.text == u.ref.name.text)

/-- How far out the name is declared, counting the variable that is being initialized. -/
def distance? (u : Use) : Option Nat :=
  if u.isOwn then some 0 else u.around.distance? u.ref.name.text

/-- What resolution records for the use. -/
def entry? (u : Use) : Option (NodeId × Nat) := u.distance?.map fun d => (u.ref.id, d)

end Use

/-- Uses of names that stand at one place. -/
def usesAt (around : Surroundings) (initializing : Option Lexeme)
    (refs : List (UseKind × Reference NodeId)) : List Use :=
  refs.map fun (kind, ref) => ⟨kind, ref, around, initializing⟩

/-- The uses of names in an expression at its place. -/
def Placed.uses (x : Placed) : List Use := usesAt x.around x.initializing x.expr.references

mutual

/-- The expressions of a statement at their places.  The name of a superclass counts as one. -/
def Stmt.expressions (around : Surroundings) : Stmt NodeId → List Placed
  | .expression value => [⟨around, none, value⟩]
  | .print value => [⟨around, none, value⟩]
  | .var name initializer =>
    initializer.toList.map fun value => ⟨around, around.initializing name, value⟩
  | .block body => Stmt.expressionsAll (.names (Stmt.declarations body) [] :: around) body
  | .ite condition yes none => ⟨around, none, condition⟩ :: yes.expressions around
  | .ite condition yes (some no) =>
    ⟨around, none, condition⟩ :: (yes.expressions around ++ no.expressions around)
  | .while condition body => ⟨around, none, condition⟩ :: body.expressions around
  | .function decl => decl.expressions (around.declare decl.name)
  | .ret _ value => value.toList.map fun value => ⟨around, none, value⟩
  | .cls name none methods => FunDecl.expressionsEach (.this :: around.declare name) methods
  | .cls name (some superclass) methods =>
    ⟨around, none, .name superclass⟩ ::
      FunDecl.expressionsEach (.this :: .super :: around.declare name) methods

/-- The expressions of statements in order at their places. -/
def Stmt.expressionsAll (around : Surroundings) : List (Stmt NodeId) → List Placed
  | [] => []
  | s :: rest => s.expressions around ++ Stmt.expressionsAll (s.after around) rest

/-- The expressions of a function at their places: parameters and body share a scope. -/
def FunDecl.expressions (around : Surroundings) : FunDecl NodeId → List Placed
  | .mk _ params body =>
    Stmt.expressionsAll (.names (params ++ Stmt.declarations body) params :: around) body

/-- The expressions of functions at their places. -/
def FunDecl.expressionsEach (around : Surroundings) : List (FunDecl NodeId) → List Placed
  | [] => []
  | decl :: rest => decl.expressions around ++ FunDecl.expressionsEach around rest

end

/-- The uses of names in a program at their places, in the order in which they are resolved. -/
def usesOf (body : List (Stmt NodeId)) : List Use := (Stmt.expressionsAll [] body).flatMap Placed.uses

end Lox
