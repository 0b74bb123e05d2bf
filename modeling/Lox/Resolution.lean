import Lox.Diagnostic
import Lox.Syntax.Numbering

/-! # Resolution of names

Before a program runs, one walk over its tree finds out for every use of a local name how many scopes
lie between the use and the declaration it belongs to, and reports what the rules on names, classes and
functions forbid.  A use that no local scope declares gets no distance: it is a use of a global.

The walk follows the text: a name is found only by what comes after its declaration.  The global scope
is never on the stack, so globals may be declared twice. -/

namespace Lox

/-- A local scope as far as it has been walked: its names, and whether each may be read already. -/
abbrev Scope := List (String × Bool)

namespace Scope

/-- Does the scope declare a name? -/
def declares (s : Scope) (name : String) : Bool := s.any (·.1 == name)

/-- May a name of the scope not be read yet? -/
def isPending (s : Scope) (name : String) : Bool := s.lookup name == some false

/-- Makes a name of the scope readable, declaring it where it is not declared. -/
def define (s : Scope) (name : String) : Scope :=
  if s.declares name then s.map fun (n, ready) => (n, ready || n == name) else (name, true) :: s

end Scope

/-- The class around a piece of code: none, one without superclass, or one with. -/
inductive ClassContext where
  | outside
  | base
  | derived
  deriving DecidableEq, Repr

/-- What surrounds a piece of code: is it in a function, and in which sort of class. -/
structure Context where
  inFunction : Bool
  inClass : ClassContext
  deriving DecidableEq, Repr

/-- The surroundings of a whole program. -/
def Context.top : Context := ⟨false, .outside⟩

/-- The distances of local uses, by node; the latest found comes first. -/
abbrev Distances := List (NodeId × Nat)

/-- What the walk keeps: the scopes around the current place, innermost first, the distances found so
far, and the faults, both with the latest first. -/
structure Walk where
  scopes : List Scope
  distances : Distances
  faults : List ScopeError
  deriving Repr

/-- A step of the walk. -/
abbrev Resolve := StateM Walk

namespace Resolve

/-- Reports a fault. -/
def fault (fault : ScopeFault) (lexeme : Lexeme) : Resolve Unit :=
  modify fun w => { w with faults := ⟨fault, lexeme⟩ :: w.faults }

/-- Changes the innermost scope, if there is a local one. -/
def modifyInnermost (f : Scope → Scope) : Resolve Unit :=
  modify fun w =>
    match w.scopes with
    | [] => w
    | s :: outer => { w with scopes := f s :: outer }

/-- Declares a name, not yet to be read; a second declaration in a scope is a fault. -/
def declare (name : Lexeme) : Resolve Unit := do
  match (← get).scopes with
  | [] => pure ()
  | s :: _ =>
    if s.declares name.text then fault .redeclared name
    else modifyInnermost ((name.text, false) :: ·)

/-- Makes a declared name readable. -/
def define (name : String) : Resolve Unit := modifyInnermost (·.define name)

/-- Walks through something in a scope of its own. -/
def inScope (inner : Resolve Unit) : Resolve Unit := do
  modify fun w => { w with scopes := [] :: w.scopes }
  inner
  modify fun w => { w with scopes := w.scopes.tail }

/-- Records how far out a name is declared, if a local scope declares it. -/
def locate (ref : Reference NodeId) : Resolve Unit :=
  modify fun w =>
    match w.scopes.findIdx? (·.declares ref.name.text) with
    | some distance => { w with distances := (ref.id, distance) :: w.distances }
    | none => w

/-- A read of a variable, which its own initializer may not do. -/
def read (ref : Reference NodeId) : Resolve Unit := do
  match (← get).scopes with
  | s :: _ => if s.isPending ref.name.text then fault .readInOwnInitializer ref.name
  | [] => pure ()
  locate ref

end Resolve

open Resolve

mutual

/-- Walks through an expression. -/
def Expr.resolve (ctx : Context) : Expr NodeId → Resolve Unit
  | .literal _ _ => pure ()
  | .group _ inner => inner.resolve ctx
  | .unary _ _ _ operand => operand.resolve ctx
  | .binary _ _ _ left right => do
    left.resolve ctx
    right.resolve ctx
  | .logical _ _ _ left right => do
    left.resolve ctx
    right.resolve ctx
  | .name ref => read ref
  | .assign target value => do
    value.resolve ctx
    locate target
  | .call _ callee _ arguments => do
    callee.resolve ctx
    Expr.resolveEach ctx arguments
  | .get _ object _ => object.resolve ctx
  | .set _ object _ value => do
    value.resolve ctx
    object.resolve ctx
  | .this ref =>
    match ctx.inClass with
    | .outside => fault .thisOutsideClass ref.name
    | .base | .derived => locate ref
  | .super ref _ =>
    match ctx.inClass with
    | .outside => fault .superOutsideClass ref.name
    | .base => fault .superWithoutSuperclass ref.name
    | .derived => locate ref

/-- Walks through expressions in order. -/
def Expr.resolveEach (ctx : Context) : List (Expr NodeId) → Resolve Unit
  | [] => pure ()
  | e :: rest => do
    e.resolve ctx
    Expr.resolveEach ctx rest

end

/-- Walks through an expression that may be absent. -/
def Expr.resolve? (ctx : Context) : Option (Expr NodeId) → Resolve Unit
  | none => pure ()
  | some e => e.resolve ctx

/-- Declares a name that may be read at once. -/
def Resolve.introduce (name : Lexeme) : Resolve Unit := do
  declare name
  define name.text

/-- Walks through the use of a superclass by the class `name`. -/
def Resolve.inherit (name : Lexeme) (superclass : Reference NodeId) : Resolve Unit := do
  if superclass.name.text = name.text then fault .inheritsFromItself superclass.name
  read superclass

mutual

/-- Walks through a statement. -/
def Stmt.resolve (ctx : Context) : Stmt NodeId → Resolve Unit
  | .expression value => value.resolve ctx
  | .print value => value.resolve ctx
  | .var name initializer => do
    declare name
    Expr.resolve? ctx initializer
    define name.text
  | .block body => inScope (Stmt.resolveAll ctx body)
  | .ite condition yes none => do
    condition.resolve ctx
    yes.resolve ctx
  | .ite condition yes (some no) => do
    condition.resolve ctx
    yes.resolve ctx
    no.resolve ctx
  | .while condition body => do
    condition.resolve ctx
    body.resolve ctx
  | .function decl => do
    introduce decl.name
    decl.resolve ctx
  | .ret keyword value => do
    unless ctx.inFunction do fault .returnOutsideFunction keyword
    Expr.resolve? ctx value
  | .cls name none methods => do
    introduce name
    inScope do
      define "this"
      FunDecl.resolveEach { ctx with inClass := .base } methods
  | .cls name (some superclass) methods => do
    introduce name
    inherit name superclass
    inScope do
      define "super"
      inScope do
        define "this"
        FunDecl.resolveEach { ctx with inClass := .derived } methods

/-- Walks through statements in order. -/
def Stmt.resolveAll (ctx : Context) : List (Stmt NodeId) → Resolve Unit
  | [] => pure ()
  | s :: rest => do
    s.resolve ctx
    Stmt.resolveAll ctx rest

/-- Walks through a function: its parameters and its body share a scope. -/
def FunDecl.resolve (ctx : Context) : FunDecl NodeId → Resolve Unit
  | .mk _ params body => inScope do
    params.forM introduce
    Stmt.resolveAll { ctx with inFunction := true } body

/-- Walks through functions in order. -/
def FunDecl.resolveEach (ctx : Context) : List (FunDecl NodeId) → Resolve Unit
  | [] => pure ()
  | decl :: rest => do
    decl.resolve ctx
    FunDecl.resolveEach ctx rest

end

/-- The outcome of a walk from outside all local scopes: the distances, or all faults in order. -/
def Resolve.outcome (walk : Resolve Unit) : Except (List ScopeError) Distances :=
  let ((), w) := walk.run ⟨[], [], []⟩
  if w.faults.isEmpty then .ok w.distances else .error w.faults.reverse

/-- Resolves the names of a program. -/
def resolveProgram (body : List (Stmt NodeId)) : Except (List ScopeError) Distances :=
  (Stmt.resolveAll .top body).outcome

/-- Resolves the names of an expression that stands alone. -/
def resolveExpression (e : Expr NodeId) : Except (List ScopeError) Distances :=
  (e.resolve .top).outcome

end Lox
