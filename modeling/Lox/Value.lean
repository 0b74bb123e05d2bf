import Lox.Syntax.Numbering

/-! # Values

What expressions evaluate to.  Functions, classes and instances are told apart by identity numbers;
an instance is a number under which its fields are stored, and its class.  A class carries the bodies of
all classes above it, so a hierarchy is finite and without cycles by construction. -/

namespace Lox

/-- The number of a scope frame. -/
abbrev FrameId := Nat

/-- A scope chain: the frames around a piece of code, innermost first. -/
abbrev Env := List FrameId

/-- A function declaration together with the scope chain it was made in. -/
structure Closure where
  decl : FunDecl NodeId
  env : Env
  /-- Does a call yield the instance that the function is bound to? -/
  isInitializer : Bool

/-- What one class statement makes. -/
structure ClassBody where
  id : Nat
  name : String
  /-- The methods, the last of the text first. -/
  methods : List (String × Closure)

/-- A class: its own body and those it inherits from, nearest first. -/
structure Class where
  own : ClassBody
  ancestors : List ClassBody

namespace Class

/-- All bodies of a class, its own first. -/
def bodies (c : Class) : List ClassBody := c.own :: c.ancestors

/-- The nearest definition of a method. -/
def find? (c : Class) (name : String) : Option Closure :=
  c.bodies.findSome? (·.methods.lookup name)

end Class

/-- The name of the method that a construction runs. -/
def initializerName : String := "init"

/-- The values of the language. -/
inductive Value where
  | nil
  | bool (b : Bool)
  | number (x : Float)
  | string (s : String)
  | clock
  | function (id : Nat) (closure : Closure)
  | cls (c : Class)
  | instance_ (id : Nat) (c : Class)

instance : Inhabited Value := ⟨.nil⟩

namespace Closure

/-- The number of arguments a function takes. -/
def arity (f : Closure) : Nat := f.decl.params.length

end Closure

/-- The number of arguments a construction takes. -/
def Class.arity (c : Class) : Nat :=
  match c.find? initializerName with
  | some initializer => initializer.arity
  | none => 0

/-- What can be called. -/
inductive Callable where
  | clock
  | function (closure : Closure)
  | cls (c : Class)

/-- The number of arguments a call takes. -/
def Callable.arity : Callable → Nat
  | clock => 0
  | function closure => closure.arity
  | cls c => c.arity

namespace Value

/-- Only `nil` and `false` count as false. -/
def truthy : Value → Bool
  | nil => false
  | bool b => b
  | _ => true

/-- The name of a value's type. -/
def typeName : Value → String
  | nil => "nil"
  | bool _ => "boolean"
  | number _ => "number"
  | string _ => "string"
  | clock | function .. => "function"
  | cls _ => "class"
  | instance_ .. => "instance"

/-- What a call of a value calls, if it can be called. -/
def callable? : Value → Option Callable
  | clock => some .clock
  | function _ closure => some (.function closure)
  | cls c => some (.cls c)
  | _ => none

/-- The number of arguments a value takes when it is called, if it can be called. -/
def arity? (v : Value) : Option Nat := v.callable?.map Callable.arity

/-- The text a program prints. -/
def text : Value → String
  | nil => "nil"
  | bool true => "true"
  | bool false => "false"
  | number x => Number.valueText x
  | string s => s
  | clock => "<native fn>"
  | function _ closure => "<fn " ++ closure.decl.name.text ++ ">"
  | cls c => c.own.name
  | instance_ _ c => c.own.name ++ " instance"

/-- Equality in the language: no value equals one of another type, numbers compare as doubles, and
functions, classes and instances by identity. -/
def equals : Value → Value → Bool
  | nil, nil => true
  | bool a, bool b => a == b
  | number a, number b => a == b
  | string a, string b => a == b
  | clock, clock => true
  | function a _, function b _ => a == b
  | cls a, cls b => a.own.id == b.own.id
  | instance_ a _, instance_ b _ => a == b
  | _, _ => false

/-- The value of a literal. -/
def ofLiteral : Literal → Value
  | .number x => number x
  | .string s => string s
  | .bool b => bool b
  | .nil => nil

end Value

end Lox
